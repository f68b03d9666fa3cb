import QuickJsKmp.Selection

/-!
# The payload of a call

`*out` points into the engine's buffers, and every nested call writes the same
buffers. `finish` writes its payload late for that reason, and sets it aside
during the second drain. Script still runs after the write at two points: the
`stack` accessor of an exception whose message is already published, and the
second report of rejections.
-/

namespace QuickJsKmp

open Recorded (Keeps)

/-- The pointer, or NULL, designates this text as this call wrote it, and no other bytes. -/
def World.Designates (w : World) (p : Option Published) (text : Bytes) : Prop :=
  w.reads p = some ((cells .own text).map some)

instance (w : World) (p : Option Published) (text : Bytes) : Decidable (w.Designates p text) :=
  inferInstanceAs (Decidable (_ = _))

/-- What the caller reads through `*out` is these two texts. -/
structure Out.Intact (out : Out) (w : World) (str stack : Bytes) : Prop where
  str : w.Designates out.str str
  stack : w.Designates out.stack stack

-- ---------------------------------------------------------------------------
-- The condition, on the record
-- ---------------------------------------------------------------------------

def Point.isMessage : Point → Bool
  | .message _ _ => true
  | _ => false

/-- The message of this exception is asked for. -/
def Point.tells (exc : JSValue) : Point → Bool
  | .message _ e => e = exc
  | _ => false

/-- Its `stack` is. -/
def Point.traces (exc : JSValue) : Point → Bool
  | .stack _ e => e = exc
  | _ => false

/-- After the payload was written, and not during the second drain. -/
def Point.afterWrite : Point → Bool
  | .stack _ _ | .report true => true
  | _ => false

/-- The message that the steps of `error_to_out` make. -/
def messageOf : List Step → Bytes
  | [_, ⟨_, _, .text t⟩] => t
  | _ => unknownException

/-- The text that the steps of `value_to_out` make. -/
def convertOf (ss : List Step) : Bytes :=
  match ss.getLast? with
  | some ⟨_, _, .text t⟩ => t
  | _ => []

/-- The text that the steps for the `stack` of an error make. -/
def stackOf : List Step → Bytes
  | [_, ⟨_, _, .text t⟩] => t
  | _ => []

/-- The text of what the call came to: of its exception, or of its result. -/
def Verdict.text (ss : List Step) : Verdict → Bytes
  | .exception c => if c.oom then outOfMemory else messageOf (ss.filter fun s => s.point.tells c.exc)
  | .value _ _ _ => convertOf (ss.filter fun s => s.point = .convert)

def Verdict.stack (ss : List Step) : Verdict → Bytes
  | .exception c => if c.oom then [] else stackOf (ss.filter fun s => s.point.traces c.exc)
  | .value _ _ _ => []

/-- The text that the record has for the payload. -/
def payload (ss : List Step) : Bytes :=
  if ss.any fun s => s.point.isMessage then messageOf (ss.filter fun s => s.point.isMessage)
  else convertOf (ss.filter fun s => s.point = .convert)

/-- No call nested in these steps leaves a payload of its own in `e->out_str`. -/
def Sparing (ss : List Step) : Prop :=
  ∀ s ∈ ss, ∀ bytes, Effect.write false bytes ∈ s.effects → bytes = []

/-- The payload is empty, or no nested call leaves one after it was written. -/
def Undisturbed (ss : List Step) : Prop :=
  payload ss = [] ∨ Sparing (ss.filter fun s => s.point.afterWrite)

-- ---------------------------------------------------------------------------
-- What nested calls do to a published pointer
-- ---------------------------------------------------------------------------

variable {es : List Effect}

theorem overwritten_eq (ss : List Step) (b : Buf) :
    overwritten ss b = (ss.flatMap Step.effects).foldl writeEffect b := by
  induction ss generalizing b with
  | nil => rfl
  | cons s ss ih => simpa [overwritten, List.foldl_append] using ih _

theorem writeEffect_spoiled {b : Buf} (h : b.Spoiled) (e : Effect) : (writeEffect b e).Spoiled := by
  cases e with
  | write stack bytes =>
    cases stack
    · exact h.write bytes
    · exact h
  | _ => exact h

theorem foldl_spoiled {b : Buf} (h : b.Spoiled) (es : List Effect) :
    (es.foldl writeEffect b).Spoiled := by
  induction es generalizing b with
  | nil => exact h
  | cons e es ih => exact ih (writeEffect_spoiled h e)

theorem foldl_spoiled_of_write {b : Buf} (hmem : Effect.write false bytes ∈ es) (hbs : bytes ≠ []) :
    (es.foldl writeEffect b).Spoiled := by
  induction es generalizing b with
  | nil => simp at hmem
  | cons e es ih =>
    rcases List.mem_cons.mp hmem with rfl | hmem
    · exact foldl_spoiled (b.spoiled_of_write hbs) es
    · exact ih hmem

theorem foldl_read (hsparing : ∀ bytes, Effect.write false bytes ∈ es → bytes = []) (b : Buf)
    (p : Ptr) : (es.foldl writeEffect b).read p = b.read p := by
  induction es generalizing b with
  | nil => rfl
  | cons e es ih =>
    rw [List.foldl_cons, ih fun bytes h => hsparing bytes (List.mem_cons_of_mem _ h)]
    cases e with
    | write stack bytes =>
      cases stack
      · obtain rfl := hsparing bytes List.mem_cons_self
        simp only [writeEffect, cells, List.map_nil, Buf.write_nil, Buf.read_reset]
      · rfl
    | _ => rfl

/-- Steps after the write leave the payload alone exactly when it is empty or
no nested call wrote one. -/
theorem designates_iff (b : Buf) (t : Bytes) (ss : List Step) :
    (overwritten ss (b.write (cells .own t))).read (b.write (cells .own t)).publish =
      some ((cells .own t).map some) ↔ t = [] ∨ Sparing ss := by
  rw [overwritten_eq]
  constructor
  · intro hread
    by_cases ht : t = []
    · exact .inl ht
    · right
      intro s hs bytes hmem
      by_cases hbs : bytes = []
      · exact hbs
      · have hspoiled := foldl_spoiled_of_write (b := b.write (cells .own t))
          (List.mem_flatMap.mpr ⟨s, hs, hmem⟩) hbs
        refine absurd hread (hspoiled.read_ne ?_)
        simpa [Buf.publish, Buf.write_len, cells] using ht
  · rintro (rfl | hsparing)
    · simp [Buf.read, Buf.publish, Buf.write_len, cells]
    · rw [foldl_read, Buf.read_write]
      intro bytes hmem
      obtain ⟨s, hs, hmem⟩ := List.mem_flatMap.mp hmem
      exact hsparing s hs bytes hmem

-- ---------------------------------------------------------------------------
-- What the pieces write
-- ---------------------------------------------------------------------------

/-- The pointer was just published, and its buffer holds the call's own write. -/
def World.Fresh (w : World) (p : Published) (text : Bytes) : Prop :=
  ∃ b, w.buf p.name = Buf.write b (cells .own text) ∧ p.ptr = (w.buf p.name).publish

theorem World.Fresh.designates {w : World} (h : w.Fresh p text) : w.Designates (some p) text := by
  obtain ⟨b, hbuf, hptr⟩ := h
  rw [World.Designates, World.reads, hptr, hbuf, Buf.read_write]

theorem designates_none (w : World) : w.Designates none [] := rfl

theorem buf_setBuf (w : World) (name : BufName) (b : Buf) : (w.setBuf name b).buf name = b := by
  cases name <;> rfl

theorem engineStep_not_text (h : engineStep pt s w = some (r, w')) (t : Bytes) :
    s.answer ≠ .text t := by
  intro htext
  simp only [engineStep, htext] at h
  split at h <;> cases h

theorem publishText_cases (h : publishText .own name t w ss = some (p, w', rest)) :
    p.name = name ∧ w'.Fresh p t ∧ rest = ss := by
  simp only [publishText, write, publish, Recorded.modify_bind] at h
  obtain ⟨rfl, rfl, rfl⟩ := Recorded.pure_eq_some.mp h
  exact ⟨rfl, ⟨_, buf_setBuf _ _ _, rfl⟩, rfl⟩

theorem copyJsString_cases (h : copyJsString .own pt v name w ss = some (r, w', rest)) :
    ∃ s, ss = s :: rest ∧ s.point = pt ∧
      (∀ p ∈ r, ∃ t, s.answer = .text t ∧ p.name = name ∧ w'.Fresh p t) ∧
      (r = none → ∃ exc, s.answer = .threw exc) := by
  obtain ⟨t, w₁, ss₁, hstr, hthen⟩ := Recorded.bind_eq_some.mp h
  obtain ⟨s, rfl, hpt, -, htext, hthrew⟩ := toCStringLen_step hstr
  cases t with
  | none =>
    obtain ⟨rfl, rfl, rfl⟩ := Recorded.pure_eq_some.mp hthen
    exact ⟨s, rfl, hpt, by simp, fun _ => hthrew rfl⟩
  | some t =>
    obtain ⟨p, w₂, ss₂, hpub, hpure⟩ := Recorded.bind_eq_some.mp hthen
    obtain ⟨rfl, rfl, rfl⟩ := Recorded.pure_eq_some.mp hpure
    obtain ⟨hname, hfresh, rfl⟩ := publishText_cases hpub
    refine ⟨s, rfl, hpt, ?_, by simp⟩
    rintro _ ⟨⟩
    exact ⟨t, htext _ rfl, hname, hfresh⟩

/-- What a conversion publishes is the last text it read. -/
def Converts (used : List Step) (out : Out) (w : World) : Prop :=
  out.stack = none ∧ ((out.str = none ∧ convertOf used = []) ∨
    ∃ p, out.str = some p ∧ p.name = .outStr ∧ w.Fresh p (convertOf used))

theorem convertOf_concat_text (h : s.answer = .text t) : convertOf (us ++ [s]) = t := by
  obtain ⟨pt, es, a⟩ := s
  obtain rfl : a = .text t := h
  simp [convertOf]

theorem convertOf_no_text (h : ∀ t, s.answer ≠ .text t) : convertOf [s] = [] := by
  obtain ⟨pt, es, a⟩ := s
  cases a with
  | text t => exact absurd rfl (h t)
  | _ => rfl

theorem textToOut_converts (h : textToOut .own tag v w ss = some (some out, w', rest)) :
    ∃ s, ss = s :: rest ∧ ∀ us, Converts (us ++ [s]) out w' := by
  obtain ⟨r, w₁, ss₁, hcopy, hthen⟩ := Recorded.bind_eq_some.mp h
  obtain ⟨s, rfl, -, hp, -⟩ := copyJsString_cases hcopy
  cases r with
  | none =>
    obtain ⟨hout, -⟩ := Recorded.pure_eq_some.mp hthen
    cases hout
  | some p =>
    obtain ⟨hout, rfl, rfl⟩ := Recorded.pure_eq_some.mp hthen
    obtain rfl := Option.some.inj hout
    obtain ⟨t, htext, hname, hfresh⟩ := hp p rfl
    refine ⟨s, rfl, fun us => ⟨rfl, .inr ⟨p, rfl, hname, ?_⟩⟩⟩
    rwa [convertOf_concat_text htext]

/-- A result with no payload. -/
theorem pure_converts (h : (pure (some ⟨tag, none, none⟩) : M (Option Out)) w ss =
      some (some out, w', rest)) : ss = [] ++ rest ∧ Converts [] out w' := by
  obtain ⟨hout, rfl, rfl⟩ := Recorded.pure_eq_some.mp h
  obtain rfl := Option.some.inj hout
  exact ⟨rfl, rfl, .inl ⟨rfl, rfl⟩⟩

theorem refToOut_converts (h : refToOut v w ss = some (some out, w', rest)) :
    ss = [] ++ rest ∧ Converts [] out w' := by
  obtain ⟨kind, w₀, ss₀, hkind, hnext⟩ := Recorded.bind_eq_some.mp h
  obtain ⟨none, rfl, hacts⟩ := (objectKind_keeps (acts_passive fun _ => False)).elim hkind
  obtain ⟨rfl, -⟩ := hacts.nil
  obtain ⟨handle, w₁, ss₁, hslot, hthen⟩ := Recorded.bind_eq_some.mp hnext
  cases hslot
  split at hthen
  · obtain ⟨_, w₂, ss₂, -, hpure⟩ := Recorded.bind_eq_some.mp hthen
    obtain ⟨hout, -⟩ := Recorded.pure_eq_some.mp hpure
    cases hout
  · exact pure_converts hthen

theorem binaryToOut_converts (h : binaryToOut .own w ss = some (some out, w', rest)) :
    ∃ used, ss = used ++ rest ∧ Converts used out w' := by
  obtain ⟨r, w₁, ss₁, hlend, hthen⟩ := Recorded.bind_eq_some.mp h
  obtain ⟨s, rfl, -, -, htext, -⟩ := lend_step hlend
  cases r with
  | none =>
    obtain ⟨hout, -⟩ := Recorded.pure_eq_some.mp hthen
    cases hout
  | some bytes =>
    obtain ⟨p, w₂, ss₂, hpub, hpure⟩ := Recorded.bind_eq_some.mp hthen
    obtain ⟨hout, rfl, rfl⟩ := Recorded.pure_eq_some.mp hpure
    obtain rfl := Option.some.inj hout
    obtain ⟨hname, hfresh, rfl⟩ := publishText_cases hpub
    refine ⟨[s], rfl, rfl, .inr ⟨p, rfl, hname, ?_⟩⟩
    rwa [← List.nil_append [s], convertOf_concat_text (htext _ rfl)]

theorem jsonToOut_converts (h : jsonToOut .own w ss = some (some out, w', rest)) :
    ∃ used, ss = used ++ rest ∧ Converts used out w' := by
  obtain ⟨r, w₁, ss₁, hengine, hthen⟩ := Recorded.bind_eq_some.mp h
  obtain ⟨s, rfl, hs⟩ := Recorded.next_eq_some.mp hengine
  split at hthen
  · obtain ⟨hout, -⟩ := Recorded.pure_eq_some.mp hthen
    cases hout
  · obtain ⟨hout, rfl, rfl⟩ := Recorded.pure_eq_some.mp hthen
    obtain rfl := Option.some.inj hout
    exact ⟨[s], rfl, rfl, .inl ⟨rfl, convertOf_no_text (engineStep_not_text hs)⟩⟩
  · obtain ⟨s', rfl, hconv⟩ := textToOut_converts hthen
    exact ⟨[s, s'], rfl, hconv [s]⟩

theorem valueToOut_converts (h : valueToOut .own v refObjects w ss = some (some out, w', rest)) :
    ∃ used, ss = used ++ rest ∧ (∀ s ∈ used, s.point = .convert) ∧ Converts used out w' := by
  obtain ⟨used, rfl, hacts⟩ := (valueToOut_acts (p := (· = .convert)) rfl).elim h
  refine ⟨used, rfl, hacts.points, ?_⟩
  suffices hused : ∃ used', used ++ rest = used' ++ rest ∧ Converts used' out w' by
    obtain ⟨used', hsame, hconv⟩ := hused
    rwa [List.append_cancel_right hsame]
  cases v with
  | undefined | null | bool | number => exact ⟨[], pure_converts h⟩
  | string | bigInt =>
    obtain ⟨s, hs, hconv⟩ := textToOut_converts h
    exact ⟨[s], hs, hconv []⟩
  | symbol =>
    simp only [valueToOut] at h
    split at h
    · exact ⟨[], refToOut_converts h⟩
    · exact jsonToOut_converts h
  | object ptr cls =>
    simp only [valueToOut] at h
    split at h
    · exact ⟨[], refToOut_converts h⟩
    · split at h
      · exact ⟨[], pure_converts h⟩
      · split at h
        · exact binaryToOut_converts h
        · exact jsonToOut_converts h

theorem messageOf_pair (h : s'.answer = .text t) : messageOf [s, s'] = t := by
  obtain ⟨pt, es, a⟩ := s'
  obtain rfl : a = .text t := h
  rfl

theorem messageOf_threw (h : s'.answer = .threw exc) : messageOf [s, s'] = unknownException := by
  obtain ⟨pt, es, a⟩ := s'
  obtain rfl : a = .threw exc := h
  rfl

theorem messageText_cases (h : messageText pt exc w ss = some (t, w', rest)) :
    ∃ used, ss = used ++ rest ∧ used ≠ [] ∧ messageOf used = t := by
  obtain ⟨r, w₁, ss₁, hstr, hthen⟩ := Recorded.bind_eq_some.mp h
  obtain ⟨v, w₂, ss₂, hengine, hcheck⟩ := Recorded.bind_eq_some.mp hstr
  obtain ⟨s, rfl, -⟩ := Recorded.next_eq_some.mp hengine
  obtain ⟨none, rfl, hacts⟩ := (stringOf_keeps (acts_passive fun _ => False)).elim hcheck
  obtain ⟨rfl, -⟩ := hacts.nil
  cases r with
  | none =>
    simp only [copiedText, clearException, Recorded.modify_bind] at hthen
    obtain ⟨rfl, rfl, rfl⟩ := Recorded.pure_eq_some.mp hthen
    exact ⟨[s], rfl, by simp, rfl⟩
  | some x =>
    obtain ⟨r', w₃, ss₃, hcstr, hlast⟩ := Recorded.bind_eq_some.mp hthen
    obtain ⟨s', hs', -, -, htext, hthrew⟩ := toCStringLen_step hcstr
    obtain rfl : ss₁ = s' :: ss₃ := hs'
    cases r' with
    | none =>
      simp only [clearException, Recorded.modify_bind] at hlast
      obtain ⟨rfl, rfl, rfl⟩ := Recorded.pure_eq_some.mp hlast
      obtain ⟨exc', hexc⟩ := hthrew rfl
      exact ⟨[s, s'], rfl, by simp, messageOf_threw hexc⟩
    | some t' =>
      obtain ⟨rfl, rfl, rfl⟩ := Recorded.pure_eq_some.mp hlast
      exact ⟨[s, s'], rfl, by simp, messageOf_pair (htext _ rfl)⟩

theorem stackOf_pair (h : s'.answer = .text t) : stackOf [s, s'] = t := by
  obtain ⟨pt, es, a⟩ := s'
  obtain rfl : a = .text t := h
  rfl

theorem stackOf_threw (h : s'.answer = .threw exc) : stackOf [s, s'] = [] := by
  obtain ⟨pt, es, a⟩ := s'
  obtain rfl : a = .threw exc := h
  rfl

theorem stackToOut_designates (h : stackToOut .own sink w ss = some (r, w', rest)) :
    ∃ used, ss = used ++ rest ∧ w'.Designates r (stackOf used) := by
  obtain ⟨v, w₁, ss₁, hengine, hthen⟩ := Recorded.bind_eq_some.mp h
  obtain ⟨s, rfl, -⟩ := Recorded.next_eq_some.mp hengine
  split at hthen
  · simp only [clearException, Recorded.modify_bind] at hthen
    obtain ⟨rfl, rfl, rfl⟩ := Recorded.pure_eq_some.mp hthen
    exact ⟨[s], rfl, designates_none _⟩
  · obtain ⟨s', rfl, -, hp, hthrew⟩ := copyJsString_cases hthen
    refine ⟨[s, s'], rfl, ?_⟩
    cases r with
    | none =>
      obtain ⟨exc, hexc⟩ := hthrew rfl
      rw [stackOf_threw hexc]
      exact designates_none _
    | some p =>
      obtain ⟨t, htext, -, hfresh⟩ := hp p rfl
      rw [stackOf_pair htext]
      exact hfresh.designates
  · obtain ⟨rfl, rfl, rfl⟩ := Recorded.pure_eq_some.mp hthen
    exact ⟨[s], rfl, designates_none _⟩

/-- A payload that was just published, and the steps that ran since. -/
theorem World.Fresh.designates_iff {w w' : World} (hfresh : w.Fresh p text)
    (hname : p.name = .outStr) (hspares : Spares w us w') :
    w'.Designates (some p) text ↔ text = [] ∨ Sparing us := by
  obtain ⟨b, hbuf, hptr⟩ := hfresh
  simp only [hname, World.buf] at hbuf hptr
  have hspares' : w'.outStr = overwritten us (b.write (cells .own text)) := hbuf ▸ hspares
  simp only [World.Designates, World.reads, hname, World.buf, hspares', hptr, hbuf]
  exact QuickJsKmp.designates_iff b text us

/-- The payload of an exception: its message as read, disturbed by the steps of
the `stack` accessor. -/
theorem errorToOut_intact
    (h : errorToOut .own (callSink late exc) exc w ss = some (out, w', rest)) :
    ∃ um us, ss = um ++ (us ++ rest) ∧ um ≠ [] ∧ (∀ s ∈ um, s.point = .message late exc) ∧
      (∀ s ∈ us, s.point = .stack late exc) ∧
      (out.Intact w' (messageOf um) (stackOf us) ↔ messageOf um = [] ∨ Sparing us) := by
  obtain ⟨text, w₁, ss₁, hmsg, hthen⟩ := Recorded.bind_eq_some.mp h
  obtain ⟨um, rfl, hne, rfl⟩ := messageText_cases hmsg
  obtain ⟨um', hsame, hacts⟩ :=
    (messageText_keeps (acts_passive (· = .message late exc)) rfl).elim hmsg
  obtain rfl : um = um' := List.append_cancel_right hsame
  obtain ⟨p, w₂, ss₂, hpub, hstack⟩ := Recorded.bind_eq_some.mp hthen
  obtain ⟨hname, hfresh, rfl⟩ := publishText_cases hpub
  split at hstack
  · obtain ⟨q, w₃, ss₃, hrun, hpure⟩ := Recorded.bind_eq_some.mp hstack
    obtain ⟨rfl, rfl, rfl⟩ := Recorded.pure_eq_some.mp hpure
    have hkeeps : Keeps (fun w us w' => Acts (· = .stack late exc) w us w' ∧ Spares w us w')
        (stackToOut .own (callSink late exc)) :=
      .and (stackToOut_keeps (acts_passive _) rfl fun _ => write_acts)
        (stackToOut_keeps (spares_passive fun _ => True) trivial
          fun _ => write_keeps (spares_loose fun _ => True) (by simp [callSink]))
    obtain ⟨us, rfl, hus, hspares⟩ := hkeeps.elim hrun
    obtain ⟨us', hsame, hq⟩ := stackToOut_designates hrun
    obtain rfl := List.append_cancel_right hsame
    refine ⟨um, us, rfl, hne, hacts.points, hus.points, ?_⟩
    rw [← hfresh.designates_iff hname hspares]
    exact ⟨Out.Intact.str, fun hstr => ⟨hstr, hq⟩⟩
  · obtain ⟨rfl, rfl, rfl⟩ := Recorded.pure_eq_some.mp hstack
    refine ⟨um, [], rfl, hne, hacts.points, by simp, ?_⟩
    exact iff_of_true ⟨hfresh.designates, designates_none _⟩ (.inr (by simp [Sparing]))

/-- The fixed payload of a refused allocation is read by nobody else. -/
theorem oomToOut_intact (h : oomToOut .own w ss = some (out, w', rest)) :
    ss = rest ∧ out.Intact w' outOfMemory [] := by
  obtain ⟨p, w₁, ss₁, hpub, hpure⟩ := Recorded.bind_eq_some.mp h
  obtain ⟨rfl, rfl, rfl⟩ := Recorded.pure_eq_some.mp hpure
  obtain ⟨-, hfresh, rfl⟩ := publishText_cases hpub
  exact ⟨rfl, hfresh.designates, designates_none _⟩

-- ---------------------------------------------------------------------------
-- The condition along a call
-- ---------------------------------------------------------------------------

/-- The points whose steps neither make the payload nor run after it. -/
def Point.silent (pt : Point) : Bool := !pt.isMessage && pt ≠ .convert && !pt.afterWrite

theorem undisturbed_filter (ss : List Step) :
    Undisturbed (ss.filter fun s => !s.point.silent) ↔ Undisturbed ss := by
  have hmsg : ∀ s : Step, (s.point.isMessage && !s.point.silent) = s.point.isMessage := by
    intro s
    cases h : s.point.isMessage <;> simp [Point.silent, h]
  have hconv : ∀ s : Step, (decide (s.point = .convert) && !s.point.silent) =
      decide (s.point = .convert) := by
    intro s
    by_cases h : s.point = .convert <;> simp [Point.silent, h]
  have hafter : ∀ s : Step, (s.point.afterWrite && !s.point.silent) = s.point.afterWrite := by
    intro s
    cases h : s.point.afterWrite <;> simp [Point.silent, h]
  have hmsg' : ∀ s : Step, (!s.point.silent && s.point.isMessage) = s.point.isMessage :=
    fun s => (Bool.and_comm _ _).trans (hmsg s)
  simp only [Undisturbed, payload, List.any_filter, List.filter_filter, hmsg, hmsg', hconv, hafter]

/-- Silent steps in front, as those of the first drain and report are. -/
theorem undisturbed_append (h : ∀ s ∈ us, s.point.silent) :
    Undisturbed (us ++ ss) ↔ Undisturbed ss := by
  rw [← undisturbed_filter, List.filter_append, ← undisturbed_filter ss]
  rw [filter_none fun s hs => by simp [h s hs], List.nil_append]

/-- Nothing after the conversion but steps at silent points: the payload is
what the conversion made, and only a report comes after it. -/
theorem undisturbed_value (hconv : ∀ s ∈ uc, s.point = .convert)
    (hsilent : ∀ s ∈ ud, s.point.silent)
    (hreport : ∀ s ∈ ur, s.point = .report true) :
    Undisturbed (uc ++ (ud ++ ur)) ↔ convertOf uc = [] ∨ Sparing ur := by
  have hud : ud.filter (fun s => !s.point.silent) = [] :=
    filter_none fun s hs => by simp [hsilent s hs]
  have huc : uc.filter (fun s => !s.point.silent) = uc :=
    filter_all fun s hs => by simp [hconv s hs, Point.silent]
  have hur : ur.filter (fun s => !s.point.silent) = ur :=
    filter_all fun s hs => by simp [hreport s hs, Point.silent, Point.isMessage, Point.afterWrite]
  have hmsg : (uc ++ ur).any (fun s => s.point.isMessage) = false := by
    simp only [List.any_eq_false, List.mem_append]
    rintro s (hs | hs)
    · simp [hconv s hs, Point.isMessage]
    · simp [hreport s hs, Point.isMessage]
  rw [← undisturbed_filter]
  simp only [List.filter_append, huc, hud, hur, List.nil_append, Undisturbed, payload, hmsg]
  rw [filter_all (q := fun s => s.point = .convert) fun s hs => by simp [hconv s hs],
    filter_none (q := fun s => s.point = .convert) fun s hs => by simp [hreport s hs],
    filter_none (q := (·.point.afterWrite)) fun s hs => by simp [hconv s hs, Point.afterWrite],
    filter_all (q := (·.point.afterWrite)) fun s hs => by simp [hreport s hs, Point.afterWrite]]
  simp

/-- An exception is described at the end of the call. -/
theorem undisturbed_error (hconv : ∀ s ∈ uc, s.point = .convert)
    (hsilent : ∀ s ∈ ud, s.point.silent)
    (hne : um ≠ []) (hmsg : ∀ s ∈ um, s.point = .message late exc)
    (hstack : ∀ s ∈ us, s.point = .stack late exc) :
    Undisturbed (uc ++ (ud ++ (um ++ us))) ↔ messageOf um = [] ∨ Sparing us := by
  have hsilent' : ∀ s ∈ ud, (Point.isMessage s.point = false ∧
    Point.afterWrite s.point = false) := by
    intro s hs
    have h := hsilent s hs
    simp only [Point.silent, Bool.and_eq_true, Bool.not_eq_true'] at h
    exact ⟨h.1.1, h.2⟩
  have hany : (uc ++ (ud ++ (um ++ us))).any (fun s => s.point.isMessage) = true := by
    obtain ⟨s, hs⟩ := List.exists_mem_of_ne_nil _ hne
    simp only [List.any_eq_true, List.mem_append]
    exact ⟨s, .inr (.inr (.inl hs)), by simp [hmsg s hs, Point.isMessage]⟩
  simp only [Undisturbed, payload, hany, List.filter_append]
  rw [filter_none (q := (·.point.isMessage)) fun s hs => by simp [hconv s hs, Point.isMessage],
    filter_none (q := (·.point.isMessage)) fun s hs => (hsilent' s hs).1,
    filter_all (q := (·.point.isMessage)) fun s hs => by simp [hmsg s hs, Point.isMessage],
    filter_none (q := (·.point.isMessage)) fun s hs => by simp [hstack s hs, Point.isMessage],
    filter_none (q := (·.point.afterWrite)) fun s hs => by simp [hconv s hs, Point.afterWrite],
    filter_none (q := (·.point.afterWrite)) fun s hs => (hsilent' s hs).2,
    filter_none (q := (·.point.afterWrite)) fun s hs => by simp [hmsg s hs, Point.afterWrite],
    filter_all (q := (·.point.afterWrite)) fun s hs => by simp [hstack s hs, Point.afterWrite]]
  simp

/-- What is read through `*out` is the text of this verdict. -/
def Out.Owns (out : Out) (verdict : Verdict) (ss : List Step) (w : World) : Prop :=
  out.Intact w (verdict.text ss) (verdict.stack ss)

theorem silent_points {pt : Point} (h : pt.silent) :
    (∀ exc, pt.tells exc = false ∧ pt.traces exc = false) ∧ pt ≠ .convert := by
  cases pt <;> simp_all [Point.silent, Point.isMessage, Point.tells, Point.traces, Point.afterWrite]

/-- Silent steps in front leave the texts alone. -/
theorem own_append (verdict : Verdict) (h : ∀ s ∈ us, s.point.silent) :
    verdict.text (us ++ ss) = verdict.text ss ∧ verdict.stack (us ++ ss) = verdict.stack ss := by
  cases verdict with
  | exception c =>
    simp only [Verdict.text, Verdict.stack, List.filter_append]
    rw [filter_none (q := (·.point.tells c.exc)) fun s hs => ((silent_points (h s hs)).1 _).1,
      filter_none (q := (·.point.traces c.exc)) fun s hs => ((silent_points (h s hs)).1 _).2]
    exact ⟨rfl, rfl⟩
  | value =>
    simp only [Verdict.text, Verdict.stack, List.filter_append]
    rw [filter_none (q := fun s => s.point = .convert) fun s hs => by simp [(silent_points (h s hs)).2]]
    exact ⟨rfl, trivial⟩

theorem own_value (x : JSValue) (xref : Bool) (o : Out) (hconv : ∀ s ∈ uc, s.point = .convert)
    (hsilent : ∀ s ∈ ud, s.point.silent) (hreport : ∀ s ∈ ur, s.point = .report true) :
    (Verdict.value x xref o).text (uc ++ (ud ++ ur)) = convertOf uc := by
  simp only [Verdict.text, List.filter_append]
  rw [filter_all (q := fun s => s.point = .convert) fun s hs => by simp [hconv s hs],
    filter_none (q := fun s => s.point = .convert) fun s hs => by simp [(silent_points (hsilent s hs)).2],
    filter_none (q := fun s => s.point = .convert) fun s hs => by simp [hreport s hs]]
  simp

theorem own_error {c : Captured} (hoom : c.oom = false) (hconv : ∀ s ∈ uc, s.point = .convert)
    (hsilent : ∀ s ∈ ud, s.point.silent)
    (hmsg : ∀ s ∈ um, s.point = .message late c.exc)
    (hstack : ∀ s ∈ us, s.point = .stack late c.exc) :
    (Verdict.exception c).text (uc ++ (ud ++ (um ++ us))) = messageOf um ∧
      (Verdict.exception c).stack (uc ++ (ud ++ (um ++ us))) = stackOf us := by
  simp only [Verdict.text, Verdict.stack, hoom, List.filter_append]
  rw [filter_none (q := (·.point.tells c.exc)) fun s hs => by simp [hconv s hs, Point.tells],
    filter_none (q := (·.point.tells c.exc)) fun s hs => ((silent_points (hsilent s hs)).1 _).1,
    filter_all (q := (·.point.tells c.exc)) fun s hs => by simp [hmsg s hs, Point.tells],
    filter_none (q := (·.point.tells c.exc)) fun s hs => by simp [hstack s hs, Point.tells],
    filter_none (q := (·.point.traces c.exc)) fun s hs => by simp [hconv s hs, Point.traces],
    filter_none (q := (·.point.traces c.exc)) fun s hs => ((silent_points (hsilent s hs)).1 _).2,
    filter_none (q := (·.point.traces c.exc)) fun s hs => by simp [hmsg s hs, Point.traces],
    filter_all (q := (·.point.traces c.exc)) fun s hs => by simp [hstack s hs, Point.traces]]
  simp

-- ---------------------------------------------------------------------------
-- What the caller reads
-- ---------------------------------------------------------------------------

theorem ofDrain_silent {pt : Point} (h : pt.ofDrain late) : pt.silent := by
  rcases h with rfl | rfl <;> simp [Point.silent, Point.isMessage, Point.afterWrite]

theorem ofReport_silent {pt : Point} (h : pt.ofReport) : pt.silent := by
  rcases h with rfl | rfl <;> decide

/-- However far the call came before it failed. -/
theorem describe_intact {c : Captured}
    (h : describe .own late c.exc c.oom w ss = some (out, w', rest)) :
    ∃ used, ss = used ++ rest ∧ ∀ uc ud, (∀ s ∈ uc, s.point = .convert) →
      (∀ s ∈ ud, s.point.silent) → (out.Owns (.exception c) (uc ++ (ud ++ used)) w' ↔
        Undisturbed (uc ++ (ud ++ used))) := by
  unfold describe at h
  split at h
  next hoom =>
    obtain ⟨rfl, hintact⟩ := oomToOut_intact h
    refine ⟨[], rfl, fun uc ud hconv hsilent => ?_⟩
    rw [undisturbed_value hconv hsilent (by simp)]
    refine iff_of_true ?_ (.inr (by simp [Sparing]))
    simpa [Out.Owns, Verdict.text, Verdict.stack, hoom] using hintact
  next hoom =>
    obtain ⟨um, us, rfl, hne, hmsg, hstack, hiff⟩ := errorToOut_intact h
    refine ⟨um ++ us, by simp, fun uc ud hconv hsilent => ?_⟩
    obtain ⟨htext, hown⟩ := own_error (by simpa using hoom) hconv hsilent hmsg hstack
    rw [undisturbed_error hconv hsilent hne hmsg hstack, Out.Owns, htext, hown, hiff]

/-- The second drain cannot reach a payload that is set aside, the report can. -/
theorem lateWork_intact (hconv : ∀ s ∈ uc, s.point = .convert) (hfresh : Converts uc out w)
    (h : lateWork .own out w ss = some (r, w', rest)) :
    ∃ used failed w₁ ss₁, ss = used ++ rest ∧ LateDrain w ss failed w₁ ss₁ ∧
      ∀ verdict, (if failed then verdict = .exception w₁.captured else ∃ x xref o, verdict = .value x xref o) →
        (r.2.Owns verdict (uc ++ used) w' ↔ Undisturbed (uc ++ used)) := by
  simp only [lateWork, Recorded.get_bind, Recorded.modify_bind] at h
  obtain ⟨failed, w₁, ss₁, hdrain, hthen⟩ := Recorded.bind_eq_some.mp h
  obtain ⟨ud, rfl, hpts, -⟩ := drainJobs_spec hdrain
  have hsilent : ∀ s ∈ ud, s.point.silent := fun s hs => ofDrain_silent (hpts s hs)
  rw [Recorded.modify_bind] at hthen
  cases failed with
  | true =>
    obtain ⟨out', w₂, ss₂, hout, hpure⟩ := Recorded.bind_eq_some.mp hthen
    obtain ⟨rfl, rfl, rfl⟩ := Recorded.pure_eq_some.mp hpure
    rw [exceptionToOut_run] at hout
    obtain ⟨used, rfl, hiff⟩ := describe_intact (c := World.captured { w₁ with outStr := w.outStr }) hout
    refine ⟨ud ++ used, true, w₁, _, by simp, hdrain, ?_⟩
    rintro _ rfl
    exact hiff uc ud hconv hsilent
  | false =>
    obtain ⟨_, w₂, ss₂, hreport, hpure⟩ := Recorded.bind_eq_some.mp hthen
    obtain ⟨rfl, rfl, rfl⟩ := Recorded.pure_eq_some.mp hpure
    have hkeeps : Keeps (fun w us w' => Enqueues (· = .report true) w us w' ∧ Spares w us w')
        (reportRejections .own true) :=
      .and (reportRejections_keeps (enqueues_loose _) rfl)
        (reportRejections_keeps (spares_loose fun _ => True) trivial)
    obtain ⟨ur, rfl, henq, hspares⟩ := hkeeps.elim hreport
    refine ⟨ud ++ ur, false, w₁, _, by simp, hdrain, ?_⟩
    rintro _ ⟨x, xref, o, rfl⟩
    rw [undisturbed_value hconv hsilent henq.points, Out.Owns, own_value x xref o hconv hsilent henq.points]
    obtain ⟨hstack, ⟨hstr, hnil⟩ | ⟨p, hstr, hname, b, hbuf, hptr⟩⟩ := hfresh
    · refine iff_of_true ⟨?_, ?_⟩ (.inl hnil)
      · rw [hstr, hnil]
        exact designates_none _
      · rw [hstack]
        exact designates_none _
    · -- `e->out_str` is again the buffer that was set aside
      have hfresh' : World.Fresh { w₁ with outStr := w.outStr } p (convertOf uc) := by
        refine ⟨b, ?_, ?_⟩
        · simpa [hname, World.buf] using hbuf
        · simpa [hname, World.buf] using hptr
      rw [← hfresh'.designates_iff hname hspares, ← hstr]
      exact ⟨Out.Intact.str, fun h => ⟨h, hstack ▸ designates_none _⟩⟩

theorem writeOut_intact (hc : Chosen .own outermost refObjects unwrap module v w ss w₁ ss₁ o)
    (h : writeOut .own outermost o w₁ ss₁ = some (r, w', rest)) :
    ∃ used verdict, ss₁ = used ++ rest ∧
      Selects .own outermost refObjects unwrap module v w ss verdict ∧
      (r.2.Owns verdict used w' ↔ Undisturbed used) := by
  cases o with
  | failed exc oom =>
    obtain ⟨out, w₂, ss₂, hout, hpure⟩ := Recorded.bind_eq_some.mp h
    obtain ⟨rfl, rfl, rfl⟩ := Recorded.pure_eq_some.mp hpure
    obtain ⟨used, rfl, hiff⟩ := describe_intact (c := ⟨exc, oom⟩) hout
    exact ⟨used, _, rfl, hc, hiff [] [] (by simp) (by simp)⟩
  | value x xref =>
    obtain ⟨body, rfl, wb, sb, wc, sc, hd, hu, hreport⟩ := hc
    obtain ⟨converted, w₂, ss₂, hvalue, hthen⟩ := Recorded.bind_eq_some.mp h
    have hto : ConvertsTo .own outermost refObjects unwrap module body w ss x xref converted w₂ ss₂ :=
      ⟨_, _, _, _, _, _, hd, hu, hreport, hvalue⟩
    cases converted with
    | none =>
      obtain ⟨uc, rfl, hacts⟩ := (valueToOut_acts (p := (· = .convert)) rfl).elim hvalue
      obtain ⟨out, w₃, ss₃, hout, hpure⟩ := Recorded.bind_eq_some.mp hthen
      obtain ⟨rfl, rfl, rfl⟩ := Recorded.pure_eq_some.mp hpure
      rw [exceptionToOut_run] at hout
      obtain ⟨used, rfl, hiff⟩ := describe_intact (c := w₂.captured) hout
      exact ⟨uc ++ used, _, by simp, .convert hto, by simpa using hiff uc [] hacts.points (by simp)⟩
    | some out =>
      obtain ⟨uc, rfl, hconv, hfresh⟩ := valueToOut_converts hvalue
      simp only [Recorded.get_bind] at hthen
      split at hthen
      next hq =>
        obtain ⟨used, failed, w₃, ss₃, rfl, hl, hiff⟩ := lateWork_intact hconv hfresh hthen
        cases failed with
        | true => exact ⟨uc ++ used, _, by simp, .late hto hq.1 hq.2 hl, hiff _ rfl⟩
        | false =>
          exact ⟨uc ++ used, _, by simp, .value hto fun _ => ⟨w₃, ss₃, hl⟩, hiff _ ⟨x, xref, out, rfl⟩⟩
      next hq =>
        obtain ⟨rfl, rfl, rfl⟩ := Recorded.pure_eq_some.mp hthen
        refine ⟨uc, _, rfl, .value hto fun hq' => absurd hq' hq, iff_of_true ?_ ?_⟩
        · have hown : (Verdict.value x xref out).text (uc ++ ([] ++ [])) = convertOf uc :=
            own_value x xref out hconv (by simp) (by simp)
          simp only [List.append_nil] at hown
          obtain ⟨hstack, ⟨hstr, hnil⟩ | ⟨p, hstr, -, hfresh⟩⟩ := hfresh
          · rw [Out.Owns, hown, hnil]
            exact ⟨hstr ▸ designates_none _, hstack ▸ designates_none _⟩
          · rw [Out.Owns, hown]
            exact ⟨hstr ▸ hfresh.designates, hstack ▸ designates_none _⟩
        · have hnone : Undisturbed (uc ++ ([] ++ [])) ↔ _ :=
            undisturbed_value hconv (by simp) (by simp)
          simpa using hnone.mpr (.inr (by simp [Sparing]))

/-- The outcome that `finish` selects for this call. -/
def Call.Selects (who : Writer) (c : Call) (w : World) (ss : List Step) (verdict : Verdict) : Prop :=
  ∃ v w₁ ss₁, engine .body w.runBegin ss = some (v, w₁, ss₁) ∧
    QuickJsKmp.Selects who (runBegin w.state).2 c.flags c.entry.unwraps c.hasModule v w₁ ss₁ verdict

/-- What a call hands out is the text of the outcome that was selected for it, at any
depth, exactly when this text is empty or no call nested after it was written leaves a
payload of its own. -/
theorem payload_intact_iff (h : kmpjsCall .own c w ss = some (r, w', [])) :
    ∃ verdict, c.Selects .own w ss verdict ∧
      (r.2.Intact w' (verdict.text ss) (verdict.stack ss) ↔ Undisturbed ss) := by
  obtain ⟨s, ss₁, v, w₁, out, rfl, hbody, hengine, hfinish, hretag⟩ := kmpjsCall_cases h
  obtain ⟨o, w₂, w₃, u₁, u₂, ss₂, hprepares, rfl, hdrain, hreport, -, hwrite, rfl⟩ := finish_cases hfinish
  obtain ⟨used, verdict, hss, hsel, hiff⟩ := writeOut_intact (finish_chooses hprepares) hwrite
  obtain rfl : ss₂ = used := by simpa using hss
  refine ⟨verdict, ⟨v, w₁, _, hengine, hsel⟩, ?_⟩
  have hsilent : ∀ t ∈ s :: (u₁ ++ u₂), t.point.silent := by
    intro t ht
    rcases List.mem_cons.mp ht with rfl | ht
    · rw [hbody]
      rfl
    · rcases List.mem_append.mp ht with ht | ht
      · exact ofDrain_silent (hdrain t ht)
      · exact ofReport_silent (hreport t ht)
  have hrecord : s :: (u₁ ++ (u₂ ++ ss₂)) = (s :: (u₁ ++ u₂)) ++ ss₂ := by simp
  obtain ⟨htext, hown⟩ : verdict.text (s :: (u₁ ++ u₂) ++ ss₂) = verdict.text ss₂ ∧
      verdict.stack (s :: (u₁ ++ u₂) ++ ss₂) = verdict.stack ss₂ := own_append verdict hsilent
  rw [hrecord, undisturbed_append hsilent, ← hiff, Out.Owns, htext, hown]
  obtain ⟨hstr, hstack⟩ := retag_payload c r.1 out
  rw [hretag]
  refine ⟨fun h => ⟨?_, ?_⟩, fun h => ⟨?_, ?_⟩⟩
  · exact hstr ▸ h.str
  · exact hstack ▸ h.stack
  · exact hstr ▸ h.str
  · exact hstack ▸ h.stack

/-- A result whose `toJSON` queues a job that calls the engine: the payload is
set aside while the job runs. -/
def nestedInJob : List Step :=
  [⟨.body, [], .value (.object 5 .plain)⟩, ⟨.convert, [.enqueue], .value (.string [49])⟩,
    ⟨.convert, [], .text [49]⟩, ⟨.drain true, [.write false [50, 51]], .value .undefined⟩]

theorem payload_intact_iff_setAside :
    ∃ out w' verdict, kmpjsCall .own ⟨.eval, false, false⟩ .init nestedInJob =
        some ((false, out), w', []) ∧
      Call.Selects .own ⟨.eval, false, false⟩ .init nestedInJob verdict ∧
      (out.Intact w' (verdict.text nestedInJob) (verdict.stack nestedInJob) ↔
        Undisturbed nestedInJob) := by
  obtain ⟨out, w', h⟩ : ∃ out w', kmpjsCall .own ⟨.eval, false, false⟩ .init nestedInJob =
      some ((false, out), w', []) := ⟨_, _, rfl⟩
  obtain ⟨verdict, hsel, hiff⟩ := payload_intact_iff h
  exact ⟨out, w', verdict, h, hsel, hiff⟩

/-- An error whose `stack` accessor calls a host function that evaluates: the
nested result lands in the buffer that holds the message. -/
def nestedInStack : List Step :=
  [⟨.body, [], .threw (.object 5 .error)⟩,
    ⟨.message false (.object 5 .error), [], .value (.string [109])⟩,
    ⟨.message false (.object 5 .error), [], .text [109]⟩,
    ⟨.stack false (.object 5 .error), [.write false [120]], .value .undefined⟩]

theorem stack_accessor_overwrites_message :
    ¬ ∀ c w ss r w' verdict, Entry.finishes (Call.entry c) →
      kmpjsCall .own c w ss = some (r, w', []) → c.Selects .own w ss verdict →
      r.2.Intact w' (verdict.text ss) (verdict.stack ss) := by
  intro h
  have hown : Call.Selects .own ⟨.eval, false, false⟩ .init nestedInStack
      (.exception ⟨.object 5 .error, false⟩) := ⟨none, _, _, rfl, .own⟩
  have hintact := (h ⟨.eval, false, false⟩ .init nestedInStack _ _ _ rfl rfl hown).str
  exact absurd hintact (by decide)

end QuickJsKmp
