import QuickJsKmp.Finish

/-!
# What the pieces of `finish` do to the shared state

Each piece reads steps of its own points only. Between the steps it touches
neither the job queue nor the tracked rejections, so both follow the record;
the two loops that empty them are the exceptions. Beside its own writes it
leaves `e->out_str` to the record as well.
-/

namespace QuickJsKmp

open Recorded (Prog Keeps Composes)

-- ---------------------------------------------------------------------------
-- Effects, one part of the state at a time
-- ---------------------------------------------------------------------------

def trackEffect (rejected : List (ℕ × JSValue)) : Effect → List (ℕ × JSValue)
  | .track promise reason isHandled => kmpRejectionTracker rejected promise reason isHandled
  | _ => rejected

def writeEffect (b : Buf) : Effect → Buf
  | .write false bytes => b.write (cells .nested bytes)
  | _ => b

theorem perform_jobs (w : World) (es : List Effect) :
    (w.perform es).jobs = w.jobs + es.count .enqueue := by
  induction es generalizing w with
  | nil => rfl
  | cons e es ih =>
    simp only [World.perform, List.foldl_cons] at ih ⊢
    rw [ih]
    cases e with
    | enqueue => simp [World.apply]; omega
    | write stack => cases stack <;> simp [World.apply]
    | _ => simp [World.apply]

theorem perform_rejected (w : World) (es : List Effect) :
    (w.perform es).rejected = es.foldl trackEffect w.rejected := by
  refine (List.foldl_hom World.rejected fun w e => ?_).symm
  cases e with
  | write stack => cases stack <;> rfl
  | _ => rfl

theorem perform_outStr (w : World) (es : List Effect) :
    (w.perform es).outStr = es.foldl writeEffect w.outStr := by
  refine (List.foldl_hom World.outStr fun w e => ?_).symm
  cases e with
  | write stack => cases stack <;> rfl
  | _ => rfl

-- ---------------------------------------------------------------------------
-- The relations that the pieces keep
-- ---------------------------------------------------------------------------

/-- The jobs that the steps enqueue. -/
def enqueued (ss : List Step) : ℕ := (ss.map fun s => s.effects.count .enqueue).sum

/-- What the steps make of the tracked rejections. -/
def tracked (ss : List Step) (rejected : List (ℕ × JSValue)) : List (ℕ × JSValue) :=
  ss.foldl (fun l s => s.effects.foldl trackEffect l) rejected

/-- What the steps make of `e->out_str`. -/
def overwritten (ss : List Step) (b : Buf) : Buf :=
  ss.foldl (fun b s => s.effects.foldl writeEffect b) b

theorem enqueued_append (ss ss' : List Step) :
    enqueued (ss ++ ss') = enqueued ss + enqueued ss' := by
  simp [enqueued]

theorem tracked_append (ss ss' : List Step) (l : List (ℕ × JSValue)) :
    tracked (ss ++ ss') l = tracked ss' (tracked ss l) := by
  simp [tracked]

theorem overwritten_append (ss ss' : List Step) (b : Buf) :
    overwritten (ss ++ ss') b = overwritten ss' (overwritten ss b) := by
  simp [overwritten]

/-- The steps are of these points, and the queue and the rejections follow them. -/
structure Acts (p : Point → Prop) (w : World) (ss : List Step) (w' : World) : Prop where
  points : ∀ s ∈ ss, p s.point
  jobs : w'.jobs = w.jobs + enqueued ss
  rejected : w'.rejected = tracked ss w.rejected

/-- The call writes nothing of its own into `e->out_str`. -/
def Spares (w : World) (ss : List Step) (w' : World) : Prop :=
  w'.outStr = overwritten ss w.outStr

/-- What the pieces change themselves between the steps, their writes apart. -/
inductive Own (w : World) : World → Prop
  | pend (exc : Option JSValue) : Own w { w with pending := exc }
  | took : Own w { w with pending := none, oom := false }
  | slot (v : JSValue) : Own w { w with slots := (w.slots.slotNew v true).1 }

/-- A relation that every call at these points keeps, and every such change. -/
structure Passive (p : Point → Prop) (R : World → List Step → World → Prop) : Prop where
  composes : Composes R
  step : ∀ {s w}, p s.point → R w [s] (w.perform s.effects)
  own : ∀ {w w'}, Own w w' → R w [] w'

theorem acts_passive (p : Point → Prop) : Passive p (Acts p) where
  composes := {
    refl := fun _ => ⟨by simp, by simp [enqueued], rfl⟩
    trans := by
      intro s t u es es' h h'
      refine ⟨?_, ?_, ?_⟩
      · intro x hx
        exact (List.mem_append.mp hx).elim (h.points x) (h'.points x)
      · rw [h'.jobs, h.jobs, enqueued_append, Nat.add_assoc]
      · rw [h'.rejected, h.rejected, tracked_append] }
  step := by
    intro s w hp
    refine ⟨by simpa using hp, ?_, ?_⟩
    · simp [perform_jobs, enqueued]
    · simp [perform_rejected, tracked]
  own := by
    rintro w _ (_ | _ | _)
    all_goals exact ⟨by simp, by simp [enqueued], rfl⟩

theorem spares_passive (p : Point → Prop) : Passive p Spares where
  composes := {
    refl := fun _ => rfl
    trans := by
      intro s t u es es' h h'
      simp only [Spares] at *
      rw [h', h, overwritten_append] }
  step := by
    intro s w _
    simp [Spares, perform_outStr, overwritten]
  own := by
    rintro w _ (_ | _ | _)
    all_goals rfl

-- ---------------------------------------------------------------------------
-- The pieces
-- ---------------------------------------------------------------------------

variable {p : Point → Prop} {R : World → List Step → World → Prop}

theorem Passive.threw (hR : Passive p R) (hp : p s.point) (exc : JSValue) :
    R w [s] { w.perform s.effects with pending := some exc } :=
  hR.composes.trans (hR.step hp) (hR.own (.pend _))

theorem engineStep_point (h : engineStep pt s w = some (r, w')) : s.point = pt := by
  simp only [engineStep] at h
  split at h
  · assumption
  · cases h

theorem engine_keeps (hR : Passive p R) (hp : p pt) : Keeps R (engine pt) := by
  refine Keeps.next fun s w r w' h => ?_
  obtain rfl := engineStep_point h
  simp only [engineStep, if_true] at h
  split at h
  · cases h
    exact hR.step hp
  · cases h
    exact hR.threw hp _
  · cases h

theorem lend_keeps (hR : Passive p R) (hp : p pt) : Keeps R (lend pt) := by
  refine Keeps.next fun s w r w' h => ?_
  split at h
  · rename_i hpt
    obtain ⟨rfl, -⟩ := hpt
    split at h
    · cases h
      exact hR.step hp
    · cases h
      exact hR.threw hp _
    · cases h
  · cases h

theorem host_keeps (hR : Passive p R) (hp : p pt) : Keeps R (host pt) := by
  refine Keeps.next fun s w r w' h => ?_
  split at h
  · rename_i hpt
    obtain ⟨rfl, -⟩ := hpt
    cases h
    exact hR.step hp
  · cases h

/-- Its own writes are the call's business as far as jobs and rejections go. -/
theorem write_acts : Keeps (Acts p) (write who name bytes) := by
  refine Keeps.modify fun w => ⟨by simp, ?_, ?_⟩
  · cases name <;> simp [World.setBuf, enqueued]
  · cases name <;> rfl

theorem publishText_keeps (hR : Passive p R) (hw : Keeps R (write who name bytes)) :
    Keeps R (publishText who name bytes) :=
  .bind hR.composes hw fun _ =>
    .bind hR.composes (.get hR.composes) fun _ => .pure hR.composes _

theorem clearException_keeps (hR : Passive p R) : Keeps R clearException :=
  .modify fun _ => hR.own (.pend none)

theorem jsThrow_keeps (hR : Passive p R) : Keeps R (jsThrow exc) :=
  .modify fun _ => hR.own (.pend _)

theorem slotNew_keeps (hR : Passive p R) : Keeps R (slotNew v) := by
  intro w ss h w' rest hrun
  cases hrun
  exact ⟨[], rfl, hR.own (.slot v)⟩

theorem takeException_keeps (hR : Passive p R) : Keeps R takeException :=
  .bind hR.composes (.get hR.composes) fun _ =>
    .bind hR.composes (.modify fun _ => hR.own .took) fun _ => .pure hR.composes _

theorem toCStringLen_keeps (hR : Passive p R) (hp : p pt) : Keeps R (toCStringLen pt v) := by
  refine .bind hR.composes (lend_keeps hR hp) fun t => ?_
  cases t with
  | none => exact .pure hR.composes _
  | some t => exact .ite (.pure hR.composes _) .fail

theorem copyJsString_keeps (hR : Passive p R) (hp : p pt)
    (hw : ∀ bytes, Keeps R (write who name bytes)) : Keeps R (copyJsString who pt v name) := by
  refine .bind hR.composes (toCStringLen_keeps hR hp) fun t => ?_
  cases t with
  | none => exact .pure hR.composes _
  | some t =>
    exact .bind hR.composes (publishText_keeps hR (hw t)) fun _ => .pure hR.composes _

theorem stringOf_keeps (hR : Passive p R) : Keeps R (stringOf v r) := by
  unfold stringOf
  split
  · exact .pure hR.composes _
  · split
    · exact .ite (.pure hR.composes _) .fail
    · exact .pure hR.composes _
  · exact .fail

theorem copiedText_keeps (hR : Passive p R) (hp : p pt) : Keeps R (copiedText pt r) := by
  have hclear : Keeps R (do clearException; pure unknownException : M Bytes) :=
    .bind hR.composes (clearException_keeps hR) fun _ => .pure hR.composes _
  cases r with
  | none => exact hclear
  | some s =>
    refine .bind hR.composes (toCStringLen_keeps hR hp) fun t => ?_
    cases t with
    | none => exact hclear
    | some t => exact .pure hR.composes _

theorem messageText_keeps (hR : Passive p R) (hp : p pt) : Keeps R (messageText pt exc) :=
  .bind hR.composes (.bind hR.composes (engine_keeps hR hp) fun _ => stringOf_keeps hR)
    fun _ => copiedText_keeps hR hp

theorem stackToOut_keeps (hR : Passive p R) (hp : p sink.stack)
    (hw : ∀ bytes, Keeps R (write who sink.stackStr bytes)) : Keeps R (stackToOut who sink) := by
  refine .bind hR.composes (engine_keeps hR hp) fun r => ?_
  split
  · exact .bind hR.composes (clearException_keeps hR) fun _ => .pure hR.composes _
  · exact copyJsString_keeps hR hp hw
  · exact .pure hR.composes _

theorem publishError_keeps (hR : Passive p R) (hs : p sink.stack)
    (hw : ∀ bytes, Keeps R (write who sink.str bytes))
    (hws : ∀ bytes, Keeps R (write who sink.stackStr bytes)) :
    Keeps R (publishError who sink exc text) := by
  refine .bind hR.composes (publishText_keeps hR (hw text)) fun _ => ?_
  refine .ite ?_ (.pure hR.composes _)
  exact .bind hR.composes (stackToOut_keeps hR hs hws) fun _ => .pure hR.composes _

theorem errorToOut_keeps (hR : Passive p R) (hm : p sink.message) (hs : p sink.stack)
    (hw : ∀ bytes, Keeps R (write who sink.str bytes))
    (hws : ∀ bytes, Keeps R (write who sink.stackStr bytes)) :
    Keeps R (errorToOut who sink exc) :=
  .bind hR.composes (messageText_keeps hR hm) fun _ => publishError_keeps hR hs hw hws

/-- The points of the call's own exception. -/
def Point.ofException (late : Bool) (pt : Point) : Prop :=
  (∃ exc, pt = .message late exc) ∨ ∃ exc, pt = .stack late exc

theorem ofException_message (exc : JSValue) : Point.ofException late (.message late exc) :=
  .inl ⟨exc, rfl⟩

theorem ofException_stack (exc : JSValue) : Point.ofException late (.stack late exc) :=
  .inr ⟨exc, rfl⟩

/-- The writes of a call's payload. -/
structure Writes (R : World → List Step → World → Prop) (who : Writer) : Prop where
  str : ∀ bytes, Keeps R (write who .outStr bytes)
  stack : ∀ bytes, Keeps R (write who .outStack bytes)

theorem acts_writes (p : Point → Prop) (who : Writer) : Writes (Acts p) who :=
  ⟨fun _ => write_acts, fun _ => write_acts⟩

theorem describe_keeps (hR : Passive p R) (hw : Writes R who) (hm : p (.message late exc))
    (hs : p (.stack late exc)) : Keeps R (describe who late exc oom) := by
  refine .ite ?_ ?_
  · exact .bind hR.composes (publishText_keeps hR (hw.str _)) fun _ => .pure hR.composes _
  · exact errorToOut_keeps hR hm hs hw.str hw.stack

theorem exceptionToOut_run (who : Writer) (late : Bool) (w : World) (ss : List Step) :
    exceptionToOut who late w ss =
      describe who late (w.pending.getD .undefined)
        (decide (w.pending.getD .undefined = .null ∧ w.oom))
        { w with pending := none, oom := false } ss := rfl

theorem exceptionToOut_keeps (hR : Passive p R) (hw : Writes R who)
    (hm : ∀ exc, p (.message late exc)) (hs : ∀ exc, p (.stack late exc)) :
    Keeps R (exceptionToOut who late) :=
  .bind hR.composes (takeException_keeps hR) fun _ => describe_keeps hR hw (hm _) (hs _)

theorem textToOut_keeps (hR : Passive p R) (hw : Writes R who) (hc : p .convert) :
    Keeps R (textToOut who tag v) := by
  refine .bind hR.composes (copyJsString_keeps hR hc hw.str) fun r => ?_
  cases r <;> exact .pure hR.composes _

theorem objectKind_keeps (hR : Passive p R) : Keeps R (objectKind v) := by
  refine .bind hR.composes ?_ fun _ => .pure hR.composes _
  unfold isArray
  split
  · exact .pure hR.composes _
  · exact .bind hR.composes (jsThrow_keeps hR) fun _ => .pure hR.composes _
  · exact .bind hR.composes (jsThrow_keeps hR) fun _ => .pure hR.composes _
  · exact .pure hR.composes _

theorem refToOut_keeps (hR : Passive p R) : Keeps R (refToOut v) := by
  refine .bind hR.composes (objectKind_keeps hR) fun kind => ?_
  refine .bind hR.composes (slotNew_keeps hR) fun h => .ite ?_ (.pure hR.composes _)
  exact .bind hR.composes (jsThrow_keeps hR) fun _ => .pure hR.composes _

theorem binaryToOut_keeps (hR : Passive p R) (hw : Writes R who) (hc : p .convert) :
    Keeps R (binaryToOut who) := by
  refine .bind hR.composes (lend_keeps hR hc) fun r => ?_
  cases r with
  | none => exact .pure hR.composes _
  | some bytes =>
    exact .bind hR.composes (publishText_keeps hR (hw.str bytes)) fun _ => .pure hR.composes _

theorem jsonToOut_keeps (hR : Passive p R) (hw : Writes R who) (hc : p .convert) :
    Keeps R (jsonToOut who) := by
  refine .bind hR.composes (engine_keeps hR hc) fun r => ?_
  split
  · exact .pure hR.composes _
  · exact .pure hR.composes _
  · exact textToOut_keeps hR hw hc

theorem valueToOut_keeps (hR : Passive p R) (hw : Writes R who) (hc : p .convert) :
    Keeps R (valueToOut who v refObjects) := by
  have hpure : ∀ r : Option Out, Keeps R (pure r : M (Option Out)) :=
    fun r => .pure hR.composes r
  cases v with
  | undefined | null | bool | number => exact hpure _
  | string | bigInt => exact textToOut_keeps hR hw hc
  | symbol => exact .ite (refToOut_keeps hR) (jsonToOut_keeps hR hw hc)
  | object ptr cls =>
    refine .ite (refToOut_keeps hR) (.ite (hpure _) ?_)
    cases cls with
    | binary => exact binaryToOut_keeps hR hw hc
    | _ => exact jsonToOut_keeps hR hw hc

theorem valueToOut_acts (hc : p .convert) : Keeps (Acts p) (valueToOut who v refObjects) :=
  valueToOut_keeps (acts_passive p) (acts_writes p who) hc

theorem describe_acts (hm : p (.message late exc)) (hs : p (.stack late exc)) :
    Keeps (Acts p) (describe who late exc oom) :=
  describe_keeps (acts_passive p) (acts_writes p who) hm hs

theorem exceptionToOut_acts (hm : ∀ exc, p (.message late exc)) (hs : ∀ exc, p (.stack late exc)) :
    Keeps (Acts p) (exceptionToOut who late) :=
  exceptionToOut_keeps (acts_passive p) (acts_writes p who) hm hs

-- ---------------------------------------------------------------------------
-- The two loops
-- ---------------------------------------------------------------------------

def Point.ofDrain (late : Bool) (pt : Point) : Prop := pt = .drain late ∨ pt = .discard late

/-- How a round of the loop ends. -/
inductive DrainRound (late : Bool) (w : World) : List Step → Bool × World × List Step → Prop
  | interrupted (ss : List Step) (state : w.state = .interrupted) :
    DrainRound late w ss (true, { w with pending := some shimError }, ss)
  | empty (ss : List Step) (jobs : w.jobs = 0) : DrainRound late w ss (false, w, ss)
  | next {s : Step} {ss : List Step} {a : JSValue} {w₁ : World} {r : Bool × World × List Step}
    (job : executePendingJob (.drain late) s w = some (some a, w₁))
    (more : drainLoop late w₁ ss = some r) : DrainRound late w (s :: ss) r
  | failed {s : Step} (ss : List Step) {w₁ : World}
    (job : executePendingJob (.drain late) s w = some (none, w₁)) :
    DrainRound late w (s :: ss) (true, w₁, ss)

theorem drainLoop_cases (h : drainLoop late w ss = some r) : DrainRound late w ss r := by
  cases ss with
  | nil =>
    simp only [drainLoop] at h
    split at h
    · cases h
      exact .interrupted [] ‹_›
    · obtain ⟨hjobs, heq⟩ := Option.ite_none_right_eq_some.mp h
      exact Option.some.inj heq ▸ .empty [] hjobs
  | cons s ss =>
    simp only [drainLoop] at h
    split at h
    · cases h
      exact .interrupted (s :: ss) ‹_›
    split at h
    · cases h
      exact .empty (s :: ss) ‹_›
    split at h
    · exact .next ‹_› h
    · cases h
      exact .failed ss ‹_›
    · cases h

/-- A drain that reads no step stopped at an interrupt or had nothing to do. -/
theorem drainLoop_spec (h : drainLoop late w ss = some (failed, w', rest)) :
    ∃ used, ss = used ++ rest ∧ (∀ s ∈ used, s.point = .drain late) ∧
      (failed = false → w'.jobs = 0) ∧
      (used = [] → failed = true ∧ w'.pending = some shimError ∧ w'.jobs = w.jobs ∨
        failed = false ∧ w' = w) := by
  induction ss generalizing w with
  | nil =>
    cases drainLoop_cases h with
    | interrupted => exact ⟨[], rfl, by simp, by simp, by simp⟩
    | empty _ jobs => exact ⟨[], rfl, by simp, fun _ => jobs, by simp⟩
  | cons s ss ih =>
    cases drainLoop_cases h with
    | interrupted => exact ⟨[], rfl, by simp, by simp, by simp⟩
    | empty _ jobs => exact ⟨[], rfl, by simp, fun _ => jobs, by simp⟩
    | next job more =>
      obtain ⟨used, rfl, hpts, hjobs, -⟩ := ih more
      refine ⟨s :: used, rfl, ?_, hjobs, by simp⟩
      simpa [engineStep_point job] using hpts
    | failed _ job => exact ⟨[s], rfl, by simp [engineStep_point job], by simp, by simp⟩

theorem discardLoop_spec (h : discardLoop late w ss = some (u, w', rest)) :
    ∃ used, ss = used ++ rest ∧ (∀ s ∈ used, s.point = .discard late) ∧ w'.jobs = 0 := by
  induction ss generalizing w with
  | nil =>
    simp only [discardLoop] at h
    split at h
    · cases h
      exact ⟨[], rfl, by simp, ‹_›⟩
    · cases h
  | cons s ss ih =>
    simp only [discardLoop] at h
    split at h
    · cases h
      exact ⟨[], rfl, by simp, ‹_›⟩
    · split at h
      · rename_i hjob
        obtain ⟨used, rfl, hpts, hjobs⟩ := ih h
        refine ⟨s :: used, rfl, ?_, hjobs⟩
        simpa [engineStep_point hjob] using hpts
      · cases h

theorem drainJobs_spec (h : drainJobs late w ss = some (failed, w', rest)) :
    ∃ used, ss = used ++ rest ∧ (∀ s ∈ used, s.point.ofDrain late) ∧ w'.jobs = 0 ∧
      (failed = true → w'.rejected = []) ∧
      (used = [] → failed = true ∧ w'.pending = some shimError ∨ failed = false ∧ w' = w) := by
  obtain ⟨f, w₁, ss₁, hloop, h⟩ := Recorded.bind_eq_some.mp h
  obtain ⟨used, rfl, hpts, hjobs, hnone⟩ := drainLoop_spec hloop
  cases f with
  | false =>
    obtain ⟨rfl, rfl, rfl⟩ := Recorded.pure_eq_some.mp h
    refine ⟨used, rfl, fun s hs => .inl (hpts s hs), hjobs rfl, by simp, ?_⟩
    intro hused
    simpa using hnone hused
  | true =>
    simp only [if_true, Recorded.get_bind, clearException, jsThrow, Recorded.modify_bind] at h
    obtain ⟨_, w₂, ss₂, hdiscard, h⟩ := Recorded.bind_eq_some.mp h
    simp only [Recorded.modify_bind] at h
    obtain ⟨rfl, rfl, rfl⟩ := Recorded.pure_eq_some.mp h
    obtain ⟨_, w₃, ss₃, hdloop, hforget⟩ := Recorded.bind_eq_some.mp hdiscard
    obtain ⟨rfl, rfl⟩ := Recorded.modify_eq_some.mp hforget
    obtain ⟨used', rfl, hpts', hjobs'⟩ := discardLoop_spec hdloop
    refine ⟨used ++ used', by simp, ?_, hjobs', fun _ => rfl, ?_⟩
    · intro s hs
      exact (List.mem_append.mp hs).elim (fun h => .inl (hpts s h)) (fun h => .inr (hpts' s h))
    · intro hused
      obtain ⟨hu, -⟩ := List.append_eq_nil_iff.mp hused
      rcases hnone hu with ⟨-, hpend, -⟩ | ⟨hf, -⟩
      · exact .inl ⟨rfl, by simp [hpend]⟩
      · cases hf

/-- As `Acts`, with the rejections left open. -/
structure Enqueues (p : Point → Prop) (w : World) (ss : List Step) (w' : World) : Prop where
  points : ∀ s ∈ ss, p s.point
  jobs : w'.jobs = w.jobs + enqueued ss

theorem enqueues_passive (p : Point → Prop) : Passive p (Enqueues p) where
  composes := {
    refl := fun _ => ⟨by simp, by simp [enqueued]⟩
    trans := by
      intro s t u es es' h h'
      refine ⟨?_, ?_⟩
      · intro x hx
        exact (List.mem_append.mp hx).elim (h.points x) (h'.points x)
      · rw [h'.jobs, h.jobs, enqueued_append, Nat.add_assoc] }
  step := by
    intro s w hp
    exact ⟨by simpa using hp, by simp [perform_jobs, enqueued]⟩
  own := by
    rintro w _ (_ | _ | _)
    all_goals exact ⟨by simp, by simp [enqueued]⟩

/-- A relation that also allows any change to the rest of the state. -/
structure Loose (p : Point → Prop) (R : World → List Step → World → Prop) : Prop
    extends Passive p R where
  rest : ∀ {w w'}, w'.jobs = w.jobs → w'.outStr = w.outStr → R w [] w'

theorem enqueues_loose (p : Point → Prop) : Loose p (Enqueues p) where
  toPassive := enqueues_passive p
  rest := fun hjobs _ => ⟨by simp, by simp [hjobs, enqueued]⟩

theorem spares_loose (p : Point → Prop) : Loose p Spares where
  toPassive := spares_passive p
  rest := fun _ hstr => hstr

theorem write_keeps (hR : Loose p R) (hname : name ≠ .outStr) :
    Keeps R (write who name bytes) := by
  refine Keeps.modify fun w => hR.rest ?_ ?_
  · cases name <;> rfl
  · cases name with
    | outStr => exact absurd rfl hname
    | _ => rfl

theorem reportOne_keeps (hR : Loose p R) (hp : p (.report late)) :
    Keeps R (reportOne who late reason) := by
  have hw : ∀ name bytes, name ≠ .outStr → Keeps R (write who name bytes) :=
    fun _ _ hname => write_keeps hR hname
  refine .bind hR.composes (.modify fun _ => hR.rest rfl rfl) fun _ => ?_
  refine .bind hR.composes ?_ fun out => .bind hR.composes (.get hR.composes) fun w => ?_
  · exact errorToOut_keeps hR.toPassive hp hp (fun _ => hw _ _ (by simp [reportSink]))
      (fun _ => hw _ _ (by simp [reportSink]))
  · refine .ite (host_keeps hR.toPassive hp) (.ite ?_ (.pure hR.composes _))
    exact .bind hR.composes (hw _ _ (by simp)) fun _ => host_keeps hR.toPassive hp

theorem reportLoop_keeps (hR : Loose p R) (hp : p (.report late)) :
    Keeps R (reportLoop who late fuel) := by
  induction fuel with
  | zero =>
    exact .bind hR.composes (.get hR.composes) fun w => .ite (.pure hR.composes _) .fail
  | succ fuel ih =>
    refine .bind hR.composes (.get hR.composes) fun w => ?_
    split
    · exact .pure hR.composes _
    · exact .bind hR.composes (reportOne_keeps hR hp) fun _ => ih

theorem reportRejections_keeps (hR : Loose p R) (hp : p (.report late)) :
    Keeps R (reportRejections who late) :=
  fun w ss u w' rest h => reportLoop_keeps hR hp w ss u w' rest h

theorem reportLoop_empties (h : reportLoop who late fuel w ss = some (u, w', rest)) :
    w'.rejected = [] := by
  induction fuel generalizing w ss with
  | zero =>
    simp only [reportLoop, Recorded.get_bind] at h
    split at h
    · obtain ⟨-, rfl, -⟩ := Recorded.pure_eq_some.mp h
      assumption
    · cases h
  | succ fuel ih =>
    simp only [reportLoop, Recorded.get_bind] at h
    cases hlast : w.rejected.getLast? with
    | none =>
      simp only [hlast] at h
      obtain ⟨-, rfl, -⟩ := Recorded.pure_eq_some.mp h
      exact List.getLast?_eq_none_iff.mp hlast
    | some r =>
      simp only [hlast] at h
      obtain ⟨_, w₁, ss₁, -, h⟩ := Recorded.bind_eq_some.mp h
      exact ih h

theorem reportRejections_empties (h : reportRejections who late w ss = some (u, w', rest)) :
    w'.rejected = [] :=
  reportLoop_empties h

/-- To describe a value is to read at least one step. -/
theorem errorToOut_reads : Recorded.Reads (errorToOut who sink exc) := by
  have hR := acts_passive fun _ => True
  have hmessage : Recorded.Reads (messageText sink.message exc) :=
    .bind_left (.bind_left (.next _) fun _ => stringOf_keeps hR)
      fun _ => copiedText_keeps hR trivial
  exact .bind_left hmessage fun _ =>
    publishError_keeps hR trivial (fun _ => write_acts) (fun _ => write_acts)

theorem reportOne_reads : Recorded.Reads (reportOne who late reason) := by
  have hR := enqueues_loose fun _ => True
  refine .bind_right (R := Enqueues fun _ => True) (.modify fun _ => hR.rest rfl rfl) fun _ => ?_
  refine .bind_left (R := Enqueues fun _ => True) errorToOut_reads fun out => ?_
  refine .bind hR.composes (.get hR.composes) fun w => ?_
  refine .ite (host_keeps hR.toPassive trivial) (.ite ?_ (.pure hR.composes _))
  exact .bind hR.composes (write_keeps hR (by simp)) fun _ =>
    host_keeps hR.toPassive trivial

/-- A report with an entry to report reads a step. -/
theorem reportRejections_reads (h : reportRejections who late w ss = some (u, w', rest))
    (hrej : w.rejected ≠ []) : rest.length < ss.length := by
  obtain ⟨r, hlast⟩ : ∃ r, w.rejected.getLast? = some r :=
    Option.ne_none_iff_exists'.mp fun hnone => hrej (List.getLast?_eq_none_iff.mp hnone)
  simp only [reportRejections] at h
  cases ss with
  | nil => simp [reportLoop, Recorded.get_bind, hrej, Recorded.fail] at h
  | cons s ss =>
    simp only [List.length_cons, reportLoop, Recorded.get_bind, hlast] at h
    exact Recorded.Reads.bind_left reportOne_reads
      (fun _ => reportLoop_keeps (enqueues_loose fun _ => True) trivial) _ _ _ _ _ h

-- ---------------------------------------------------------------------------
-- finish up to the conversion
-- ---------------------------------------------------------------------------

theorem failWith_keeps (hR : Passive p R) : Keeps R failWith :=
  .bind hR.composes (takeException_keeps hR) fun _ => .pure hR.composes _

theorem ownResult_keeps (hR : Passive p R) : Keeps R (ownResult v refObjects) := by
  cases v with
  | none => exact failWith_keeps hR
  | some v => exact .pure hR.composes _

/-- The rejection of a promise that the call unwraps is its own to report. -/
def forgetPromise (w : World) (promise : ℕ) : World :=
  { w with rejected := match findRejected w.rejected promise with
    | some i => forgetRejected w.rejected i
    | none => w.rejected }

theorem unwrapPromise_keeps (hR : Passive p R)
    (hforget : ∀ w promise, R w [] (forgetPromise w promise))
    (hp : p .moduleNamespace) : Keeps R (unwrapPromise v refObjects module) := by
  unfold unwrapPromise
  split
  · refine .bind hR.composes (.get hR.composes) fun w => ?_
    split
    · refine .ite ?_ (.pure hR.composes _)
      refine .bind hR.composes (engine_keeps hR hp) fun r => ?_
      cases r with
      | none => exact failWith_keeps hR
      | some ns => exact .pure hR.composes _
    · refine .bind hR.composes (.modify fun w => hforget w _) fun _ => ?_
      exact .bind hR.composes (jsThrow_keeps hR) fun _ => failWith_keeps hR
    · exact .pure hR.composes _
  · exact .pure hR.composes _

theorem unwrapped_keeps (hR : Passive p R) (hforget : ∀ w promise, R w [] (forgetPromise w promise))
    (hp : p .moduleNamespace) : Keeps R (unwrapped unwrap module o) := by
  cases o with
  | value v refObjects => exact .ite (unwrapPromise_keeps hR hforget hp) (.pure hR.composes _)
  | failed exc oom => exact .pure hR.composes _

theorem Acts.nil (h : Acts (fun _ => False) w ss w') : ss = [] ∧ w'.jobs = w.jobs := by
  obtain rfl : ss = [] := List.eq_nil_iff_forall_not_mem.mpr fun s hs => h.points s hs
  exact ⟨rfl, h.jobs⟩

theorem keepOwn_keeps (hR : Passive p R) : Keeps R (keepOwn o failed) := by
  unfold keepOwn
  split
  · exact .bind hR.composes (clearException_keeps hR) fun _ => .pure hR.composes _
  · exact failWith_keeps hR
  · exact .pure hR.composes _

theorem drained_spec (h : drained o w ss = some (o', w', rest)) :
    ∃ used, ss = used ++ rest ∧ (∀ s ∈ used, s.point.ofDrain false) ∧ w'.jobs = 0 := by
  obtain ⟨failed, w₁, ss₁, hdrain, hkeep⟩ := Recorded.bind_eq_some.mp h
  obtain ⟨used, rfl, hpts, hjobs, -⟩ := drainJobs_spec hdrain
  obtain ⟨none, rfl, hacts⟩ := (keepOwn_keeps (acts_passive fun _ => False)).elim hkeep
  obtain ⟨rfl, hsame⟩ := hacts.nil
  exact ⟨used, rfl, hpts, hsame.trans hjobs⟩

/-- The points between the first drain and the conversion. -/
def Point.ofReport (pt : Point) : Prop := pt = .moduleNamespace ∨ pt = .report false

/-- What `finish` does before it writes. -/
def Prepares (who : Writer) (outermost : Bool) (v : Option JSValue) (refObjects unwrap module : Bool)
    (w : World) (ss : List Step) (o : Outcome) (w' : World) (ss' : List Step) : Prop :=
  ∃ o₁ wa sa o₂ wb sb wc sc, ownResult v refObjects w ss = some (o₁, wa, sa) ∧
    drainOutermost outermost o₁ wa sa = some (o₂, wb, sb) ∧
    unwrapped unwrap module o₂ wb sb = some (o, wc, sc) ∧
    reportOutermost who outermost wc sc = some ((), w', ss')

/-- `finish` up to the conversion: an outermost call then has what was queued
after its drain, and no rejection. -/
theorem finish_cases
    (h : finish who outermost v refObjects unwrap module w ss = some (r, w', rest)) :
    ∃ o w₁ w₂ u₁ u₂ ss₁, Prepares who outermost v refObjects unwrap module w ss o w₁ ss₁ ∧
      ss = u₁ ++ (u₂ ++ ss₁) ∧ (∀ s ∈ u₁, s.point.ofDrain false) ∧
      (∀ s ∈ u₂, s.point.ofReport) ∧
      (outermost → w₁.jobs = enqueued u₂ ∧ w₁.rejected = []) ∧
      writeOut who outermost o w₁ ss₁ = some (r, w₂, rest) ∧
      w' = { w₂ with state := runEnd outermost w₂.state } := by
  obtain ⟨o₁, wa, sa, hown, h⟩ := Recorded.bind_eq_some.mp h
  obtain ⟨o₂, wb, sb, hdrain, h⟩ := Recorded.bind_eq_some.mp h
  obtain ⟨o₃, wc, sc, hunwrap, h⟩ := Recorded.bind_eq_some.mp h
  obtain ⟨_, w₁, ss₁, hreport, h⟩ := Recorded.bind_eq_some.mp h
  obtain ⟨r', w₂, rest', hwrite, h⟩ := Recorded.bind_eq_some.mp h
  rw [Recorded.modify_bind] at h
  obtain ⟨rfl, rfl, rfl⟩ := Recorded.pure_eq_some.mp h
  have hprepares : Prepares who outermost v refObjects unwrap module w ss o₃ w₁ ss₁ :=
    ⟨_, _, _, _, _, _, _, _, hown, hdrain, hunwrap, hreport⟩
  obtain ⟨none, rfl, hacts⟩ := (ownResult_keeps (acts_passive fun _ => False)).elim hown
  obtain ⟨rfl, -⟩ := hacts.nil
  have hloose := enqueues_loose Point.ofReport
  obtain ⟨uc, rfl, hc⟩ :=
    (unwrapped_keeps hloose.toPassive (fun _ _ => hloose.rest rfl rfl) (.inl rfl)).elim hunwrap
  cases outermost with
  | false =>
    obtain ⟨rfl, rfl, rfl⟩ := Recorded.pure_eq_some.mp hdrain
    obtain ⟨-, rfl, rfl⟩ := Recorded.pure_eq_some.mp hreport
    exact ⟨o₃, _, w₂, [], uc, _, hprepares, rfl, by simp, hc.points, by simp, hwrite, rfl⟩
  | true =>
    obtain ⟨ub, rfl, hpts, hjobs⟩ := drained_spec hdrain
    obtain ⟨ud, rfl, hd⟩ := (reportRejections_keeps hloose (.inr rfl)).elim hreport
    refine ⟨o₃, w₁, w₂, ub, uc ++ ud, ss₁, hprepares, by simp, hpts, ?_, fun _ => ⟨?_, ?_⟩, hwrite, rfl⟩
    · intro s hs
      exact (List.mem_append.mp hs).elim (hc.points s) (hd.points s)
    · rw [hd.jobs, hc.jobs, hjobs, enqueued_append, Nat.zero_add]
    · exact reportRejections_empties hreport

theorem retag_payload (c : Call) (failed : Bool) (out : Out) :
    (c.retag failed out).str = out.str ∧ (c.retag failed out).stack = out.stack := by
  unfold Call.retag
  split <;> exact ⟨rfl, rfl⟩

/-- A call is its body, which is one step, and `finish`. -/
theorem kmpjsCall_cases (h : kmpjsCall who c w ss = some (r, w', rest)) :
    ∃ s ss₁ v w₁ out, ss = s :: ss₁ ∧ s.point = .body ∧
      engine .body w.runBegin ss = some (v, w₁, ss₁) ∧
      finish who (runBegin w.state).2 v c.flags c.entry.unwraps c.hasModule w₁ ss₁ =
        some ((r.1, out), w', rest) ∧ r.2 = c.retag r.1 out := by
  simp only [kmpjsCall, Recorded.get_bind, Recorded.modify_bind] at h
  obtain ⟨v, w₁, ss₁, hbody, hthen⟩ := Recorded.bind_eq_some.mp h
  obtain ⟨s, rfl, hstep⟩ := Recorded.next_eq_some.mp hbody
  obtain ⟨⟨failed, out⟩, w₂, ss₂, hfinish, hpure⟩ := Recorded.bind_eq_some.mp hthen
  obtain ⟨rfl, rfl, rfl⟩ := Recorded.pure_eq_some.mp hpure
  exact ⟨s, ss₁, v, w₁, out, rfl, engineStep_point hstep, hbody, hfinish, rfl⟩

-- ---------------------------------------------------------------------------
-- Parts of a record
-- ---------------------------------------------------------------------------

section Parts

variable {q : Step → Bool} {u : List Step}

theorem filter_all (h : ∀ s ∈ u, q s = true) : u.filter q = u := List.filter_eq_self.mpr h

theorem filter_none (h : ∀ s ∈ u, q s = false) : u.filter q = [] :=
  List.filter_eq_nil_iff.mpr fun s hs => by simp [h s hs]

end Parts

end QuickJsKmp
