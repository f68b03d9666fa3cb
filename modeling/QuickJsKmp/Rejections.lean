import QuickJsKmp.Lifetime

/-!
# Unhandled rejections

What the notes of a whole life say of the tracked rejections. The report of a
rejection begins when its entry is taken from the list. Then the reason is
described, by its own `toString`, and only then the host is told: a handler that
is attached in between comes too late to be heeded.
-/

namespace QuickJsKmp.Ledger

/-- Nobody attaches a handler to a promise while its reason is described. -/
def Undisturbed (log : List Moment) : Prop :=
  ∀ pre l mid l' post p h, log = pre ++ ⟨.taken p, l⟩ :: (mid ++ ⟨.reported p h, l'⟩ :: post) →
    .handled p ∉ notes mid

/-- The list holds the outstanding rejections, once each, at every moment. Each
is reported at most once, and while it has no handler. No report begins after
the promise was unwrapped, and none happens that was listed when a drain failed. -/
structure Reported (s : Shim) : Prop where
  now : Lists s.log (s.rejected.map Prod.fst)
  always : ∀ pre m post, s.log = pre ++ m :: post → Lists (pre ++ [m]) m.rejected
  once : ∀ p, told (notes s.log) p ≤ 1
  unhandled : ∀ p, .reported p true ∉ notes s.log
  unwrapped : ∀ pre l post p, s.log = pre ++ ⟨.unwrapped p, l⟩ :: post →
    .taken p ∉ notes post ∧ ∀ h, .reported p h ∈ notes post → .taken p ∈ notes pre
  discarded : ∀ l p, ⟨.drainFailed, l⟩ ∈ s.log → p ∈ l → ∀ h, .reported p h ∉ notes s.log

theorem mem_notes_iff : n ∈ notes log ↔ ∃ pre l post, log = pre ++ ⟨n, l⟩ :: post := by
  constructor
  · intro hn
    obtain ⟨⟨n, l⟩, hm, rfl⟩ := List.mem_map.mp hn
    obtain ⟨pre, post, rfl⟩ := List.append_of_mem hm
    exact ⟨pre, l, post, rfl⟩
  · rintro ⟨pre, l, post, rfl⟩
    simp [notes]

@[simp] theorem mem_notes_append : n ∈ notes (log ++ log') ↔ n ∈ notes log ∨ n ∈ notes log' := by
  simp [notes]

@[simp] theorem mem_notes_cons : n ∈ notes (m :: log) ↔ n = m.note ∨ n ∈ notes log := by
  simp [notes]

/-- Of two places in one list, one comes first. -/
theorem before_or_after (h : pre ++ a :: post = pre' ++ b :: post') :
    b ∈ pre ∨ a = b ∨ a ∈ pre' := by
  rcases List.append_eq_append_iff.mp h with ⟨c, rfl, hc⟩ | ⟨c, rfl, hc⟩
  · cases c with
    | nil =>
      obtain ⟨rfl, -⟩ := List.cons.inj hc
      exact .inr (.inl rfl)
    | cons x c =>
      obtain ⟨rfl, -⟩ := List.cons.inj hc
      exact .inr (.inr (by simp))
  · cases c with
    | nil =>
      obtain ⟨rfl, -⟩ := List.cons.inj hc
      exact .inr (.inl rfl)
    | cons x c =>
      obtain ⟨rfl, -⟩ := List.cons.inj hc
      exact .inl (by simp)

section

variable {log : List Moment}

theorem History.taken (h : History log) (hlog : log = pre ++ ⟨.taken p, l⟩ :: post) :
    Outstanding (notes pre) p ∧ ¬ Doomed pre p :=
  (h _ _ _ hlog).order

theorem History.reported (h : History log) (hlog : log = pre ++ ⟨.reported p b, l⟩ :: post) :
    .taken p ∈ notes pre ∧ (b = true ↔ .handled p ∈ notes pre) :=
  ⟨(h _ _ _ hlog).order.1, (h _ _ _ hlog).order.2.2⟩

/-- What removed an entry comes after it was taken, or never. -/
theorem History.not_removed (h : History log) (hlog : log = pre ++ ⟨.taken p, l⟩ :: post)
    (hn : n.removes = some p) : n ∉ notes pre :=
  fun hmem => (h.taken hlog).1.2 n hmem hn

theorem History.taken_of_reported (h : History log) (hmem : .reported p b ∈ notes log) :
    ∃ pre l post, log = pre ++ ⟨.taken p, l⟩ :: post := by
  obtain ⟨pre, l, post, hlog⟩ := mem_notes_iff.mp hmem
  obtain ⟨pre', l', post', rfl⟩ := mem_notes_iff.mp (h.reported hlog).1
  exact ⟨pre', l', _, by rw [hlog, List.append_assoc, List.cons_append]⟩

theorem History.unhandled_iff (h : History log) :
    (∀ p, .reported p true ∉ notes log) ↔ Undisturbed log := by
  constructor
  · intro hnone pre l mid l' post p b hlog hhandled
    rw [← List.cons_append, ← List.append_assoc] at hlog
    have hb : b = true := (h.reported hlog).2.mpr (by simp [hhandled])
    subst hb
    exact hnone p (mem_notes_iff.mpr ⟨_, _, _, hlog⟩)
  · intro hquiet p hmem
    obtain ⟨before, l', post, hlog⟩ := mem_notes_iff.mp hmem
    obtain ⟨htaken, hhandled⟩ := h.reported hlog
    obtain ⟨pre, l, mid, rfl⟩ := mem_notes_iff.mp htaken
    rw [List.append_assoc, List.cons_append] at hlog
    -- The handler was not there when the entry was taken.
    have hpre : .handled p ∉ notes pre := h.not_removed hlog rfl
    have hmid : .handled p ∈ notes mid := by simpa [hpre] using hhandled
    exact hquiet _ _ _ _ _ _ _ hlog hmid

theorem History.unwrapped (h : History log) (hlog : log = pre ++ ⟨.unwrapped p, l⟩ :: post) :
    .taken p ∉ notes post ∧ ∀ b, .reported p b ∈ notes post → .taken p ∈ notes pre := by
  have hnone : ∀ mid l' rest, post ≠ mid ++ ⟨.taken p, l'⟩ :: rest := by
    rintro mid l' rest rfl
    rw [← List.cons_append, ← List.append_assoc] at hlog
    exact h.not_removed (n := .unwrapped p) hlog rfl (by simp)
  constructor
  · intro hmem
    obtain ⟨mid, l', rest, hpost⟩ := mem_notes_iff.mp hmem
    exact hnone _ _ _ hpost
  · intro b hmem
    obtain ⟨mid, l', rest, rfl⟩ := mem_notes_iff.mp hmem
    rw [← List.cons_append, ← List.append_assoc] at hlog
    have htaken := (h.reported hlog).1
    rw [mem_notes_append, mem_notes_cons] at htaken
    rcases htaken with hpre | hnote | hmid
    · exact hpre
    · cases hnote
    · obtain ⟨front, l'', back, rfl⟩ := mem_notes_iff.mp hmid
      exact absurd (by simp) (hnone front l'' (back ++ ⟨.reported p b, l'⟩ :: rest))

theorem History.discarded (h : History log) (hm : ⟨.drainFailed, l⟩ ∈ log) (hp : p ∈ l) (b : Bool) :
    .reported p b ∉ notes log := by
  intro hmem
  obtain ⟨pre, post, hlog⟩ := List.append_of_mem hm
  obtain ⟨pre', l', post', hlog'⟩ := h.taken_of_reported hmem
  rcases before_or_after (hlog.symm.trans hlog') with hbefore | hsame | hafter
  · -- Taken before the drain failed, it was not in the list any more.
    have hout := (h pre _ post hlog).lists.exact p |>.mp hp
    exact hout.2 (.taken p) (by simp [notes, List.mem_map_of_mem (f := Moment.note) hbefore]) rfl
  · cases hsame
  · exact (h.taken hlog').2 ⟨_, hafter, rfl, hp⟩

end

/-- Exactly if no handler is attached to a promise while its own rejection is
being reported, rejections are reported as tracked. -/
theorem rejections_reported (h : Reachable callbacks s) : Reported s ↔ Undisturbed s.log := by
  obtain ⟨ctor, hs⟩ := h.balanced
  have htracks := hs.tracks
  have hhistory := htracks.history
  constructor
  · intro hr
    exact hhistory.unhandled_iff.mp hr.unhandled
  · intro hquiet
    refine ⟨htracks.lists, fun pre m post hlog => (hhistory pre m post hlog).lists, fun p => ?_,
      hhistory.unhandled_iff.mpr hquiet, fun pre l post p hlog => hhistory.unwrapped hlog,
      fun l p hm hp b => hhistory.discarded hm hp b⟩
    calc told (notes s.log) p
      _ ≤ told (notes s.log) p + Multiset.count p 0 := Nat.le_add_right _ _
      _ ≤ (notes s.log).count (.taken p) := htracks.told p
      _ ≤ 1 := htracks.taken p

/-- One promise is rejected, and its reason described by these events. -/
def rejectingCall (describing : List Event) : Call × List Event :=
  (.eval true,
    [.act (.reject 5 (.object 8 .plain)), .answer (.value .undefined)] ++ describing ++
      [.answer (.value (.string [])), .answer .done, .answer .done])

theorem rejections_reported_plain :
    ∃ s, Reachable everyCallback s ∧ .reported 5 false ∈ notes s.log ∧ Reported s := by
  have hrun : (Machine.exec step Machine.always fresh [rejectingCall []]).map Shim.log =
      some [⟨.rejected 5, [5]⟩, ⟨.taken 5, []⟩, ⟨.reported 5 false, []⟩,
        ⟨.returned 0 0 0 false .undefined, []⟩] := by decide +kernel
  obtain ⟨s, hexec, hlog⟩ := Option.map_eq_some_iff.mp hrun
  have hreach := reachable_of_exec _ hexec
  refine ⟨s, hreach, by rw [hlog]; decide, (rejections_reported hreach).mpr ?_⟩
  intro pre l mid l' post p b hsplit hhandled
  have hmem : .handled p ∈ notes s.log := by
    rw [hsplit]
    simp [hhandled]
  simp [hlog, notes] at hmem

/-- `toString` of the reason attaches a handler, and the host is told all the same. -/
theorem handled_rejection_reported : ∃ s, Reachable everyCallback s ∧ ¬ Reported s := by
  have hrun : (Machine.exec step Machine.always fresh [rejectingCall [.act (.attach 5)]]).map Shim.log =
      some [⟨.rejected 5, [5]⟩, ⟨.taken 5, []⟩, ⟨.handled 5, []⟩, ⟨.reported 5 true, []⟩,
        ⟨.returned 0 0 0 false .undefined, []⟩] := by decide +kernel
  obtain ⟨s, hexec, hlog⟩ := Option.map_eq_some_iff.mp hrun
  refine ⟨s, reachable_of_exec _ hexec, fun hr => hr.unhandled 5 ?_⟩
  rw [hlog]
  decide

end QuickJsKmp.Ledger
