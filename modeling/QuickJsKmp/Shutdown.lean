import QuickJsKmp.Callers

/-!
# `JsRuntime` closes its engine

Who is to close the engine once the runtime is closed: the caller of
`shutdown()`, or of `close()` until it has set the second flag, and from then on whoever is
in the mutex's line or in `closeIfPending`. The duty is passed on and never lost.
-/

namespace QuickJsKmp.Callers

open Parties (System Action)

/-- The engine will not stay open after this one. -/
def Caller.due (s : Runtime) : Caller → Bool
  | .interrupt | .storePending => true
  | .interruptShutdown | .lockShutdown | .waitingShutdown | .closeShutdown => true
  | .waiting | .check | .exclusive _ | .unlock | .test _ | .tryLock _ | .closePending _ => s.pendingClose
  | _ => false

/-- Somebody will close the engine. -/
def Due (s : Coroutines) : Prop :=
  s.shared.closed → s.shared.engineClosed = false →
    ∃ (i : ℕ) (c : Caller), s.parties[i]? = some c ∧ c.due s.shared

variable {s : Coroutines} {r t : Runtime} {c c' q : Caller} {i j : ℕ}

theorem due_mono (h : q.due r) (hstep : Stepped i r c t c') : q.due t := by
  have hpending := hstep.flags.2.1
  cases q <;> first | exact h | exact hpending h

/-- The one who moves keeps the duty, or it is done, or the mutex is in other hands. -/
theorem stepped_due (hstep : Stepped i r c t c') (h : c.due r) :
    c'.due t ∨ t.engineClosed ∨ r.pendingClose ∧ r.line ≠ [] ∧ t = r ∧ c.inLine = false := by
  cases hstep with
  | spared hpending => exact absurd h (by simp [Caller.due, hpending])
  | busy hbusy => exact .inr (.inr ⟨h, hbusy, rfl, rfl⟩)
  | closed | closedShutdown => exact .inr (.inl rfl)
  | interrupted | interruptedShutdown | wonShutdown | won | stored => exact .inl rfl
  | lockedShutdown | queuedShutdown | resumedShutdown => exact .inl rfl
  | locked | queued | released | unlockedShutdown | lost | lostShutdown => cases h
  | _ => exact .inl h

/-- Whoever closes the runtime takes the duty. -/
theorem stepped_closed (hstep : Stepped i r c t c') (h : t.closed) : r.closed ∨ c'.due t := by
  cases hstep with
  | won | wonShutdown => exact .inr rfl
  | interrupted | interruptedShutdown => exact .inl ((interrupt_flags r i).1 ▸ h)
  | _ => exact .inl h

/-- With a close pending, the first of the line will come to it. -/
theorem Inv.line_due (h : Inv s) (hbusy : s.shared.line ≠ []) (hpending : s.shared.pendingClose)
    (hopen : s.shared.engineClosed = false) :
    ∃ (j : ℕ) (q : Caller), s.parties[j]? = some q ∧ q.inLine ∧ q.due s.shared := by
  obtain ⟨j, line, hline⟩ := List.exists_cons_of_ne_nil hbusy
  obtain ⟨q, hj, hq⟩ := h.line.first_member (i := j) (by simp [hline])
  have hok := h.each j q hj
  refine ⟨j, q, hj, hq, ?_⟩
  cases q with
  | release | unlockShutdown => simp [hok.1] at hopen
  | waitingShutdown | closeShutdown => rfl
  | waiting | check | exclusive | unlock | closePending => exact hpending
  | _ => cases hq

theorem move_due (hinv : Inv s) (h : Due s) (hi : s.parties[i]? = some c)
    (hstep : Stepped i s.shared c t c') : Due ⟨t, s.parties.set i c'⟩ := by
  intro hclosed hopen
  have here : (s.parties.set i c')[i]? = some c' := Lookups.getElem?_set_here hi c'
  have there {j : ℕ} {q : Caller} (hne : j ≠ i) (hj : s.parties[j]? = some q) :
      (s.parties.set i c')[j]? = some q := by simpa [List.getElem?_set_ne (Ne.symm hne)] using hj
  have hopen' : s.shared.engineClosed = false := by
    have hkeep := hstep.flags.2.2.1
    cases hengine : s.shared.engineClosed
    · rfl
    · exact (hkeep hengine).symm.trans hopen
  rcases stepped_closed hstep hclosed with hclosed' | hdue
  · obtain ⟨j, q, hj, hq⟩ := h hclosed' hopen'
    by_cases hne : j = i
    · subst hne
      obtain rfl : q = c := Option.some.inj (hj.symm.trans hi)
      rcases stepped_due hstep hq with hdue | hdone | ⟨hpending, hbusy, rfl, hout⟩
      · exact ⟨j, c', here, hdue⟩
      · exact absurd (hdone.symm.trans hopen) nofun
      · obtain ⟨k, p, hk, hin, hp⟩ := hinv.line_due hbusy hpending hopen
        refine ⟨k, p, there ?_ hk, hp⟩
        rintro rfl
        obtain rfl : p = q := Option.some.inj (hk.symm.trans hi)
        simp [hin] at hout
    · exact ⟨j, q, there hne hj, due_mono hq hstep⟩
  · exact ⟨i, c', here, hdue⟩

theorem step_due (hinv : Inv s) (h : Due s) (hstep : step s a = some s') : Due s' := by
  cases System.moved_of_step hstep with
  | enter c hc =>
    intro hclosed hopen
    obtain ⟨i, q, hi, hq⟩ := h hclosed hopen
    exact ⟨i, q, Lookups.getElem?_append_old hi, hq⟩
  | move i a c c' t hi hact => exact move_due hinv h hi (stepped_of_act hact)

-- ---------------------------------------------------------------------------
-- Quiet states
-- ---------------------------------------------------------------------------

/-- Nobody can go on by itself. -/
def Quiet (s : Coroutines) : Prop := ∀ i a, a.own → step s (.move i a) = none

/-- A `runExclusive` goes on or returns. -/
theorem exclusive_goes (e : Exclusive) (h : e.block ≠ .launching → e.watchdog ≠ .unlaunched) :
    ∃ a, a.own ∧ act i r (.exclusive e) a ≠ none := by
  obtain ⟨cancelled, watchdog, block, done, state⟩ := e
  cases block with
  | launching => exact ⟨.exclusive .launch, rfl, by simp [act, Exclusive.step]⟩
  | between => exact ⟨.exclusive .complete, rfl, by simp [act, Exclusive.step]⟩
  | inCall => exact ⟨.exclusive .endCall, rfl, by simp [act, Exclusive.step]⟩
  | storing => exact ⟨.exclusive .store, rfl, by simp [act, Exclusive.step]⟩
  | stopping => exact ⟨.exclusive .stop, rfl, by simp [act, Exclusive.step]⟩
  | finished =>
    -- the watchdog has been cancelled, and its end is awaited
    cases watchdog with
    | unlaunched => exact absurd rfl (h (by simp))
    | queued => exact ⟨.exclusive .dispatch, rfl, by simp [act, Exclusive.step]⟩
    | waiting =>
      exact ⟨.exclusive .wake, rfl,
        by simp [act, Exclusive.step, Exclusive.watchdogCancelled, Block.stopped]⟩
    | woken => exact ⟨.exclusive .load, rfl, by simp [act, Exclusive.step]⟩
    | firing => exact ⟨.exclusive .fire, rfl, by simp [act, Exclusive.step]⟩
    | terminated | dropped => exact ⟨.leave, rfl, by simp [act, Exclusive.left, Watchdog.gone]⟩

/-- Everybody goes on but a waiter that is not the first. -/
theorem caller_goes (hok : c.Ok r) (hfirst : c.inLine → r.line.head? = some i) :
    (∃ b, c = .returned b) ∨ ∃ a, a.own ∧ act i r c a ≠ none := by
  cases c with
  | returned b => exact .inl ⟨b, rfl⟩
  | exclusive e => exact .inr (exclusive_goes e hok.2)
  | waiting | waitingShutdown => exact .inr ⟨.go, rfl, by simp [act, hfirst rfl]⟩
  | tryLock =>
    refine .inr ⟨.go, rfl, ?_⟩
    by_cases hfree : r.line = [] <;> simp [act, hfree]
  | _ => exact .inr ⟨.go, rfl, by simp [act]⟩

theorem Quiet.stuck (h : Quiet s) (hi : s.parties[i]? = some c) :
    ¬ ∃ a, a.own ∧ act i s.shared c a ≠ none := by
  rintro ⟨a, hown, hact⟩
  have hnone := h i a hown
  simp [step, System.step, hi] at hnone
  exact hact hnone

/-- When nobody can go on, everybody has returned: the line is empty, as its first could go on. -/
theorem Inv.quiet_returned (h : Inv s) (hquiet : Quiet s) (hi : s.parties[i]? = some c) :
    ∃ b, c = .returned b := by
  have hempty : s.shared.line = [] := by
    by_contra hbusy
    obtain ⟨j, line, hline⟩ := List.exists_cons_of_ne_nil hbusy
    have hfirst : s.shared.line.head? = some j := by simp [hline]
    obtain ⟨q, hj, hq⟩ := h.line.first_member hfirst
    obtain ⟨b, rfl⟩ := (caller_goes (h.each j q hj) fun _ => hfirst).resolve_right (hquiet.stuck hj)
    cases hq
  refine (caller_goes (h.each i c hi) fun hin => ?_).resolve_right (hquiet.stuck hi)
  have hmem := h.line.mem_of_member hi hin
  simp [hempty] at hmem

/-- The engine is closed once, outside every block, and no block starts
afterwards; and when a `close()` or a `shutdown()` has returned and nobody can
go on, it is closed. -/
structure ClosedOnce (s : Coroutines) : Prop where
  once : s.shared.closes ≤ 1
  apart : 0 < s.shared.closes → ∀ (i : ℕ) (e : Exclusive), s.parties[i]? ≠ some (.exclusive e)
  kept : Quiet s → (∃ i : ℕ, s.parties[i]? = some (.returned true)) → s.shared.closes = 1

theorem Inv.closedOnce (h : Inv s) (hdue : Due s) : ClosedOnce s := by
  have hcloses := h.closes
  refine ⟨?_, ?_, ?_⟩
  · rw [hcloses]
    split <;> simp
  · intro hpos i e hi
    have hopen := (h.each i _ hi).1
    simp [hcloses, hopen] at hpos
  · rintro hquiet ⟨i, hi⟩
    cases hengine : s.shared.engineClosed with
    | true => simp [hcloses, hengine]
    | false =>
      -- the one on duty has not returned
      obtain ⟨j, q, hj, hq⟩ := hdue (h.each i _ hi) hengine
      obtain ⟨b, rfl⟩ := h.quiet_returned hquiet hj
      cases hq

theorem runtime_closed_once (h : Machine.Reaches step Machine.always init s) : ClosedOnce s := by
  have hboth : Inv s ∧ Due s := by
    refine h.invariant (I := fun s => Inv s ∧ Due s) ⟨init_inv, fun hclosed => nomatch hclosed⟩ ?_
    rintro s a s' ⟨hinv, hdue⟩ - hstep
    exact ⟨step_inv hinv hstep, step_due hinv hdue hstep⟩
  exact hboth.1.closedOnce hboth.2

/-- `close()` while a script runs: `tryLock` fails, and the end of `withEngine`
closes the engine. -/
theorem runtime_closed_once_busy :
    ClosedOnce ⟨⟨true, true, [], true, 1, .idle, .closing 1⟩, [.returned false, .returned true]⟩ := by
  let call (a : ExclusiveAct) : Action Caller Act := .move 0 (.exclusive a)
  let closing : List (Action Caller Act) := List.replicate 5 (.move 1 .go)
  let ending : List (Action Caller Act) := List.replicate 5 (.move 0 .go)
  refine runtime_closed_once (Machine.reaches_of_exec
    (l := [.enter .lock, .enter .swap, .move 0 .go, .move 0 .go] ++
      [call .launch, call .dispatch, call .beginCall] ++ closing ++
      [call .endCall, call .complete, call .store, call .stop, call .wake, call .load] ++
      [.move 0 .leave] ++ ending) ?_)
  decide +kernel

end QuickJsKmp.Callers
