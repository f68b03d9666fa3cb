import QuickJsKmp.Callers

/-!
# Interrupts do not cross calls

The engine is busy only while the block of one caller is in an engine call, and
that caller holds the mutex until its watchdog is gone. So a watchdog that finds
the engine busy finds it in a call of its own block.
-/

namespace QuickJsKmp.Callers

open Parties (System)

/-- The engine is busy in a call of somebody's block, and a watchdog's interrupt that
still stands was meant for that call. -/
structure Calling (s : Coroutines) : Prop where
  busy : s.shared.state ≠ .idle → ∃ (i : ℕ) (c : Caller), s.parties[i]? = some c ∧ c.inCall
  meant : ∀ k, s.shared.state = .interrupted → s.shared.cause = .watchdog k →
    ∃ c : Caller, s.parties[k]? = some c ∧ c.inCall

variable {s : Coroutines} {r t : Runtime} {c c' q : Caller} {e e' : Exclusive} {i j k : ℕ}

theorem init_calling : Calling init := ⟨fun h => absurd rfl h, nofun⟩

theorem inCall_holds (h : c.inCall) : c.holds := by
  cases c <;> first | rfl | cases h

theorem Inv.one_call (h : Inv s) (hi : s.parties[i]? = some c) (hc : c.holds)
    (hj : s.parties[j]? = some q) (hq : q.inCall) : j = i :=
  h.line.only hj (inCall_holds hq) hi hc

theorem left_outside (h : e.left) : (Caller.exclusive e).inCall = false := by
  obtain ⟨cancelled, watchdog, block, done, state⟩ := e
  cases block <;> simp [Exclusive.left, Caller.inCall] at *

/-- Only an idle engine begins a call, and no call leaves the engine busy. -/
theorem exclusive_busy (h : e.step a = some e') (he : e.state ≠ .idle → e.block = .inCall)
    (hbusy : e'.state ≠ .idle) : e'.block = .inCall := by
  cases a <;> simp only [Exclusive.step, Option.ite_none_right_eq_some, Option.some.injEq] at h
  case cancel => exact h ▸ he (by simpa [← h] using hbusy)
  case fire =>
    obtain ⟨-, rfl⟩ := h
    exact he (by simpa [interrupt_eq_idle] using hbusy)
  case beginCall =>
    obtain ⟨-, rfl⟩ := h
    rfl
  case endCall =>
    obtain ⟨-, rfl⟩ := h
    exact absurd rfl hbusy
  case dispatch | wake | load =>
    obtain ⟨-, rfl⟩ := h
    exact he hbusy
  case launch | complete | store | stop =>
    obtain ⟨hblock, rfl⟩ := h
    exact absurd (he hbusy) (by simp [hblock])

theorem exclusive_interrupted (h : e.step a = some e') (hint : e'.state = .interrupted) :
    e.state ≠ .idle := by
  intro hidle
  cases a <;> simp only [Exclusive.step, Option.ite_none_right_eq_some, Option.some.injEq] at h
  case cancel => simp [← h, hidle] at hint
  all_goals
    obtain ⟨-, rfl⟩ := h
    simp [hidle, kmpjsInterrupt, runBegin, runEnd] at hint

/-- A step by somebody who is in no call. -/
theorem Calling.outside (h : Calling s) (hi : s.parties[i]? = some c) (hc : c.inCall = false)
    (hbusy : t.state ≠ .idle → s.shared.state ≠ .idle)
    (hmeant : ∀ k, t.state = .interrupted → t.cause = .watchdog k →
      s.shared.state = .interrupted ∧ s.shared.cause = .watchdog k) :
    Calling ⟨t, s.parties.set i c'⟩ := by
  have there {j : ℕ} {q : Caller} (hj : s.parties[j]? = some q) (hq : q.inCall) :
      (s.parties.set i c')[j]? = some q := by
    have hne : i ≠ j := by
      rintro rfl
      obtain rfl : c = q := Option.some.inj (hi.symm.trans hj)
      simp [hc] at hq
    simpa [List.getElem?_set_ne hne] using hj
  constructor
  · intro hstate
    obtain ⟨j, q, hj, hq⟩ := h.busy (hbusy hstate)
    exact ⟨j, q, there hj hq, hq⟩
  · intro k hstate hcause
    obtain ⟨hstate', hcause'⟩ := hmeant k hstate hcause
    obtain ⟨q, hk, hq⟩ := h.meant k hstate' hcause'
    exact ⟨q, there hk hq, hq⟩

/-- The interrupts of `close()` and `shutdown()` are no watchdog's. -/
theorem interrupt_meant (hstate : (r.interrupt i).state = .interrupted)
    (hcause : (r.interrupt i).cause = .watchdog k) :
    r.state = .interrupted ∧ r.cause = .watchdog k := by
  unfold Runtime.interrupt at hstate hcause
  split at hcause
  · simp_all
  · cases hrun : r.state <;> simp_all [Runtime.setState, kmpjsInterrupt]

theorem interrupt_busy (h : (r.interrupt i).state ≠ .idle) : r.state ≠ .idle := by
  unfold Runtime.interrupt at h
  split at h
  · exact h
  · simpa [Runtime.setState, interrupt_eq_idle] using h

/-- A step of the one caller who is in `runExclusive`. -/
theorem Calling.inside (h : Calling s) (hinv : Inv s) (hi : s.parties[i]? = some (.exclusive e))
    (hstep : Exclusive.step { e with state := s.shared.state } a = some e') :
    Calling ⟨s.shared.setState (.watchdog i) e'.state, s.parties.set i (.exclusive e')⟩ := by
  have here : (s.parties.set i (.exclusive e'))[i]? = some (.exclusive e') :=
    Lookups.getElem?_set_here hi _
  have hown : s.shared.state ≠ .idle → e.block = .inCall := by
    intro hstate
    obtain ⟨j, q, hj, hq⟩ := h.busy hstate
    obtain rfl := hinv.one_call hi rfl hj hq
    obtain rfl : Caller.exclusive e = q := Option.some.inj (hi.symm.trans hj)
    simpa [Caller.inCall] using hq
  have hcall : e'.state ≠ .idle → (Caller.exclusive e').inCall := by
    intro hbusy
    simpa [Caller.inCall] using exclusive_busy hstep hown hbusy
  refine ⟨fun hbusy => ⟨i, _, here, hcall hbusy⟩, ?_⟩
  intro k hstate hcause
  have hbusy : s.shared.state ≠ .idle := exclusive_interrupted hstep hstate
  obtain rfl : k = i := by
    cases hrun : s.shared.state with
    | idle => exact absurd hrun hbusy
    | running =>
      have hnow : Cause.watchdog i = .watchdog k := by
        simpa [Runtime.setState, hrun, show e'.state = .interrupted from hstate] using hcause
      exact (Cause.watchdog.inj hnow).symm
    | interrupted =>
      obtain ⟨q, hk, hq⟩ := h.meant k hrun (by simpa [Runtime.setState, hrun] using hcause)
      exact hinv.one_call hi rfl hk hq
  exact ⟨_, here, hcall (by simp [show e'.state = .interrupted from hstate])⟩

theorem move_calling (hinv : Inv s) (h : Calling s) (hi : s.parties[i]? = some c)
    (hstep : Stepped i s.shared c t c') : Calling ⟨t, s.parties.set i c'⟩ := by
  cases hstep with
  | exclusive e e' a hstep => exact h.inside hinv hi hstep
  | left e hleft => exact h.outside hi (left_outside hleft) id fun k => And.intro
  | interrupted | interruptedShutdown =>
    exact h.outside hi rfl interrupt_busy fun k => interrupt_meant
  | _ => exact h.outside hi rfl id fun k => And.intro

theorem step_calling (hinv : Inv s) (h : Calling s) (hstep : step s a = some s') : Calling s' := by
  cases System.moved_of_step hstep with
  | enter c hc =>
    constructor
    · intro hstate
      obtain ⟨j, q, hj, hq⟩ := h.busy hstate
      exact ⟨j, q, Lookups.getElem?_append_old hj, hq⟩
    · intro k hstate hcause
      obtain ⟨q, hk, hq⟩ := h.meant k hstate hcause
      exact ⟨q, Lookups.getElem?_append_old hk, hq⟩
  | move i a c c' t hi hact => exact move_calling hinv h hi (stepped_of_act hact)

/-- A watchdog's interrupt takes effect only on an engine call of its own block, and the
call that it interrupted is the one in progress: no other call finds the engine
interrupted by that watchdog. -/
structure Uncrossed (s : Coroutines) : Prop where
  effect : ∀ (i : ℕ) (e : Exclusive) (s' : Coroutines), s.parties[i]? = some (.exclusive e) →
    step s (.move i (.exclusive .fire)) = some s' → s'.shared.state ≠ s.shared.state → e.block = .inCall
  own : ∀ (i j : ℕ) (c : Caller), s.shared.state = .interrupted → s.shared.cause = .watchdog i →
    s.parties[j]? = some c → c.inCall → j = i

theorem Calling.uncrossed (h : Calling s) (hinv : Inv s) : Uncrossed s := by
  constructor
  · intro i e s' hi hstep hchange
    have hbusy : s.shared.state ≠ .idle := by
      intro hidle
      simp only [step, System.step, hi, act, Exclusive.step] at hstep
      split at hstep
      · obtain rfl := Option.some.inj hstep
        simp [Runtime.setState, hidle, kmpjsInterrupt] at hchange
      · cases hstep
    obtain ⟨j, q, hj, hq⟩ := h.busy hbusy
    obtain rfl := hinv.one_call hi rfl hj hq
    obtain rfl : Caller.exclusive e = q := Option.some.inj (hi.symm.trans hj)
    simpa [Caller.inCall] using hq
  · intro i j c hstate hcause hj hc
    obtain ⟨q, hi, hq⟩ := h.meant i hstate hcause
    exact hinv.one_call hi (inCall_holds hq) hj hc

theorem interrupts_stay_in_call (h : Machine.Reaches step Machine.always init s) : Uncrossed s := by
  have hboth : Inv s ∧ Calling s := by
    refine h.invariant (I := fun s => Inv s ∧ Calling s) ⟨init_inv, init_calling⟩ ?_
    rintro s a s' ⟨hinv, hcalling⟩ - hstep
    exact ⟨step_inv hinv hstep, step_calling hinv hcalling hstep⟩
  exact hboth.2.uncrossed hboth.1

/-- The first caller is cancelled in its call and interrupts it; the second waits. -/
theorem interrupts_stay_in_call_waiter :
    Uncrossed ⟨⟨false, false, [0, 1], false, 0, .interrupted, .watchdog 0⟩,
      [.exclusive ⟨true, .terminated, .inCall, false, .interrupted⟩, .waiting]⟩ := by
  refine interrupts_stay_in_call (Machine.reaches_of_exec
    (l := [.enter .lock, .enter .lock, .move 0 .go, .move 0 .go, .move 1 .go] ++
      [.launch, .dispatch, .beginCall, .cancel, .wake, .load, .fire].map
        fun a => .move 0 (.exclusive a)) ?_)
  decide +kernel

end QuickJsKmp.Callers
