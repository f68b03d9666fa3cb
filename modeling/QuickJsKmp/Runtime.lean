import QuickJsKmp.Interrupt

/-!
# The watchdog of `JsRuntime.runExclusive`

`runExclusive` runs a block of engine calls on one thread and launches a
watchdog beside it. The watchdog waits for the cancellation of the calling
coroutine (a timeout is one too) and then, unless the block is done, interrupts
the engine once. A step is one atomic access by the caller, the watchdog or the
engine thread.
-/

namespace QuickJsKmp

/-- The watchdog coroutine. A coroutine that is cancelled before its dispatch
is dropped: its body never runs. -/
inductive Watchdog
  | unlaunched
  | queued
  | waiting
  | woken
  | firing
  | terminated
  | dropped
  deriving DecidableEq, Repr

/-- Nothing more will come from the watchdog. -/
def Watchdog.gone : Watchdog → Bool
  | .terminated | .dropped => true
  | _ => false

/-- The coroutine that runs the block, from before its `launch` to after the
`finally` that ends it. -/
inductive Block
  | launching
  | between
  | inCall
  | storing
  | stopping
  | finished
  deriving DecidableEq, Repr

/-- `watchdog.cancel()` has been called. -/
def Block.stopped : Block → Bool
  | .finished => true
  | _ => false

/-- One `runExclusive`. `done` is its atomic flag and `state` the engine's. -/
structure Exclusive where
  cancelled : Bool
  watchdog : Watchdog
  block : Block
  done : Bool
  state : RunState
  deriving DecidableEq, Repr

def Exclusive.init : Exclusive := ⟨false, .unlaunched, .launching, false, .idle⟩

/-- The watchdog's job is cancelled: by its parent, or by the end of the block. -/
def Exclusive.watchdogCancelled (s : Exclusive) : Bool := s.cancelled || s.block.stopped

inductive ExclusiveAct
  | cancel
  | launch
  | dispatch
  | wake
  | load
  | fire
  | beginCall
  | endCall
  | complete
  | store
  | stop
  deriving DecidableEq, Repr

def Exclusive.step (s : Exclusive) : ExclusiveAct → Option Exclusive
  | .cancel => some { s with cancelled := true }
  | .launch =>
    if s.block = .launching then some { s with block := .between, watchdog := .queued } else none
  | .dispatch =>
    if s.watchdog = .queued then
      some { s with watchdog := if s.watchdogCancelled then .dropped else .waiting }
    else none
  -- awaitCancellation throws, and the finally block begins
  | .wake =>
    if s.watchdog = .waiting && s.watchdogCancelled then some { s with watchdog := .woken }
    else none
  | .load =>
    if s.watchdog = .woken then
      some { s with watchdog := if s.done then .terminated else .firing }
    else none
  | .fire =>
    if s.watchdog = .firing then
      some { s with watchdog := .terminated, state := kmpjsInterrupt s.state }
    else none
  | .beginCall =>
    if s.block = .between then some { s with block := .inCall, state := (runBegin s.state).1 }
    else none
  | .endCall =>
    if s.block = .inCall then some { s with block := .between, state := runEnd true s.state }
    else none
  -- the block returns or throws; its finally stores the flag and cancels the watchdog
  | .complete => if s.block = .between then some { s with block := .storing } else none
  | .store => if s.block = .storing then some { s with block := .stopping, done := true } else none
  | .stop => if s.block = .stopping then some { s with block := .finished } else none

/-- The cancellation is lost: nothing is left to interrupt the call that runs. -/
def Exclusive.Lost (s : Exclusive) : Prop :=
  s.cancelled ∧ s.watchdog.gone ∧ s.block = .inCall ∧ s.state = .running

instance (s : Exclusive) : Decidable s.Lost := inferInstanceAs (Decidable (_ ∧ _ ∧ _ ∧ _))

-- ---------------------------------------------------------------------------
-- The runs that lose no cancellation
-- ---------------------------------------------------------------------------

/-- No engine call begins once the cancelled caller's watchdog is gone, and no
watchdog is dropped while a call of a cancelled caller runs. -/
def Guarded (s : Exclusive) : ExclusiveAct → Prop
  | .beginCall => ¬ (s.cancelled ∧ s.watchdog.gone)
  | .dispatch => ¬ (s.cancelled ∧ s.block = .inCall ∧ s.state = .running)
  | _ => True

instance : ∀ s a, Decidable (Guarded s a)
  | s, .beginCall => inferInstanceAs (Decidable (¬ (s.cancelled ∧ s.watchdog.gone)))
  | s, .dispatch =>
    inferInstanceAs (Decidable (¬ (s.cancelled ∧ s.block = .inCall ∧ s.state = .running)))
  | _, .cancel | _, .launch | _, .wake | _, .load | _, .fire | _, .endCall | _, .complete
  | _, .store | _, .stop => .isTrue trivial

structure Exclusive.Inv (s : Exclusive) : Prop where
  /-- The engine is busy exactly during a call. -/
  state : s.state ≠ .idle ↔ s.block = .inCall
  /-- The flag is stored only after the last call. -/
  done : s.done → s.block = .stopping ∨ s.block = .finished
  /-- The watchdog leaves its wait only when it is cancelled. -/
  woken : s.watchdog = .woken ∨ s.watchdog = .firing ∨ s.watchdog.gone → s.watchdogCancelled
  unlaunched : s.block = .launching → s.watchdog = .unlaunched
  safe : ¬ s.Lost

theorem Exclusive.init_inv : Exclusive.init.Inv where
  state := by simp [init]
  done := by simp [init]
  woken := by simp [init, Watchdog.gone]
  unlaunched := fun _ => rfl
  safe := by decide

variable {s s' : Exclusive}

theorem Exclusive.cancel_inv (hinv : s.Inv) : Exclusive.Inv { s with cancelled := true } := by
  refine ⟨hinv.state, hinv.done, fun _ => rfl, hinv.unlaunched, ?_⟩
  rintro ⟨-, hgone, hcall, hrun⟩
  -- a watchdog that is gone was cancelled before, and not by the end of the block
  have hcancelled : s.cancelled := by
    have := hinv.woken (.inr (.inr hgone))
    simpa [watchdogCancelled, show s.block = .inCall from hcall, Block.stopped] using this
  exact hinv.safe ⟨hcancelled, hgone, hcall, hrun⟩

theorem Exclusive.dispatch_inv (hinv : s.Inv) (hok : Guarded s .dispatch)
    (hqueued : s.watchdog = .queued) :
    Exclusive.Inv { s with watchdog := if s.watchdogCancelled then .dropped else .waiting } := by
  refine ⟨hinv.state, hinv.done, ?_, ?_, ?_⟩
  · intro h
    by_cases hc : s.watchdogCancelled
    · exact hc
    · simp [hc, Watchdog.gone] at h
  · intro hlaunch
    simp [hinv.unlaunched hlaunch] at hqueued
  · rintro ⟨hcancelled, -, hcall, hrun⟩
    exact hok ⟨hcancelled, hcall, hrun⟩

/-- A step of the watchdog after its wake. -/
theorem Exclusive.watchdog_inv (hinv : s.Inv) (hold : s.watchdogCancelled)
    (hlaunched : s.watchdog ≠ .unlaunched) (hstate : st ≠ .idle ↔ s.state ≠ .idle)
    (hsafe : w.gone → s.block = .inCall → st ≠ .running) :
    Exclusive.Inv { s with watchdog := w, state := st } := by
  refine ⟨hstate.trans hinv.state, hinv.done, fun _ => hold, ?_, ?_⟩
  · exact fun hlaunch => absurd (hinv.unlaunched hlaunch) hlaunched
  · rintro ⟨-, hgone, hcall, hrun⟩
    exact hsafe hgone hcall hrun

theorem Exclusive.beginCall_inv (hinv : s.Inv) (hok : Guarded s .beginCall)
    (hblock : s.block = .between) :
    Exclusive.Inv { s with block := .inCall, state := (runBegin s.state).1 } := by
  have hidle : s.state = .idle := by
    have := hinv.state
    simpa [hblock] using this
  refine ⟨by simp [hidle, runBegin], ?_, ?_, by simp, ?_⟩
  · intro hdone
    have := hinv.done hdone
    simp [hblock] at this
  · intro h
    have := hinv.woken h
    simpa [watchdogCancelled, hblock, Block.stopped] using this
  · rintro ⟨hcancelled, hgone, -, -⟩
    exact hok ⟨hcancelled, hgone⟩

/-- The block goes on, out of every call. -/
theorem Exclusive.block_inv {d : Bool} (hinv : s.Inv) (hcall : b ≠ .inCall)
    (hlaunch : b ≠ .launching) (hstate : st = .idle)
    (hstopped : s.block.stopped → b.stopped)
    (hdone : d → b = .stopping ∨ b = .finished) :
    Exclusive.Inv { s with block := b, state := st, done := d } := by
  refine ⟨by simp [hstate, hcall], hdone, ?_, fun h => absurd h hlaunch, ?_⟩
  · intro h
    have := hinv.woken h
    simp only [watchdogCancelled, Bool.or_eq_true] at this ⊢
    exact this.imp id hstopped
  · rintro ⟨-, -, h, -⟩
    exact hcall h

theorem Exclusive.idle_of_not_inCall (hinv : s.Inv) (h : s.block ≠ .inCall) : s.state = .idle := by
  have := hinv.state
  simpa [h] using this

theorem Exclusive.step_inv (hinv : s.Inv) (hok : Guarded s a) (h : step s a = some s') :
    s'.Inv := by
  cases a <;> simp only [step, Option.ite_none_right_eq_some, Option.some.injEq] at h
  case cancel => exact h ▸ cancel_inv hinv
  case launch =>
    obtain ⟨hblock, rfl⟩ := h
    refine ⟨?_, ?_, by simp [Watchdog.gone], by simp, by simp [Lost]⟩
    · simp [idle_of_not_inCall hinv (by simp [hblock])]
    · intro hdone
      simpa [hblock] using hinv.done hdone
  case dispatch =>
    obtain ⟨hqueued, rfl⟩ := h
    exact dispatch_inv hinv hok hqueued
  case wake =>
    simp only [Bool.and_eq_true, decide_eq_true_eq] at h
    obtain ⟨⟨hwaiting, hcancelled⟩, rfl⟩ := h
    exact watchdog_inv hinv hcancelled (by simp [hwaiting]) .rfl (by simp [Watchdog.gone])
  case load =>
    obtain ⟨hwoken, rfl⟩ := h
    refine watchdog_inv hinv (hinv.woken (.inl hwoken)) (by simp [hwoken]) .rfl ?_
    -- a stored flag means that the last call is over
    intro hgone hcall
    by_cases hdone : s.done
    · have := hinv.done hdone
      simp [hcall] at this
    · simp [hdone, Watchdog.gone] at hgone
  case fire =>
    obtain ⟨hfiring, rfl⟩ := h
    refine watchdog_inv hinv (hinv.woken (.inr (.inl hfiring))) (by simp [hfiring]) ?_ ?_
    · simp [interrupt_eq_idle]
    · intro _ _
      cases s.state <;> simp [kmpjsInterrupt]
  case beginCall =>
    obtain ⟨hblock, rfl⟩ := h
    exact beginCall_inv hinv hok hblock
  case endCall =>
    obtain ⟨hblock, rfl⟩ := h
    refine block_inv hinv (by simp) (by simp) rfl (by simp [hblock, Block.stopped]) ?_
    intro hdone
    simpa [hblock] using hinv.done hdone
  case complete =>
    obtain ⟨hblock, rfl⟩ := h
    refine block_inv hinv (by simp) (by simp) (idle_of_not_inCall hinv (by simp [hblock]))
      (by simp [hblock, Block.stopped]) ?_
    intro hdone
    simpa [hblock] using hinv.done hdone
  case store =>
    obtain ⟨hblock, rfl⟩ := h
    exact block_inv hinv (by simp) (by simp) (idle_of_not_inCall hinv (by simp [hblock]))
      (by simp [hblock, Block.stopped]) (by simp)
  case stop =>
    obtain ⟨hblock, rfl⟩ := h
    exact block_inv hinv (by simp) (by simp) (idle_of_not_inCall hinv (by simp [hblock]))
      (by simp [Block.stopped]) (by simp)

/-- A step against the condition loses the cancellation at once, whenever it
can be taken. -/
theorem Exclusive.step_lost (hinv : s.Inv) (hok : ¬ Guarded s a) (h : step s a = some s') :
    s'.Lost := by
  cases a <;> simp only [Guarded, not_true, Decidable.not_not] at hok
  case dispatch =>
    obtain ⟨hcancelled, hcall, hrun⟩ := hok
    simp only [step, Option.ite_none_right_eq_some, Option.some.injEq] at h
    obtain ⟨-, rfl⟩ := h
    exact ⟨hcancelled, by simp [watchdogCancelled, hcancelled, Watchdog.gone], hcall, hrun⟩
  case beginCall =>
    obtain ⟨hcancelled, hgone⟩ := hok
    simp only [step, Option.ite_none_right_eq_some, Option.some.injEq] at h
    obtain ⟨hblock, rfl⟩ := h
    refine ⟨hcancelled, hgone, rfl, ?_⟩
    simp [idle_of_not_inCall hinv (by simp [hblock]), runBegin]

/-- A run loses no cancellation as long as its steps meet the condition, and
the first step that does not meet it loses the cancellation. -/
theorem cancellation_lost_iff (h : Machine.Reaches Exclusive.step Guarded .init s) :
    ¬ s.Lost ∧ ∀ a s', s.step a = some s' → (s'.Lost ↔ ¬ Guarded s a) := by
  have hinv : s.Inv :=
    h.invariant Exclusive.init_inv fun hinv hok hstep => Exclusive.step_inv hinv hok hstep
  refine ⟨hinv.safe, fun a s' hstep => ⟨?_, fun hok => Exclusive.step_lost hinv hok hstep⟩⟩
  intro hlost hok
  exact (Exclusive.step_inv hinv hok hstep).safe hlost

/-- The caller is cancelled while its script runs, and the watchdog interrupts
the engine. -/
theorem cancellation_lost_iff_fired :
    ¬ (Exclusive.mk true .terminated .inCall false .interrupted).Lost ∧
      ∀ a s', (Exclusive.mk true .terminated .inCall false .interrupted).step a = some s' →
        (s'.Lost ↔ ¬ Guarded (Exclusive.mk true .terminated .inCall false .interrupted) a) := by
  have hrun : Machine.exec Exclusive.step Guarded .init
      [.launch, .dispatch, .beginCall, .cancel, .wake, .load, .fire] =
      some ⟨true, .terminated, .inCall, false, .interrupted⟩ := by decide
  exact cancellation_lost_iff (Machine.reaches_of_exec hrun)

/-- One evaluation, whose caller is cancelled after the launch and before the
watchdog's dispatch: the script runs on and nothing will stop it. -/
theorem cancelled_evaluation_runs_on :
    ¬ ∀ s, Machine.Reaches Exclusive.step Machine.always .init s → ¬ s.Lost := by
  intro h
  have hrun : Machine.exec Exclusive.step Machine.always .init
      [.launch, .cancel, .dispatch, .beginCall] =
      some ⟨true, .dropped, .inCall, false, .running⟩ := by decide
  exact h _ (Machine.reaches_of_exec hrun) (by decide)

end QuickJsKmp
