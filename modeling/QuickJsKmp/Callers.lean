import QuickJsKmp.Runtime
import QuickJsKmp.Lib.Line

/-!
# The callers of a `JsRuntime`

Any number of coroutines call `withEngine`, `close()` and `shutdown()` of one
runtime. A step is one atomic access to a flag, to the mutex or to the engine;
inside `runExclusive` it is a step of `Exclusive`, whose `state` is the one of
the shared engine. The mutex is a line, as kotlinx has it: it is handed over to the
first waiter, `tryLock` fails while anybody holds it or has been handed it, and a
cancelled waiter leaves the line.
-/

namespace QuickJsKmp

/-- `runExclusive` can return: its children have completed, or it was cancelled
before `withContext` got to run it. -/
def Exclusive.left (e : Exclusive) : Bool :=
  e.block = .finished && e.watchdog.gone || e.block = .launching && e.cancelled

namespace Callers

open Parties (System Action Line)

/-- Who set the engine's state to interrupted. -/
inductive Cause
  | nobody
  | watchdog (i : ℕ)
  | closing (i : ℕ)
  deriving DecidableEq, Repr

structure Runtime where
  closed : Bool
  pendingClose : Bool
  /-- The mutex. -/
  line : List ℕ
  engineClosed : Bool
  /-- How often the native engine was closed. -/
  closes : ℕ
  state : RunState
  /-- Nothing reads this one: it records the last interrupt that took effect. -/
  cause : Cause
  deriving DecidableEq, Repr

/-- `mutex.lock()`, or a `tryLock` that succeeds. -/
def Runtime.lock (s : Runtime) (i : ℕ) : Runtime := { s with line := s.line ++ [i] }

/-- `mutex.unlock()`. -/
def Runtime.unlock (s : Runtime) : Runtime := { s with line := s.line.tail }

/-- The waiter is cancelled. It may have been handed the mutex, which then goes
to the next one. -/
def Runtime.abandon (s : Runtime) (i : ℕ) : Runtime := { s with line := s.line.erase i }

/-- The engine's state after an atomic access by one of the callers. -/
def Runtime.setState (s : Runtime) (cause : Cause) (st : RunState) : Runtime :=
  { s with state := st
           cause := if s.state = .running && st = .interrupted then cause else s.cause }

/-- `JsEngine.interrupt`. -/
def Runtime.interrupt (s : Runtime) (i : ℕ) : Runtime :=
  if s.engineClosed then s else s.setState (.closing i) (kmpjsInterrupt s.state)

/-- `JsEngine.close`. -/
def Runtime.closeEngine (s : Runtime) : Runtime :=
  { s with engineClosed := true, closes := if s.engineClosed then s.closes else s.closes + 1 }

/-- What a coroutine does next. `closer` tells the `closeIfPending` of `close()`
from the one that ends `withEngine`. -/
inductive Caller
  -- withEngine
  | lock
  | waiting
  | check
  | exclusive (e : Exclusive)
  | unlock
  -- closeIfPending
  | test (closer : Bool)
  | tryLock (closer : Bool)
  | closePending (closer : Bool)
  | release (closer : Bool)
  -- close()
  | swap
  | interrupt
  | storePending
  -- shutdown()
  | swapShutdown
  | interruptShutdown
  | lockShutdown
  | waitingShutdown
  | closeShutdown
  | unlockShutdown
  | returned (closer : Bool)
  deriving DecidableEq, Repr

def Caller.starts : Caller → Bool
  | .lock | .swap | .swapShutdown => true
  | _ => false

/-- In the mutex's line. -/
def Caller.inLine : Caller → Bool
  | .waiting | .check | .exclusive _ | .unlock | .closePending _ | .release _ => true
  | .waitingShutdown | .closeShutdown | .unlockShutdown => true
  | _ => false

/-- Between a lock and its unlock. -/
def Caller.holds : Caller → Bool
  | .waiting | .waitingShutdown => false
  | c => c.inLine

/-- In a `runExclusive`. -/
def Caller.isExclusive : Caller → Bool
  | .exclusive _ => true
  | _ => false

/-- The block of this caller is in an engine call. -/
def Caller.inCall : Caller → Bool
  | .exclusive e => e.block = .inCall
  | _ => false

inductive Act
  | go
  | cancel
  | leave
  | exclusive (a : ExclusiveAct)
  deriving DecidableEq, Repr

/-- Everything but a cancellation happens by itself. -/
def Act.own : Act → Bool
  | .cancel | .exclusive .cancel => false
  | _ => true

def act (i : ℕ) (s : Runtime) : Caller → Act → Option (Runtime × Caller)
  | .lock, .go => some (s.lock i, if s.line = [] then .check else .waiting)
  | .waiting, .go => if s.line.head? = some i then some (s, .check) else none
  -- lock() throws, and the finally of withEngine goes on
  | .waiting, .cancel => some (s.abandon i, .test false)
  | .check, .go => some (s, if s.closed then .unlock else .exclusive .init)
  | .exclusive e, .exclusive a =>
    (Exclusive.step { e with state := s.state } a).map fun e' =>
      (s.setState (.watchdog i) e'.state, .exclusive e')
  | .exclusive e, .leave => if e.left then some (s, .unlock) else none
  | .unlock, .go => some (s.unlock, .test false)
  | .test closer, .go => some (s, if s.pendingClose then .tryLock closer else .returned closer)
  | .tryLock closer, .go =>
    if s.line = [] then some (s.lock i, .closePending closer)
    else some (s, .returned closer)
  | .closePending closer, .go => some (s.closeEngine, .release closer)
  | .release closer, .go => some (s.unlock, .returned closer)
  | .swap, .go => some ({ s with closed := true }, if s.closed then .returned true else .interrupt)
  | .interrupt, .go => some (s.interrupt i, .storePending)
  | .storePending, .go => some ({ s with pendingClose := true }, .test true)
  | .swapShutdown, .go =>
    some ({ s with closed := true }, if s.closed then .returned true else .interruptShutdown)
  | .interruptShutdown, .go => some (s.interrupt i, .lockShutdown)
  | .lockShutdown, .go =>
    some (s.lock i, if s.line = [] then .closeShutdown else .waitingShutdown)
  | .waitingShutdown, .go => if s.line.head? = some i then some (s, .closeShutdown) else none
  | .closeShutdown, .go => some (s.closeEngine, .unlockShutdown)
  | .unlockShutdown, .go => some (s.unlock, .returned true)
  | _, _ => none

abbrev Coroutines := System Runtime Caller

def step : Coroutines → Action Caller Act → Option Coroutines := System.step Caller.starts act

def init : Coroutines := ⟨⟨false, false, [], false, 0, .idle, .nobody⟩, []⟩

-- ---------------------------------------------------------------------------
-- What a step can do
-- ---------------------------------------------------------------------------

inductive Stepped (i : ℕ) (s : Runtime) : Caller → Runtime → Caller → Prop
  | locked (hfree : s.line = []) : Stepped i s .lock (s.lock i) .check
  | queued : Stepped i s .lock (s.lock i) .waiting
  | resumed (hfirst : s.line.head? = some i) : Stepped i s .waiting s .check
  | cancelled : Stepped i s .waiting (s.abandon i) (.test false)
  | refused (hclosed : s.closed) : Stepped i s .check s .unlock
  | admitted (hopen : s.closed = false) : Stepped i s .check s (.exclusive .init)
  | exclusive (e e' : Exclusive) (a : ExclusiveAct)
      (hstep : Exclusive.step { e with state := s.state } a = some e') :
      Stepped i s (.exclusive e) (s.setState (.watchdog i) e'.state) (.exclusive e')
  | left (e : Exclusive) (hleft : e.left) : Stepped i s (.exclusive e) s .unlock
  | unlocked : Stepped i s .unlock s.unlock (.test false)
  | tested (hpending : s.pendingClose) : Stepped i s (.test closer) s (.tryLock closer)
  | spared (hpending : s.pendingClose = false) : Stepped i s (.test closer) s (.returned closer)
  | tried (hfree : s.line = []) : Stepped i s (.tryLock closer) (s.lock i) (.closePending closer)
  | busy (hbusy : s.line ≠ []) : Stepped i s (.tryLock closer) s (.returned closer)
  | closed : Stepped i s (.closePending closer) s.closeEngine (.release closer)
  | released : Stepped i s (.release closer) s.unlock (.returned closer)
  | lost (hclosed : s.closed) : Stepped i s .swap s (.returned true)
  | won (hopen : s.closed = false) : Stepped i s .swap { s with closed := true } .interrupt
  | interrupted : Stepped i s .interrupt (s.interrupt i) .storePending
  | stored : Stepped i s .storePending { s with pendingClose := true } (.test true)
  | lostShutdown (hclosed : s.closed) : Stepped i s .swapShutdown s (.returned true)
  | wonShutdown (hopen : s.closed = false) :
      Stepped i s .swapShutdown { s with closed := true } .interruptShutdown
  | interruptedShutdown : Stepped i s .interruptShutdown (s.interrupt i) .lockShutdown
  | lockedShutdown (hfree : s.line = []) : Stepped i s .lockShutdown (s.lock i) .closeShutdown
  | queuedShutdown : Stepped i s .lockShutdown (s.lock i) .waitingShutdown
  | resumedShutdown (hfirst : s.line.head? = some i) : Stepped i s .waitingShutdown s .closeShutdown
  | closedShutdown : Stepped i s .closeShutdown s.closeEngine .unlockShutdown
  | unlockedShutdown : Stepped i s .unlockShutdown s.unlock (.returned true)

theorem closed_of_closed {s : Runtime} (h : s.closed) : { s with closed := true } = s := by
  rw [← h]

theorem stepped_of_act (h : act i s c a = some (t, c')) : Stepped i s c t c' := by
  cases c <;> cases a <;> simp only [act, reduceCtorEq, Option.some.injEq, Prod.mk.injEq,
    Option.ite_none_right_eq_some, Option.map_eq_some_iff] at h
  case exclusive.exclusive =>
    obtain ⟨e', hstep, rfl, rfl⟩ := h
    exact .exclusive _ _ _ hstep
  case exclusive.leave =>
    obtain ⟨hleft, rfl, rfl⟩ := h
    exact .left _ hleft
  case tryLock.go =>
    split at h <;> cases h
    · exact .tried ‹_›
    · exact .busy ‹_›
  case waiting.go | waitingShutdown.go =>
    obtain ⟨hfirst, rfl, rfl⟩ := h
    constructor
    exact hfirst
  case swap.go | swapShutdown.go =>
    obtain ⟨rfl, rfl⟩ := h
    cases hclosed : s.closed
    · constructor
      exact hclosed
    · rw [closed_of_closed hclosed]
      constructor
      exact hclosed
  all_goals
    obtain ⟨rfl, rfl⟩ := h
    try split
  all_goals
    constructor <;> simp_all

-- ---------------------------------------------------------------------------
-- The mutex and the flags
-- ---------------------------------------------------------------------------

/-- What the flags are while a coroutine is in this place. -/
def Caller.Ok (s : Runtime) : Caller → Prop
  | .exclusive e => s.engineClosed = false ∧ (e.block ≠ .launching → e.watchdog ≠ .unlaunched)
  | .interrupt | .storePending | .test true | .returned true => s.closed
  | .interruptShutdown | .lockShutdown | .waitingShutdown | .closeShutdown => s.closed
  | .tryLock _ | .closePending _ => s.pendingClose ∧ s.closed
  | .release _ | .unlockShutdown => s.engineClosed ∧ s.closed
  | _ => True

structure Inv (s : Coroutines) : Prop where
  line : Line Caller.inLine Caller.holds s.shared.line s.parties
  each : s.Each fun _ => Caller.Ok
  pending : s.shared.pendingClose → s.shared.closed
  engine : s.shared.engineClosed → s.shared.closed
  closes : s.shared.closes = if s.shared.engineClosed then 1 else 0

variable {s : Coroutines} {r t : Runtime} {c c' q : Caller} {i j : ℕ}

theorem init_inv : Inv init := ⟨.empty, by simp [System.Each, init], by simp [init], by simp [init], rfl⟩

/-- Nobody new is in the line, or knows anything of the flags. -/
theorem enter_inv (h : Inv s) (hc : c.starts) : Inv ⟨s.shared, s.parties ++ [c]⟩ := by
  refine ⟨h.line.enter ?_ ?_, h.each.enter fun _ => ?_, h.pending, h.engine, h.closes⟩ <;>
    cases c <;> first | rfl | trivial

/-- An interrupt is nothing but a new state. -/
@[simp] theorem interrupt_flags (r : Runtime) (i : ℕ) :
    (r.interrupt i).closed = r.closed ∧ (r.interrupt i).pendingClose = r.pendingClose ∧
      (r.interrupt i).line = r.line ∧ (r.interrupt i).engineClosed = r.engineClosed ∧
      (r.interrupt i).closes = r.closes := by
  unfold Runtime.interrupt
  split <;> exact ⟨rfl, rfl, rfl, rfl, rfl⟩

theorem stepped_line (h : Inv s) (hi : s.parties[i]? = some c) (hstep : Stepped i s.shared c t c') :
    Line Caller.inLine Caller.holds t.line (s.parties.set i c') := by
  cases hstep with
  | locked hfree | tried hfree | lockedShutdown hfree => exact h.line.join hi rfl rfl fun _ => hfree
  | queued | queuedShutdown => exact h.line.join hi rfl rfl nofun
  | resumed hfirst | resumedShutdown hfirst => exact h.line.stay hi rfl fun _ => .inr hfirst
  | cancelled => exact h.line.leave hi rfl rfl
  | unlocked | released | unlockedShutdown => exact h.line.unlock hi rfl rfl rfl
  | interrupted | interruptedShutdown =>
    rw [(interrupt_flags s.shared i).2.2.1]
    exact h.line.stay hi rfl nofun
  | refused | admitted | exclusive | left | closed | closedShutdown =>
    exact h.line.stay hi rfl fun _ => .inl rfl
  | _ => exact h.line.stay hi rfl nofun

/-- A flag that is set stays set, and the engine is closed by who holds the mutex. -/
theorem Stepped.flags (hstep : Stepped i r c t c') :
    (r.closed → t.closed) ∧ (r.pendingClose → t.pendingClose) ∧ (r.engineClosed → t.engineClosed) ∧
      (t.engineClosed = r.engineClosed ∨ c.holds ∧ c.isExclusive = false) := by
  cases hstep with
  | interrupted | interruptedShutdown => simp
  | closed | closedShutdown => exact ⟨id, id, fun _ => rfl, .inr ⟨rfl, rfl⟩⟩
  | won | wonShutdown => exact ⟨fun _ => rfl, id, id, .inl rfl⟩
  | stored => exact ⟨id, fun _ => rfl, id, .inl rfl⟩
  | _ => exact ⟨id, id, id, .inl rfl⟩

theorem Caller.Ok.mono (h : q.Ok r) (hstep : Stepped i r c t c')
    (hopen : q.isExclusive → t.engineClosed = r.engineClosed) : q.Ok t := by
  obtain ⟨hclosed, hpending, hengine, -⟩ := hstep.flags
  cases q with
  | exclusive e => exact ⟨(hopen rfl).trans h.1, h.2⟩
  | tryLock | closePending => exact h.imp hpending hclosed
  | release | unlockShutdown => exact h.imp hengine hclosed
  | test closer | returned closer => cases closer <;> first | exact hclosed h | trivial
  | interrupt | storePending | interruptShutdown | lockShutdown | waitingShutdown | closeShutdown =>
    exact hclosed h
  | _ => trivial

/-- A watchdog is launched before its block goes on. -/
theorem exclusive_launched {e e' : Exclusive} (h : e.step a = some e')
    (he : e.block ≠ .launching → e.watchdog ≠ .unlaunched) :
    e'.block ≠ .launching → e'.watchdog ≠ .unlaunched := by
  cases a <;> simp only [Exclusive.step, Option.ite_none_right_eq_some, Option.some.injEq] at h
  case cancel => exact h ▸ he
  all_goals
    obtain ⟨hguard, rfl⟩ := h
    simp_all
  case dispatch | load => split <;> simp

theorem stepped_ok (h : Inv s) (hi : s.parties[i]? = some c) (hstep : Stepped i s.shared c t c') :
    c'.Ok t := by
  have hok := h.each i c hi
  cases hstep with
  | admitted hopen =>
    refine ⟨?_, fun hblock => absurd rfl hblock⟩
    simpa [hopen] using h.engine
  | exclusive e e' a hstep => exact ⟨hok.1, exclusive_launched hstep hok.2⟩
  | tested hpending => exact ⟨hpending, h.pending hpending⟩
  | spared | busy =>
    rename_i closer _
    cases closer
    · trivial
    · first | exact hok | exact hok.2
  | tried => exact hok
  | closed => exact ⟨rfl, hok.2⟩
  | closedShutdown => exact ⟨rfl, hok⟩
  | released =>
    rename_i closer
    cases closer
    · trivial
    · exact hok.2
  | unlockedShutdown => exact hok.2
  | lost hclosed | lostShutdown hclosed => exact hclosed
  | won | wonShutdown => rfl
  | interrupted | interruptedShutdown => exact (interrupt_flags s.shared i).1.trans hok
  | stored | lockedShutdown | queuedShutdown | resumedShutdown => exact hok
  | _ => trivial

/-- The flags alone. -/
theorem stepped_flags (h : Inv s) (hi : s.parties[i]? = some c)
    (hstep : Stepped i s.shared c t c') :
    (t.pendingClose → t.closed) ∧ (t.engineClosed → t.closed) ∧
      t.closes = if t.engineClosed then 1 else 0 := by
  have hok := h.each i c hi
  have hkeep := And.intro h.pending (And.intro h.engine h.closes)
  have hengine : s.shared.closed →
    (s.shared.closeEngine.pendingClose → s.shared.closeEngine.closed) ∧
      (s.shared.closeEngine.engineClosed → s.shared.closeEngine.closed) ∧
      s.shared.closeEngine.closes = if s.shared.closeEngine.engineClosed then 1 else 0 := by
    intro hclosed
    refine ⟨fun _ => hclosed, fun _ => hclosed, ?_⟩
    have hcloses := h.closes
    cases hengine : s.shared.engineClosed <;> simp [Runtime.closeEngine, hengine, hcloses]
  cases hstep with
  | closed => exact hengine hok.2
  | closedShutdown => exact hengine hok
  | interrupted | interruptedShutdown => simpa using hkeep
  | won | wonShutdown => exact ⟨fun _ => rfl, fun _ => rfl, h.closes⟩
  | stored => exact ⟨fun _ => hok, h.engine, h.closes⟩
  | _ => exact hkeep

theorem move_inv (h : Inv s) (hi : s.parties[i]? = some c) (hstep : Stepped i s.shared c t c') :
    Inv ⟨t, s.parties.set i c'⟩ := by
  obtain ⟨hpending, hengine, hcloses⟩ := stepped_flags h hi hstep
  refine ⟨stepped_line h hi hstep, h.each.move (stepped_ok h hi hstep) ?_, hpending,
    hengine, hcloses⟩
  intro j q hne hj hq
  refine hq.mono hstep fun hexclusive => ?_
  -- the one who closes the engine holds the mutex, so that nobody else is in a block
  obtain ⟨-, -, -, hsame | ⟨hholds, -⟩⟩ := hstep.flags
  · exact hsame
  · cases q with
    | exclusive e => exact absurd (h.line.only hj rfl hi hholds) hne
    | _ => cases hexclusive

theorem step_inv (h : Inv s) (hstep : step s a = some s') : Inv s' := by
  cases System.moved_of_step hstep with
  | enter c hc => exact enter_inv h hc
  | move i a c c' t hi hact => exact move_inv h hi (stepped_of_act hact)

end Callers

end QuickJsKmp
