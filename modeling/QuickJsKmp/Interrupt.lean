import QuickJsKmp.Lib.Machine

/-!
# The interrupt state and the calls that take it

One engine thread makes `kmpjs_*` calls, which nest through host callbacks, and
any number of other threads call `kmpjs_interrupt`. A call on the stack is a
frame with the place its C code has reached; what the frame's engine code is
busy with (script, or a host callback) stands beside it. Script is not
modelled: it may run wherever the engine runs it, call the host, throw or
return. One step of the machine is one atomic access to `e->state`, or the code
between two of them.
-/

namespace QuickJsKmp

/-- `e->state`. -/
inductive RunState
  | idle
  | running
  | interrupted
  deriving DecidableEq, Repr

/-- `kmpjs_interrupt`: the compare-and-swap from running to interrupted. -/
def kmpjsInterrupt : RunState → RunState
  | .running => .interrupted
  | st => st

/-- `run_begin`: the new state, and whether this run is the outermost one. -/
def runBegin : RunState → RunState × Bool
  | .idle => (.running, true)
  | st => (st, false)

/-- `run_end`. -/
def runEnd (outermost : Bool) (st : RunState) : RunState :=
  if outermost then .idle else st

-- ---------------------------------------------------------------------------
-- The entry points
-- ---------------------------------------------------------------------------

/-- The functions of the public interface that work on an engine, less the
constructor, the destructor and `kmpjs_interrupt` itself. -/
inductive Entry
  | eval
  | evalModule
  | runBytecode
  | registerModuleBytecode
  | refGet
  | refGetIndex
  | refSet
  | refCall
  | refToJson
  | defineFunction
  | registerModule
  | refRetain
  | refRelease
  | getStats
  | dumpMemory
  deriving DecidableEq, Repr

/-- The function calls `run_begin` (unless it returns before). -/
def Entry.entersRun : Entry → Bool
  | .eval | .evalModule | .runBytecode | .registerModuleBytecode => true
  | .refGet | .refGetIndex | .refSet | .refCall | .refToJson => true
  | _ => false

/-- The function ends in `finish` (unless it returns before). -/
def Entry.finishes : Entry → Bool
  | .eval | .evalModule | .runBytecode => true
  | .refGet | .refGetIndex | .refSet | .refCall | .refToJson => true
  | _ => false

/-- The `unwrap` argument the function gives to `finish`. -/
def Entry.unwraps : Entry → Bool
  | .eval | .evalModule | .runBytecode | .refCall => true
  | _ => false

/-- The function can return before any `run_begin`, with this failure flag. -/
def Entry.leaves : Entry → Bool → Bool
  -- the name is taken; the header or the kind is wrong; the ref is invalid
  | .evalModule, failed | .registerModuleBytecode, failed => failed
  | .refGet, failed | .refGetIndex, failed | .refSet, failed | .refCall, failed => failed
  -- a function has no JSON text
  | .refToJson, _ => true
  -- the id does not fit
  | .defineFunction, failed => failed
  | .registerModule, _ => true
  | .refRetain, failed | .refRelease, failed => !failed
  | .getStats, failed | .dumpMemory, failed => !failed
  | .eval, _ | .runBytecode, _ => false

/-- The function can return after its `run_begin` without `finish`, with this
failure flag. -/
def Entry.exits : Entry → Bool → Bool
  | .eval, failed | .evalModule, failed | .runBytecode, failed | .refCall, failed => failed
  | .registerModuleBytecode, _ => true
  | .defineFunction, _ => true
  | _, _ => false

-- ---------------------------------------------------------------------------
-- Frames
-- ---------------------------------------------------------------------------

/-- Where a call's C code is. `late` marks the second drain and report of
`finish`, after the conversion. -/
inductive Pc
  | guard
  | body
  | firstCheck
  | check (late : Bool)
  | job (late : Bool)
  | discard (late : Bool)
  | unwrap
  | report (late : Bool)
  | convert
  | convertError
  | ending
  | returned
  deriving DecidableEq, Repr

/-- The engine can run script here: `JS_Eval` and its like, a job, a conversion
to text. `discard_jobs` leaves script no stack to run on. -/
def Pc.runsScript : Pc → Bool
  | .body | .job _ | .report _ | .convert | .convertError => true
  | _ => false

/-- In `drain_jobs` or `report_rejections`. -/
def Pc.drains : Pc → Bool
  | .firstCheck | .check _ | .job _ | .discard _ | .report _ => true
  | _ => false

/-- After `run_begin` and before the first check of `drain_jobs`. -/
def Pc.early : Pc → Bool
  | .body | .firstCheck => true
  | _ => false

/-- What a frame's engine code is busy with. `host true` is a host callback
that script called. -/
inductive Busy
  | native
  | script
  | host (fromScript : Bool)
  deriving DecidableEq, Repr

/-- A call on the stack. `hit`, `taken` and `stopped` are not in the program:
an interrupt came before the first check, an interrupt came during the run, and
an interrupt made the call or its script give up. -/
structure Frame where
  entry : Entry
  pc : Pc
  outermost : Bool
  failed : Bool
  busy : Busy
  hit : Bool
  taken : Bool
  stopped : Bool
  deriving DecidableEq, Repr

def Frame.start (e : Entry) : Frame := ⟨e, .guard, false, false, .native, false, false, false⟩

/-- Between its `run_begin` and its `run_end`. -/
def Frame.inRun (f : Frame) : Bool :=
  f.entry.entersRun && f.pc ≠ .guard && f.pc ≠ .returned

/-- The outermost call, in its run. -/
def Frame.owns (f : Frame) : Bool := f.outermost && f.inRun

/-- Script of this call is on the engine's stack. -/
def Frame.onScript (f : Frame) : Bool := f.busy = .script || f.busy = .host true

/-- A host callback can be called here with no script in between: the module
loader, for a static import or from the job of a dynamic one, or the handler of
a rejection. -/
def Frame.callsOut (f : Frame) : Bool :=
  match f.pc with
  | .body => f.entry = .evalModule || f.entry = .runBytecode
  | .job _ | .discard _ | .report _ => true
  | _ => false

/-- What follows the first drain. -/
def Frame.afterDrain (f : Frame) : Pc :=
  if !f.failed && f.entry.unwraps then .unwrap
  else if f.outermost then .report false
  else .convert

/-- How the conversion of the result ends: nothing left to do, work queued
meanwhile, or an exception. -/
inductive Converted
  | done
  | more
  | threw
  deriving DecidableEq, Repr

/-- The steps of one call. -/
inductive Move
  | leave (failed : Bool)
  | begin
  | store
  | exit (failed : Bool)
  | finish (threw : Bool)
  | test
  | jobDone
  | jobFailed
  | drained
  | discarded
  | unwrapped (threw : Bool)
  | reported
  | converted (how : Converted)
  | errorConverted
  | runEnd
  | script
  | scriptDone
  | poll
  | callHost
  | callOut
  | resume
  deriving DecidableEq, Repr

/-- The C code of a call, with the engine's own code not busy elsewhere. -/
def Frame.advanceNative (st : RunState) (f : Frame) : Pc → Move → Option (RunState × Frame)
  | .guard, .leave failed =>
    if f.entry.leaves failed then some (st, { f with pc := .returned, failed }) else none
  | .guard, .begin =>
    if f.entry.entersRun then
      some ((runBegin st).1, { f with pc := .body, outermost := (runBegin st).2 })
    else none
  -- kmpjs_define_function goes on to the property store with no run_begin
  | .guard, .store => if f.entry = .defineFunction then some (st, { f with pc := .body }) else none
  | .body, .exit failed =>
    if f.entry.exits failed then
      some (st, { f with pc := if f.entry.entersRun then .ending else .returned, failed })
    else none
  | .body, .finish threw =>
    if f.entry.finishes then
      let f := { f with failed := threw }
      some (st, { f with pc := if f.outermost then .firstCheck else f.afterDrain })
    else none
  | .firstCheck, .test =>
    if st = .interrupted then some (st, { f with pc := .discard false, stopped := true })
    else some (st, { f with pc := .job false })
  | .check late, .test =>
    if st = .interrupted then some (st, { f with pc := .discard late, stopped := true })
    else some (st, { f with pc := .job late })
  | .job late, .jobDone => some (st, { f with pc := .check late })
  | .job late, .jobFailed => some (st, { f with pc := .discard late })
  | .job late, .drained =>
    some (st, { f with pc := if late then .report true else f.afterDrain })
  | .discard late, .discarded =>
    let f := { f with failed := true }
    some (st, { f with pc := if late then .convertError else f.afterDrain })
  | .unwrap, .unwrapped threw =>
    some (st, { f with
      failed := f.failed || threw
      pc := if f.outermost then .report false else .convert })
  | .report late, .reported => some (st, { f with pc := if late then .ending else .convert })
  | .convert, .converted how =>
    if f.failed then some (st, { f with pc := .ending })
    else match how with
      | .done => some (st, { f with pc := .ending })
      | .more => if f.outermost then some (st, { f with pc := .check true }) else none
      | .threw => some (st, { f with pc := .convertError, failed := true })
  | .convertError, .errorConverted => some (st, { f with pc := .ending })
  | .ending, .runEnd => some (runEnd f.outermost st, { f with pc := .returned })
  | pc, .script =>
    if pc.runsScript then some (st, { f with busy := .script }) else none
  | _, .callOut =>
    if f.callsOut then some (st, { f with busy := .host false }) else none
  | _, _ => none

def Frame.advance (st : RunState) (f : Frame) (m : Move) : Option (RunState × Frame) :=
  match f.busy, m with
  | .native, m => f.advanceNative st f.pc m
  | .script, .scriptDone => some (st, { f with busy := .native })
  -- kmp_interrupt_handler answers 1 and the script unwinds
  | .script, .poll =>
    if st = .interrupted then some (st, { f with busy := .native, stopped := true }) else none
  | .script, .callHost => some (st, { f with busy := .host true })
  | .host fromScript, .resume =>
    some (st, { f with busy := if fromScript then .script else .native })
  | _, _ => none

/-- An interrupt, as the running outermost call records it. -/
def Frame.mark (f : Frame) : Frame :=
  if f.owns then { f with taken := true, hit := f.hit || f.pc.early } else f

-- ---------------------------------------------------------------------------
-- The machine
-- ---------------------------------------------------------------------------

/-- The interrupt state and the calls on the stack, the innermost one first. -/
structure Calls where
  state : RunState
  stack : List Frame
  deriving DecidableEq, Repr

def Calls.init : Calls := ⟨.idle, []⟩

inductive CallAct
  | enter (e : Entry)
  | move (m : Move)
  | ret
  | interrupt
  deriving DecidableEq, Repr

/-- A call is made by the thread's own code or by a host callback. -/
def Calls.mayEnter (s : Calls) : Bool :=
  match s.stack with
  | [] => true
  | f :: _ => f.busy = .host true || f.busy = .host false

def Calls.step (s : Calls) : CallAct → Option Calls
  | .enter e => if s.mayEnter then some { s with stack := .start e :: s.stack } else none
  | .move m =>
    match s.stack with
    | [] => none
    | f :: rest => (f.advance s.state m).map fun (st, f') => ⟨st, f' :: rest⟩
  | .ret =>
    match s.stack with
    | [] => none
    | f :: rest => if f.pc = .returned then some { s with stack := rest } else none
  | .interrupt => some ⟨kmpjsInterrupt s.state, s.stack.map Frame.mark⟩

theorem step_enter (h : Calls.step s (.enter e) = some s') :
    s.mayEnter ∧ s' = { s with stack := .start e :: s.stack } := by
  simp only [Calls.step] at h
  split at h
  · exact ⟨‹_›, (Option.some.inj h).symm⟩
  · cases h

theorem step_move (h : Calls.step s (.move m) = some s') :
    ∃ f rest st f', s.stack = f :: rest ∧ f.advance s.state m = some (st, f') ∧
      s' = ⟨st, f' :: rest⟩ := by
  simp only [Calls.step] at h
  split at h
  · cases h
  · rename_i f rest hs
    simp only [Option.map_eq_some_iff, Prod.exists] at h
    obtain ⟨st, f', hadv, rfl⟩ := h
    exact ⟨f, rest, st, f', hs, hadv, rfl⟩

theorem step_ret (h : Calls.step s .ret = some s') :
    ∃ f rest, s.stack = f :: rest ∧ f.pc = .returned ∧ s' = { s with stack := rest } := by
  simp only [Calls.step] at h
  split at h
  · cases h
  · rename_i f rest hs
    split at h
    · exact ⟨f, rest, hs, ‹_›, (Option.some.inj h).symm⟩
    · cases h

-- ---------------------------------------------------------------------------
-- What one step of a call can do
-- ---------------------------------------------------------------------------

/-- The facts about one frame that no step breaks. -/
structure Frame.Ok (f : Frame) : Prop where
  outermost : f.outermost → f.entry.entersRun ∧ f.pc ≠ .guard
  hit : f.hit → f.outermost
  drains : f.pc.drains → f.outermost
  busy : f.busy ≠ .native → f.pc ≠ .guard ∧ f.pc ≠ .returned
  inside : f.pc ≠ .guard → f.pc ≠ .returned →
    f.entry.entersRun ∨ f.entry = .defineFunction ∧ f.pc = .body

/-- An interrupt before the first check is flagged as long as that check is
ahead, and after it the call has failed or is about to. -/
def Frame.Heeds (st : RunState) (f : Frame) : Prop :=
  f.hit → f.entry.finishes →
    if f.pc.early then st = .interrupted else f.failed ∨ f.pc = .discard false

/-- The three kinds of steps: `run_begin`, `run_end`, and those that leave the
state as it is. -/
inductive Frame.Change (st : RunState) (f f' : Frame) : RunState → Prop
  | begin (guard : f.pc = .guard) (inRun : f'.inRun)
      (outer : f'.outermost = (runBegin st).2) : Change st f f' (runBegin st).1
  | ending (inRun : f.inRun) (returned : f'.pc = .returned)
      (same : f'.outermost = f.outermost) : Change st f f' (runEnd f.outermost st)
  | inside (same : f'.outermost = f.outermost) (inRun : f'.inRun = f.inRun) : Change st f f' st

/-- What one step of a call does to its frame and to the state. -/
structure Frame.Steps (st : RunState) (f : Frame) (st' : RunState) (f' : Frame) : Prop where
  taken : f'.taken = f.taken
  stopped : f'.stopped → f.stopped ∨ st = .interrupted
  change : Change st f f' st'
  ok : f'.Ok
  heeds : f.Heeds st → f'.Heeds st'

variable {f f' : Frame} {st st' : RunState} {pc : Pc} {failed stopped : Bool} {busy : Busy}

theorem afterDrain_drains (f : Frame) (h : f.afterDrain.drains) : f.outermost := by
  simp only [Frame.afterDrain] at h
  split at h
  · cases h
  · split at h
    · assumption
    · cases h

theorem afterDrain_inside (f : Frame) :
    f.afterDrain ≠ .guard ∧ f.afterDrain ≠ .returned ∧ f.afterDrain.early = false := by
  simp only [Frame.afterDrain]
  split
  · simp [Pc.early]
  · split <;> simp [Pc.early]

theorem exits_failed {e : Entry} (h : e.exits failed) (hf : e.finishes) : failed = true := by
  cases e <;> simp_all [Entry.exits, Entry.finishes]

theorem finishes_entersRun {e : Entry} (h : e.finishes) : e.entersRun := by
  cases e <;> simp_all [Entry.entersRun, Entry.finishes]

theorem Frame.Ok.entersRun (hok : f.Ok) (hguard : f.pc ≠ .guard) (hret : f.pc ≠ .returned)
    (hbody : f.pc ≠ .body) : f.entry.entersRun := by
  rcases hok.inside hguard hret with h | ⟨-, h⟩
  · exact h
  · exact absurd h hbody

/-- A step inside a run, or inside `kmpjs_define_function`. -/
theorem steps_goto (hok : f.Ok) (hpc : f.pc ≠ .guard ∧ f.pc ≠ .returned)
    (hpc' : pc ≠ .guard ∧ pc ≠ .returned) (hrun : f.entry.entersRun ∨ pc = f.pc)
    (hdrains : pc.drains → f.outermost)
    (hstop : stopped → f.stopped ∨ st = .interrupted)
    (hheeds : f.Heeds st → Frame.Heeds st { f with pc, failed, stopped, busy }) :
    f.Steps st st { f with pc, failed, stopped, busy } where
  taken := rfl
  stopped := hstop
  change := .inside rfl (by simp [Frame.inRun, hpc, hpc'])
  ok := {
    outermost := fun h => ⟨(hok.outermost h).1, hpc'.1⟩
    hit := hok.hit
    drains := hdrains
    busy := fun _ => hpc'
    inside := fun _ _ => hrun.elim .inl fun h => h ▸ hok.inside hpc.1 hpc.2 }
  heeds := hheeds

theorem leave_steps (hok : f.Ok) (hpc : f.pc = .guard) :
    f.Steps st st { f with pc := .returned, failed } := by
  have hout : f.outermost = false := by
    have := hok.outermost
    simpa [hpc] using this
  refine ⟨rfl, .inl, .inside rfl (by simp [Frame.inRun, hpc]), ⟨?_, hok.hit, ?_, ?_, ?_⟩, ?_⟩
  · simp [hout]
  · simp [Pc.drains]
  · intro hbusy
    simp [hok.busy hbusy] at hpc
  · simp
  · intro _ hhit
    simp [hok.hit hhit] at hout

theorem begin_steps (hok : f.Ok) (hpc : f.pc = .guard) (henters : f.entry.entersRun) :
    f.Steps st (runBegin st).1 { f with pc := .body, outermost := (runBegin st).2 } := by
  have hhit : f.hit = false := by
    have := fun h => (hok.outermost (hok.hit h)).2
    simpa [hpc] using this
  refine ⟨rfl, .inl, .begin hpc (by simp [Frame.inRun, henters]) rfl, ⟨?_, ?_, ?_, ?_, ?_⟩, ?_⟩
  · simp [henters]
  · simp [hhit]
  · simp [Pc.drains]
  · simp
  · simp [henters]
  · simp [Frame.Heeds, hhit]

theorem store_steps (hok : f.Ok) (hpc : f.pc = .guard) (hdef : f.entry = .defineFunction) :
    f.Steps st st { f with pc := .body } := by
  have hout : f.outermost = false := by
    have := hok.outermost
    simpa [hpc] using this
  have hhit : f.hit = false := by
    have := hok.hit
    simpa [hout] using this
  refine ⟨rfl, .inl, .inside rfl ?_, ⟨?_, ?_, ?_, ?_, ?_⟩, ?_⟩
  · simp [Frame.inRun, hdef, Entry.entersRun]
  · simp [hout]
  · simp [hhit]
  · simp [Pc.drains]
  · simp
  · simp [hdef]
  · simp [Frame.Heeds, hhit]

theorem exit_steps (hok : f.Ok) (hnative : f.busy = .native) (hpc : f.pc = .body)
    (hexits : f.entry.exits failed) :
    f.Steps st st { f with pc := if f.entry.entersRun then .ending else .returned, failed } := by
  by_cases henters : f.entry.entersRun
  · rw [if_pos henters]
    refine steps_goto hok (by simp [hpc]) (by simp) (.inl henters) (by simp [Pc.drains]) .inl ?_
    intro _ _ hfin
    simp [Pc.early, exits_failed hexits hfin]
  · have hout : f.outermost = false := by
      have := fun h => (hok.outermost h).1
      simpa [henters] using this
    have hhit : f.hit = false := by
      have := hok.hit
      simpa [hout] using this
    rw [if_neg henters]
    refine ⟨rfl, .inl, .inside rfl ?_, ⟨?_, hok.hit, ?_, ?_, ?_⟩, ?_⟩
    · simp [Frame.inRun, henters]
    · simp [hout]
    · simp [Pc.drains]
    · simp [hnative]
    · simp
    · simp [Frame.Heeds, hhit]

theorem finish_steps (hok : f.Ok) (hpc : f.pc = .body) (hfin : f.entry.finishes) :
    f.Steps st st { f with
      pc := if f.outermost then .firstCheck else Frame.afterDrain { f with failed }
      failed } := by
  have henters := finishes_entersRun hfin
  by_cases hout : f.outermost
  · rw [if_pos hout]
    refine steps_goto hok (by simp [hpc]) (by simp) (.inl henters) (fun _ => hout) .inl ?_
    intro hh hhit hfin
    simpa [hpc, Pc.early] using hh hhit hfin
  · rw [if_neg hout]
    have hin := afterDrain_inside { f with failed }
    refine steps_goto hok (by simp [hpc]) ⟨hin.1, hin.2.1⟩ (.inl henters)
      (afterDrain_drains { f with failed }) .inl ?_
    intro _ hhit
    exact absurd (hok.hit hhit) hout

theorem test_steps (hok : f.Ok) (hpc : f.pc = .firstCheck ∧ late = false ∨ f.pc = .check late) :
    (st = .interrupted → f.Steps st st { f with pc := .discard late, stopped := true }) ∧
    (st ≠ .interrupted → f.Steps st st { f with pc := .job late }) := by
  have hout : f.outermost := by
    apply hok.drains
    rcases hpc with ⟨hpc, -⟩ | hpc <;> simp [hpc, Pc.drains]
  have hin : f.pc ≠ .guard ∧ f.pc ≠ .returned := by
    rcases hpc with ⟨hpc, -⟩ | hpc <;> simp [hpc]
  have henters := (hok.outermost hout).1
  refine ⟨fun hst => ?_, fun hst => ?_⟩
  · refine steps_goto hok hin (by simp) (.inl henters) (fun _ => hout) (fun _ => .inr hst) ?_
    intro hh hhit hfin
    have := hh hhit hfin
    rcases hpc with ⟨hpc, rfl⟩ | hpc
    · simp [Pc.early]
    · simp_all [Pc.early]
  · refine steps_goto hok hin (by simp) (.inl henters) (fun _ => hout) .inl ?_
    intro hh hhit hfin
    have := hh hhit hfin
    rcases hpc with ⟨hpc, rfl⟩ | hpc
    · simp_all [Pc.early]
    · simp_all [Pc.early]

/-- A step past the first check that stays in the run. -/
theorem late_steps (hok : f.Ok) (hpc : f.pc ≠ .guard ∧ f.pc ≠ .returned ∧ f.pc.early = false)
    (hnot : f.pc ≠ .discard false ∨ failed) (hpc' : pc ≠ .guard ∧ pc ≠ .returned ∧ pc.early = false)
    (hdrains : pc.drains → f.outermost) (hfail : f.failed → failed) :
    f.Steps st st { f with pc, failed } := by
  have hbody : f.pc ≠ .body := by
    intro h
    simp [h, Pc.early] at hpc
  refine steps_goto hok ⟨hpc.1, hpc.2.1⟩ ⟨hpc'.1, hpc'.2.1⟩
    (.inl (hok.entersRun hpc.1 hpc.2.1 hbody)) hdrains .inl ?_
  intro hh hhit hfin
  have h := hh hhit hfin
  simp only [hpc, Bool.false_eq_true, if_false] at h
  simp only [hpc', Bool.false_eq_true, if_false]
  rcases hnot with hnot | hnot
  · exact .inl (hfail (h.resolve_right hnot))
  · exact .inl hnot

theorem runEnd_steps (hok : f.Ok) (hnative : f.busy = .native) (hpc : f.pc = .ending) :
    f.Steps st (runEnd f.outermost st) { f with pc := .returned } := by
  have henters := hok.entersRun (by simp [hpc]) (by simp [hpc]) (by simp [hpc])
  refine ⟨rfl, .inl, .ending ?_ rfl rfl, ⟨?_, hok.hit, ?_, ?_, ?_⟩, ?_⟩
  · simp [Frame.inRun, henters, hpc]
  · simp [henters]
  · simp [Pc.drains]
  · simp [hnative]
  · simp
  · intro hh hhit hfin
    simpa [hpc, Pc.early] using hh hhit hfin

theorem busy_steps (hok : f.Ok) (hpc : f.pc ≠ .guard ∧ f.pc ≠ .returned)
    (hstop : stopped → f.stopped ∨ st = .interrupted) :
    f.Steps st st { f with busy, stopped } :=
  steps_goto hok hpc hpc (.inr rfl) hok.drains hstop id

theorem runsScript_inside (h : pc.runsScript) : pc ≠ .guard ∧ pc ≠ .returned := by
  cases pc <;> simp_all [Pc.runsScript]

theorem callsOut_inside (h : f.callsOut) : f.pc ≠ .guard ∧ f.pc ≠ .returned := by
  simp only [Frame.callsOut] at h
  split at h <;> simp_all

theorem advanceNative_steps (hok : f.Ok) (hnative : f.busy = .native)
    (h : f.advanceNative st f.pc m = some (st', f')) : f.Steps st st' f' := by
  generalize hpc : f.pc = pc at h
  unfold Frame.advanceNative at h
  split at h
  case h_1 =>
    split at h
    · cases h
      exact leave_steps hok hpc
    · cases h
  case h_2 =>
    split at h
    · cases h
      exact begin_steps hok hpc ‹_›
    · cases h
  case h_3 =>
    split at h
    · cases h
      exact store_steps hok hpc ‹_›
    · cases h
  case h_4 =>
    split at h
    · cases h
      exact exit_steps hok hnative hpc ‹_›
    · cases h
  case h_5 =>
    split at h
    · cases h
      exact finish_steps hok hpc ‹_›
    · cases h
  case h_6 =>
    split at h
    · cases h
      exact (test_steps hok (.inl ⟨hpc, rfl⟩)).1 ‹_›
    · cases h
      exact (test_steps hok (.inl ⟨hpc, rfl⟩)).2 ‹_›
  case h_7 =>
    split at h
    · cases h
      exact (test_steps hok (.inr hpc)).1 ‹_›
    · cases h
      exact (test_steps hok (.inr hpc)).2 ‹_›
  case h_8 | h_9 =>
    cases h
    have hout := hok.drains (by simp [hpc, Pc.drains])
    exact late_steps hok (by simp [hpc, Pc.early]) (.inl (by simp [hpc])) (by simp [Pc.early])
      (fun _ => hout) id
  case h_10 late =>
    cases h
    have hout := hok.drains (by simp [hpc, Pc.drains])
    refine late_steps hok (by simp [hpc, Pc.early]) (.inl (by simp [hpc])) ?_ (fun _ => hout) id
    cases late
    · exact afterDrain_inside f
    · simp [Pc.early]
  case h_11 late =>
    cases h
    have hout := hok.drains (by simp [hpc, Pc.drains])
    refine late_steps hok (by simp [hpc, Pc.early]) (.inr rfl) ?_ (fun _ => hout) (fun _ => rfl)
    cases late
    · exact afterDrain_inside { f with failed := true }
    · simp [Pc.early]
  case h_12 =>
    cases h
    refine late_steps hok (by simp [hpc, Pc.early]) (.inl (by simp [hpc])) ?_ ?_ (by simp_all)
    · split <;> simp [Pc.early]
    · split <;> simp_all [Pc.drains]
  case h_13 late =>
    cases h
    refine late_steps hok (by simp [hpc, Pc.early]) (.inl (by simp [hpc])) ?_ ?_ id
    · cases late <;> simp [Pc.early]
    · cases late <;> simp [Pc.drains]
  case h_14 how =>
    have hlate : f.pc ≠ .guard ∧ f.pc ≠ .returned ∧ f.pc.early = false := by
      simp [hpc, Pc.early]
    have hnot : f.pc ≠ .discard false := by simp [hpc]
    split at h
    · cases h
      exact late_steps hok hlate (.inl hnot) (by simp [Pc.early]) (by simp [Pc.drains]) id
    · cases how with
      | done =>
        cases h
        exact late_steps hok hlate (.inl hnot) (by simp [Pc.early]) (by simp [Pc.drains]) id
      | more =>
        simp only at h
        split at h
        · cases h
          exact late_steps hok hlate (.inl hnot) (by simp [Pc.early]) (fun _ => ‹_›) id
        · cases h
      | threw =>
        cases h
        exact late_steps hok hlate (.inr rfl) (by simp [Pc.early]) (by simp [Pc.drains])
          (fun _ => rfl)
  case h_15 =>
    cases h
    exact late_steps hok (by simp [hpc, Pc.early]) (.inl (by simp [hpc])) (by simp [Pc.early])
      (by simp [Pc.drains]) id
  case h_16 =>
    cases h
    exact runEnd_steps hok hnative hpc
  case h_17 =>
    subst hpc
    split at h
    · cases h
      exact busy_steps hok (runsScript_inside ‹_›) .inl
    · cases h
  case h_18 =>
    split at h
    · cases h
      exact busy_steps hok (callsOut_inside ‹_›) .inl
    · cases h
  case h_19 => cases h

theorem advance_steps (hok : f.Ok) (h : f.advance st m = some (st', f')) : f.Steps st st' f' := by
  unfold Frame.advance at h
  split at h
  · exact advanceNative_steps hok ‹_› h
  · cases h
    exact busy_steps hok (hok.busy (by simp [*])) .inl
  · split at h
    · cases h
      exact busy_steps hok (hok.busy (by simp [*])) (fun _ => .inr ‹_›)
    · cases h
  · cases h
    exact busy_steps hok (hok.busy (by simp [*])) .inl
  · cases h
    exact busy_steps hok (hok.busy (by simp [*])) .inl
  · cases h

-- ---------------------------------------------------------------------------
-- The invariant
-- ---------------------------------------------------------------------------

/-- The call at the bottom of the stack is the outermost one, and the only one. -/
def Owned : List Frame → Prop
  | [] => False
  | f :: rest => rest = [] ∧ f.owns ∨ f.outermost = false ∧ Owned rest

structure Calls.Inv (s : Calls) : Prop where
  frames : ∀ f ∈ s.stack, f.Ok ∧ f.Heeds s.state
  calm : s.state = .idle → s.stack.length ≤ 1 ∧ ∀ f ∈ s.stack, f.inRun = false
  owned : s.state ≠ .idle → Owned s.stack
  taken : s.state = .interrupted → ∀ f ∈ s.stack, f.owns → f.taken
  stopped : ∀ f ∈ s.stack, f.stopped → ∃ o ∈ s.stack, o.outermost ∧ o.taken

variable {s s' : Calls}

theorem owned_owner (h : Owned fs) : ∃ o ∈ fs, o.owns := by
  induction fs with
  | nil => exact h.elim
  | cons f rest ih =>
    rcases h with ⟨-, hown⟩ | ⟨-, hrest⟩
    · exact ⟨f, by simp, hown⟩
    · obtain ⟨o, ho, hown⟩ := ih hrest
      exact ⟨o, by simp [ho], hown⟩

theorem Calls.Inv.owner (hinv : s.Inv) (hst : s.state = .interrupted) :
    ∃ o ∈ s.stack, o.outermost ∧ o.taken := by
  obtain ⟨o, ho, hown⟩ := owned_owner (hinv.owned (by simp [hst]))
  refine ⟨o, ho, ?_, hinv.taken hst o ho hown⟩
  simp only [Frame.owns, Bool.and_eq_true] at hown
  exact hown.1

theorem init_inv : Calls.init.Inv where
  frames := by simp [Calls.init]
  calm := by simp [Calls.init]
  owned := by simp [Calls.init]
  taken := by simp [Calls.init]
  stopped := by simp [Calls.init]

/-- No call is made from inside `kmpjs_define_function` while the state is idle. -/
def EntersInRun (s : Calls) : CallAct → Prop
  | .enter _ => (∃ f ∈ s.stack, f.entry = .defineFunction) → s.state ≠ .idle
  | _ => True

instance : ∀ s a, Decidable (EntersInRun s a)
  | s, .enter _ =>
    inferInstanceAs (Decidable ((∃ f ∈ s.stack, f.entry = .defineFunction) → s.state ≠ .idle))
  | _, .move _ | _, .ret | _, .interrupt => .isTrue trivial

theorem start_ok (e : Entry) : (Frame.start e).Ok ∧ (Frame.start e).Heeds st := by
  refine ⟨⟨?_, ?_, ?_, ?_, ?_⟩, ?_⟩ <;> simp [Frame.start, Pc.drains, Frame.Heeds]

theorem enter_inv (hinv : s.Inv) (hok : EntersInRun s (.enter e))
    (h : Calls.step s (.enter e) = some s') : s'.Inv := by
  obtain ⟨hmay, rfl⟩ := step_enter h
  refine ⟨?_, ?_, ?_, ?_, ?_⟩
  · intro f hf
    rcases List.mem_cons.mp hf with rfl | hf
    · exact start_ok e
    · exact hinv.frames f hf
  · intro hidle
    have hempty : s.stack = [] := by
      cases hs : s.stack with
      | nil => rfl
      | cons f rest =>
        have hf : f ∈ s.stack := by simp [hs]
        have hbusy : f.busy ≠ .native := by
          intro hn
          simp [Calls.mayEnter, hs, hn] at hmay
        have hin := (hinv.frames f hf).1.busy hbusy
        rcases (hinv.frames f hf).1.inside hin.1 hin.2 with hrun | ⟨hdef, -⟩
        · have := (hinv.calm hidle).2 f hf
          simp [Frame.inRun, hrun, hin] at this
        · exact absurd hidle (hok ⟨f, hf, hdef⟩)
    simp [hempty, Frame.start, Frame.inRun]
  · intro hst
    exact .inr ⟨rfl, hinv.owned hst⟩
  · intro hst f hf hown
    rcases List.mem_cons.mp hf with rfl | hf
    · simp [Frame.start, Frame.owns] at hown
    · exact hinv.taken hst f hf hown
  · intro f hf hstop
    rcases List.mem_cons.mp hf with rfl | hf
    · simp [Frame.start] at hstop
    · obtain ⟨o, ho, hout⟩ := hinv.stopped f hf hstop
      exact ⟨o, List.mem_cons_of_mem _ ho, hout⟩

theorem ret_inv (hinv : s.Inv) (h : Calls.step s .ret = some s') : s'.Inv := by
  obtain ⟨f, rest, hs, hpc, rfl⟩ := step_ret h
  have hmem : ∀ g ∈ rest, g ∈ s.stack := fun g hg => by simp [hs, hg]
  refine ⟨fun g hg => hinv.frames g (hmem g hg), ?_, ?_, ?_, ?_⟩
  · intro hidle
    have hcalm := hinv.calm hidle
    refine ⟨?_, fun g hg => hcalm.2 g (hmem g hg)⟩
    have := hcalm.1
    simp only [hs, List.length_cons] at this
    simp only
    omega
  · intro hst
    have howned := hinv.owned hst
    rw [hs] at howned
    rcases howned with ⟨-, hown⟩ | ⟨-, hrest⟩
    · simp [Frame.owns, Frame.inRun, hpc] at hown
    · exact hrest
  · exact fun hst g hg => hinv.taken hst g (hmem g hg)
  · intro g hg hstop
    obtain ⟨o, ho, hout, htaken⟩ := hinv.stopped g (hmem g hg) hstop
    rw [hs] at ho
    rcases List.mem_cons.mp ho with rfl | ho
    · -- the frame that returns is not the outermost one: a call is left below it
      have hst : s.state ≠ .idle := by
        intro hidle
        have := (hinv.calm hidle).1
        have := List.length_pos_of_mem hg
        simp only [hs, List.length_cons] at *
        omega
      have howned := hinv.owned hst
      rw [hs] at howned
      rcases howned with ⟨rfl, -⟩ | ⟨hno, -⟩
      · simp at hg
      · simp [hno] at hout
    · exact ⟨o, ho, hout, htaken⟩

theorem mark_outermost (f : Frame) : f.mark.outermost = f.outermost := by
  unfold Frame.mark; split <;> rfl

theorem mark_inRun (f : Frame) : f.mark.inRun = f.inRun := by
  unfold Frame.mark; split <;> rfl

theorem mark_owns (f : Frame) : f.mark.owns = f.owns := by
  simp [Frame.owns, mark_outermost, mark_inRun]

theorem mark_stopped (f : Frame) : f.mark.stopped = f.stopped := by
  unfold Frame.mark; split <;> rfl

theorem mark_busy (f : Frame) : f.mark.busy = f.busy := by
  unfold Frame.mark; split <;> rfl

theorem mark_taken (f : Frame) (h : f.taken ∨ f.owns) : f.mark.taken := by
  unfold Frame.mark
  split
  · rfl
  · exact h.resolve_right ‹_›

theorem mark_ok (hok : f.Ok) : f.mark.Ok := by
  unfold Frame.mark
  split
  · rename_i hown
    have hout : f.outermost := by
      simp only [Frame.owns, Bool.and_eq_true] at hown
      exact hown.1
    exact ⟨hok.outermost, fun _ => hout, hok.drains, hok.busy, hok.inside⟩
  · exact hok

theorem mark_heeds (hst : f.owns → st ≠ .idle) (h : f.Heeds st) :
    f.mark.Heeds (kmpjsInterrupt st) := by
  intro hhit hfin
  unfold Frame.mark at *
  split at hhit
  · rename_i hown
    simp only [hown, if_true] at hfin ⊢
    by_cases hearly : f.pc.early
    · cases st <;> simp_all [kmpjsInterrupt]
    · have := h (by simpa [hearly] using hhit) hfin
      simpa [hearly] using this
  · rename_i hown
    simp only [hown, Bool.false_eq_true, if_false] at hfin ⊢
    have := h hhit hfin
    split at this
    · simp [*, kmpjsInterrupt]
    · simp [*]

theorem owned_mark (h : Owned fs) : Owned (fs.map Frame.mark) := by
  induction fs with
  | nil => exact h
  | cons f rest ih =>
    rcases h with ⟨rfl, hown⟩ | ⟨hout, hrest⟩
    · exact .inl ⟨rfl, by simpa [mark_owns] using hown⟩
    · exact .inr ⟨by simpa [mark_outermost] using hout, ih hrest⟩

theorem interrupt_eq_idle : kmpjsInterrupt st = .idle ↔ st = .idle := by
  cases st <;> simp [kmpjsInterrupt]

theorem interrupt_inv (hinv : s.Inv) (h : Calls.step s .interrupt = some s') : s'.Inv := by
  cases h
  have hbusy : ∀ f ∈ s.stack, f.owns → s.state ≠ .idle := by
    intro f hf hown hidle
    have := (hinv.calm hidle).2 f hf
    simp [Frame.owns, this] at hown
  refine ⟨?_, ?_, ?_, ?_, ?_⟩
  · intro f' hf'
    obtain ⟨f, hf, rfl⟩ := List.mem_map.mp hf'
    obtain ⟨hok, hheeds⟩ := hinv.frames f hf
    exact ⟨mark_ok hok, mark_heeds (hbusy f hf) hheeds⟩
  · intro hidle
    have hcalm := hinv.calm (interrupt_eq_idle.mp hidle)
    refine ⟨by simpa using hcalm.1, ?_⟩
    intro f' hf'
    obtain ⟨f, hf, rfl⟩ := List.mem_map.mp hf'
    rw [mark_inRun]
    exact hcalm.2 f hf
  · intro hst
    exact owned_mark (hinv.owned fun h => hst (interrupt_eq_idle.mpr h))
  · intro _ f' hf' hown
    obtain ⟨f, hf, rfl⟩ := List.mem_map.mp hf'
    rw [mark_owns] at hown
    exact mark_taken f (.inr hown)
  · intro f' hf' hstop
    obtain ⟨f, hf, rfl⟩ := List.mem_map.mp hf'
    rw [mark_stopped] at hstop
    obtain ⟨o, ho, hout, htaken⟩ := hinv.stopped f hf hstop
    exact ⟨o.mark, List.mem_map_of_mem ho, by rwa [mark_outermost], mark_taken o (.inl htaken)⟩

/-- The innermost call takes a step that leaves the state and its own rank alone. -/
theorem Calls.Inv.replace (hinv : s.Inv) (hs : s.stack = f :: rest)
    (hsteps : f.Steps s.state s.state f') (hout : f'.outermost = f.outermost)
    (hidle : s.state = .idle → f'.inRun = f.inRun) (howns : f'.owns = f.owns) :
    Calls.Inv ⟨s.state, f' :: rest⟩ := by
  have hf : f ∈ s.stack := by simp [hs]
  have hmem : ∀ g ∈ rest, g ∈ s.stack := fun g hg => by simp [hs, hg]
  refine ⟨?_, ?_, ?_, ?_, ?_⟩
  · intro g hg
    rcases List.mem_cons.mp hg with rfl | hg
    · exact ⟨hsteps.ok, hsteps.heeds (hinv.frames f hf).2⟩
    · exact hinv.frames g (hmem g hg)
  · intro hst
    have hcalm := hinv.calm hst
    refine ⟨by simpa [hs] using hcalm.1, ?_⟩
    intro g hg
    rcases List.mem_cons.mp hg with rfl | hg
    · rw [hidle hst]
      exact hcalm.2 f hf
    · exact hcalm.2 g (hmem g hg)
  · intro hst
    have howned := hinv.owned hst
    rw [hs] at howned
    rcases howned with ⟨hrest, hown⟩ | ⟨hno, hrest⟩
    · exact .inl ⟨hrest, howns ▸ hown⟩
    · exact .inr ⟨hout ▸ hno, hrest⟩
  · intro hst g hg hown
    rcases List.mem_cons.mp hg with rfl | hg
    · rw [hsteps.taken]
      exact hinv.taken hst f hf (howns ▸ hown)
    · exact hinv.taken hst g (hmem g hg) hown
  · -- the outermost call of before is still there, and an interrupted state has one
    have hlift : (∃ o ∈ s.stack, o.outermost ∧ o.taken) →
        ∃ o ∈ f' :: rest, o.outermost ∧ o.taken := by
      rintro ⟨o, ho, ho', htaken⟩
      rw [hs] at ho
      rcases List.mem_cons.mp ho with rfl | ho
      · exact ⟨f', by simp, hout ▸ ho', by rwa [hsteps.taken]⟩
      · exact ⟨o, by simp [ho], ho', htaken⟩
    intro g hg hstop
    apply hlift
    rcases List.mem_cons.mp hg with rfl | hg
    · rcases hsteps.stopped hstop with hold | hint
      · exact hinv.stopped f hf hold
      · exact hinv.owner hint
    · exact hinv.stopped g (hmem g hg) hstop

theorem runBegin_busy (h : st ≠ .idle) : runBegin st = (st, false) := by
  cases st <;> simp_all [runBegin]

theorem Calls.Inv.single (hinv : s.Inv) (hidle : s.state = .idle) (hs : s.stack = f :: rest) :
    rest = [] := by
  have := (hinv.calm hidle).1
  rw [hs] at this
  exact List.eq_nil_of_length_eq_zero (by simpa using this)

theorem begin_inv (hinv : s.Inv) (hs : s.stack = f :: rest) (hguard : f.pc = .guard)
    (hrun : f'.inRun) (hout : f'.outermost = (runBegin s.state).2)
    (hsteps : f.Steps s.state (runBegin s.state).1 f') :
    Calls.Inv ⟨(runBegin s.state).1, f' :: rest⟩ := by
  have hf : f ∈ s.stack := by simp [hs]
  have hno : f.outermost = false := by
    have := (hinv.frames f hf).1.outermost
    simpa [hguard] using this
  by_cases hidle : s.state = .idle
  · obtain rfl := hinv.single hidle hs
    rw [hidle] at hsteps hout ⊢
    have hown : f'.owns := by simp [Frame.owns, hrun, hout, runBegin]
    refine ⟨?_, ?_, fun _ => .inl ⟨rfl, hown⟩, ?_, ?_⟩
    · simpa using ⟨hsteps.ok, hsteps.heeds (hidle ▸ (hinv.frames f hf).2)⟩
    · simp [runBegin]
    · simp [runBegin]
    · intro g hg hstop
      obtain rfl := List.mem_singleton.mp hg
      rcases hsteps.stopped hstop with hold | hint
      · obtain ⟨o, ho, ho', -⟩ := hinv.stopped f hf hold
        rw [hs, List.mem_singleton] at ho
        simp [ho, hno] at ho'
      · cases hint
  · rw [runBegin_busy hidle] at hsteps hout ⊢
    exact hinv.replace hs hsteps (hout.trans hno.symm) (absurd · hidle)
      (by simp [Frame.owns, hout, hno])

theorem ending_inv (hinv : s.Inv) (hs : s.stack = f :: rest) (hrun : f.inRun)
    (hret : f'.pc = .returned) (hout : f'.outermost = f.outermost)
    (hsteps : f.Steps s.state (runEnd f.outermost s.state) f') :
    Calls.Inv ⟨runEnd f.outermost s.state, f' :: rest⟩ := by
  have hf : f ∈ s.stack := by simp [hs]
  have hst : s.state ≠ .idle := by
    intro hidle
    simp [(hinv.calm hidle).2 f hf] at hrun
  by_cases ho : f.outermost
  · have howned := hinv.owned hst
    rw [hs] at howned
    obtain ⟨rfl, -⟩ | ⟨hno, -⟩ := howned
    · simp only [ho, runEnd, if_true] at hsteps ⊢
      refine ⟨?_, ?_, by simp, by simp, ?_⟩
      · simpa using ⟨hsteps.ok, hsteps.heeds (hinv.frames f hf).2⟩
      · simp [Frame.inRun, hret]
      · intro g hg hstop
        obtain rfl := List.mem_singleton.mp hg
        have hold : ∃ o ∈ s.stack, o.outermost ∧ o.taken :=
          (hsteps.stopped hstop).elim (hinv.stopped f hf) hinv.owner
        obtain ⟨o, ho', -, htaken⟩ := hold
        rw [hs, List.mem_singleton] at ho'
        exact ⟨g, hg, hout ▸ ho, by rw [hsteps.taken, ← ho', htaken]⟩
    · simp [hno] at ho
  · simp only [ho, runEnd, Bool.false_eq_true, if_false] at hsteps ⊢
    exact hinv.replace hs hsteps hout (absurd · hst) (by simp [Frame.owns, hout, ho])

theorem move_inv (hinv : s.Inv) (h : Calls.step s (.move m) = some s') : s'.Inv := by
  obtain ⟨f, rest, st', f', hs, hadv, rfl⟩ := step_move h
  have hf : f ∈ s.stack := by simp [hs]
  have hsteps := advance_steps (hinv.frames f hf).1 hadv
  cases hsteps.change with
  | begin hguard hrun hout => exact begin_inv hinv hs hguard hrun hout hsteps
  | ending hrun hret hout => exact ending_inv hinv hs hrun hret hout hsteps
  | inside hout hrun =>
    exact hinv.replace hs hsteps hout (fun _ => hrun) (by simp [Frame.owns, hout, hrun])

theorem step_inv (hinv : s.Inv) (hok : EntersInRun s a) (h : Calls.step s a = some s') :
    s'.Inv := by
  cases a with
  | enter e => exact enter_inv hinv hok h
  | move m => exact move_inv hinv h
  | ret => exact ret_inv hinv h
  | interrupt => exact interrupt_inv hinv h

-- ---------------------------------------------------------------------------
-- The laws of the interrupt state
-- ---------------------------------------------------------------------------

/-- What the interrupt state is for: who may change it, and whom an interrupt
can stop. -/
structure InterruptLaws (s : Calls) : Prop where
  /-- With no call on the stack the engine is idle. -/
  idle : s.stack = [] → s.state = .idle
  /-- Of the calls on the stack, as soon as one is in its run or calls are
  nested, exactly one is the outermost. -/
  outermost : (∃ f ∈ s.stack, f.inRun) ∨ 2 ≤ s.stack.length →
    (s.stack.filter Frame.owns).length = 1
  /-- No step of a nested call, its begin and its end included, changes the state. -/
  nested : ∀ m s', 2 ≤ s.stack.length → s.step (.move m) = some s' → s'.state = s.state
  /-- An interrupt of an idle engine changes nothing. -/
  lost : s.state = .idle → s.step .interrupt = some s
  /-- An interrupt after the outermost call's begin and before its first check
  makes it fail. -/
  heeded : ∀ f ∈ s.stack, f.outermost → f.entry.finishes → f.hit → f.pc = .returned → f.failed
  /-- A call or a script is stopped only by an interrupt of the outermost call
  it belongs to. -/
  own : ∀ f ∈ s.stack, f.stopped → ∃ o ∈ s.stack, o.outermost ∧ o.taken

theorem owned_filter (h : Owned fs) : (fs.filter Frame.owns).length = 1 := by
  induction fs with
  | nil => exact h.elim
  | cons f rest ih =>
    rcases h with ⟨rfl, hown⟩ | ⟨hout, hrest⟩
    · simp [hown]
    · have : f.owns = false := by simp [Frame.owns, hout]
      simp [this, ih hrest]

theorem nested_state (hinv : s.Inv) (hlen : 2 ≤ s.stack.length)
    (h : s.step (.move m) = some s') : s'.state = s.state := by
  obtain ⟨f, rest, st', f', hs, hadv, rfl⟩ := step_move h
  have hst : s.state ≠ .idle := fun hidle => by
    have := (hinv.calm hidle).1
    omega
  have howned := hinv.owned hst
  rw [hs] at howned hlen
  obtain ⟨rfl, -⟩ | ⟨hno, -⟩ := howned
  · simp at hlen
  · cases (advance_steps (hinv.frames f (by simp [hs])).1 hadv).change with
    | begin => rw [runBegin_busy hst]
    | ending => simp [hno, runEnd]
    | inside => rfl

theorem mark_idle (h : f.inRun = false) : f.mark = f := by
  simp [Frame.mark, Frame.owns, h]

theorem Calls.Inv.laws (hinv : s.Inv) : InterruptLaws s where
  idle := by
    intro hs
    by_cases hst : s.state = .idle
    · exact hst
    · have := hinv.owned hst
      simp [hs, Owned] at this
  outermost := by
    intro h
    refine owned_filter (hinv.owned fun hidle => ?_)
    obtain ⟨hlen, hcalm⟩ := hinv.calm hidle
    rcases h with ⟨f, hf, hrun⟩ | h
    · simp [hcalm f hf] at hrun
    · omega
  nested := fun _ _ hlen h => nested_state hinv hlen h
  lost := by
    intro hidle
    have hmap : s.stack.map Frame.mark = s.stack :=
      (List.map_congr_left fun f hf => mark_idle ((hinv.calm hidle).2 f hf)).trans (List.map_id _)
    simp only [Calls.step, hmap, hidle, kmpjsInterrupt]
    rw [← hidle]
  heeded := by
    intro f hf _ hfin hhit hret
    have := (hinv.frames f hf).2 hhit hfin
    simpa [hret, Pc.early] using this
  own := hinv.stopped

/-- The calls that `kmpjs_define_function` lets script make while no run is
open are the only way to break the laws. -/
theorem interruptLaws_of_run (h : Machine.Reaches Calls.step EntersInRun .init s) :
    InterruptLaws s :=
  (h.invariant init_inv fun hinv hok hstep => step_inv hinv hok hstep).laws

/-- Script runs inside `kmpjs_define_function` (a setter of the global object)
and calls the host, which evaluates more script. -/
def storeThenEval : List CallAct :=
  [.enter .defineFunction, .move .store, .move .script, .move .callHost, .enter .eval]

/-- An evaluation is interrupted from another thread before it drains, and
fails. -/
def interruptedEval : List CallAct :=
  [.enter .eval, .move .begin, .move .script, .interrupt, .move .poll, .move (.finish true),
    .move .test, .move .discarded, .move .reported, .move (.converted .done), .move .runEnd]

theorem interruptLaws_of_run_interrupted :
    InterruptLaws ⟨.idle, [⟨.eval, .returned, true, true, .native, true, true, true⟩]⟩ := by
  have hrun : Machine.exec Calls.step EntersInRun .init interruptedEval =
      some ⟨.idle, [⟨.eval, .returned, true, true, .native, true, true, true⟩]⟩ := by decide
  exact interruptLaws_of_run (Machine.reaches_of_exec hrun)

/-- The evaluation is nested, and its begin changes the state. -/
theorem nested_eval_takes_the_state :
    ¬ ∀ s, Machine.Reaches Calls.step Machine.always .init s → InterruptLaws s := by
  intro h
  have hrun : Machine.exec Calls.step Machine.always .init storeThenEval =
      some ⟨.idle, [.start .eval, { Frame.start .defineFunction with
        pc := .body, busy := .host true }]⟩ := by decide
  have hlaws := h _ (Machine.reaches_of_exec hrun)
  have := hlaws.nested .begin _ (by decide) rfl
  exact absurd this (by decide)

-- ---------------------------------------------------------------------------
-- Script runs inside a run
-- ---------------------------------------------------------------------------

/-- Script is on the engine's stack only during a run. -/
structure ScriptLaws (s : Calls) : Prop where
  /-- While script of a call is on the stack the state is not idle. -/
  running : ∀ f ∈ s.stack, f.onScript → s.state ≠ .idle
  /-- An interrupt then leaves the state interrupted. -/
  stoppable : ∀ f ∈ s.stack, f.onScript → ∀ s', s.step .interrupt = some s' →
    s'.state = .interrupted
  /-- A call made from inside script is nested. -/
  nested : ∀ above f below, s.stack = above ++ f :: below → (∃ g ∈ below, g.onScript) →
    f.outermost = false
  /-- Jobs are drained and rejections reported with no script further down the stack. -/
  drained : ∀ above f below, s.stack = above ++ f :: below → f.pc.drains →
    ∀ g ∈ below, g.onScript = false

/-- No script starts in `kmpjs_define_function` while the state is idle. -/
def ScriptInRun (s : Calls) (a : CallAct) : Prop :=
  a = .move .script → (∃ f ∈ s.stack.head?, f.entry = .defineFunction) → s.state ≠ .idle

instance (s : Calls) (a : CallAct) : Decidable (ScriptInRun s a) :=
  inferInstanceAs (Decidable (_ → _ → _))

/-- Beside the invariant: an idle engine is busy in no call. -/
structure Calls.Quiet (s : Calls) : Prop where
  inv : s.Inv
  native : s.state = .idle → ∀ f ∈ s.stack, f.busy = .native

theorem advance_busy (h : f.advance st m = some (st', f')) (hbusy : f'.busy ≠ .native) :
    f.busy ≠ .native ∨ m = .script ∧ f.pc.runsScript ∨ f.callsOut := by
  by_cases hnative : f.busy = .native
  · right
    simp only [Frame.advance, hnative] at h
    generalize hpc : f.pc = pc at h
    unfold Frame.advanceNative at h
    split at h
    case h_17 =>
      split at h
      · exact .inl ⟨rfl, ‹_›⟩
      · cases h
    case h_18 =>
      split at h
      · exact .inr ‹_›
      · cases h
    all_goals grind
  · exact .inl hnative

theorem callsOut_inRun (hok : f.Ok) (h : f.callsOut) : f.inRun := by
  have hin := callsOut_inside h
  have henters : f.entry.entersRun := by
    simp only [Frame.callsOut] at h
    split at h
    · simp only [Bool.or_eq_true, decide_eq_true_eq] at h
      rcases h with h | h <;> simp [h, Entry.entersRun]
    · exact hok.entersRun hin.1 hin.2 (by simp [*])
    · exact hok.entersRun hin.1 hin.2 (by simp [*])
    · exact hok.entersRun hin.1 hin.2 (by simp [*])
    · cases h
  simp [Frame.inRun, henters, hin]

/-- With the state idle, the innermost call goes on with its C code. -/
theorem quiet_native (hq : s.Quiet) (hok : ScriptInRun s (.move m)) (hidle : s.state = .idle)
    (hs : s.stack = f :: rest) (hadv : f.advance s.state m = some (st', f')) :
    f'.busy = .native := by
  have hf : f ∈ s.stack := by simp [hs]
  have hcalm := (hq.inv.calm hidle).2 f hf
  by_cases hbusy : f'.busy = .native
  · exact hbusy
  · rcases advance_busy hadv hbusy with hold | ⟨rfl, hscript⟩ | hout
    · exact absurd (hq.native hidle f hf) hold
    · have hin := runsScript_inside hscript
      rcases (hq.inv.frames f hf).1.inside hin.1 hin.2 with henters | ⟨hdef, -⟩
      · simp [Frame.inRun, henters, hin] at hcalm
      · exact absurd hidle (hok rfl ⟨f, by simp [hs], hdef⟩)
    · simp [callsOut_inRun (hq.inv.frames f hf).1 hout] at hcalm

theorem quiet_move (hq : s.Quiet) (hok : ScriptInRun s (.move m))
    (h : Calls.step s (.move m) = some s') : s'.Quiet := by
  refine ⟨move_inv hq.inv h, ?_⟩
  obtain ⟨f, rest, st', f', hs, hadv, rfl⟩ := step_move h
  have hf : f ∈ s.stack := by simp [hs]
  have hsteps := advance_steps (hq.inv.frames f hf).1 hadv
  intro hidle'
  by_cases hidle : s.state = .idle
  · intro g hg
    rcases List.mem_cons.mp hg with rfl | hg
    · exact quiet_native hq hok hidle hs hadv
    · exact hq.native hidle g (by simp [hs, hg])
  · -- only the end of the outermost call makes the engine idle, and nothing is below it
    cases hsteps.change with
    | begin => simp [runBegin_busy hidle, hidle] at hidle'
    | inside => exact absurd hidle' hidle
    | ending hrun hret hout =>
      have hnative : f'.busy = .native := by
        by_cases hbusy : f'.busy = .native
        · exact hbusy
        · exact absurd hret (hsteps.ok.busy hbusy).2
      have ho : f.outermost := by
        by_cases ho : f.outermost
        · exact ho
        · simp [runEnd, ho, hidle] at hidle'
      have howned := hq.inv.owned hidle
      rw [hs] at howned
      rcases howned with ⟨rfl, -⟩ | ⟨hno, -⟩
      · simpa using hnative
      · simp [hno] at ho

theorem quiet_step (hq : s.Quiet) (hok : ScriptInRun s a) (h : Calls.step s a = some s') :
    s'.Quiet := by
  cases a with
  | enter e =>
    have henter : EntersInRun s (.enter e) := by
      rintro ⟨f, hf, -⟩ hidle
      obtain ⟨hmay, -⟩ := step_enter h
      have hnative := hq.native hidle
      cases hs : s.stack with
      | nil => simp [hs] at hf
      | cons g rest => simp [Calls.mayEnter, hs, hnative g (by simp [hs])] at hmay
    refine ⟨enter_inv hq.inv henter h, ?_⟩
    obtain ⟨-, rfl⟩ := step_enter h
    intro hidle g hg
    rcases List.mem_cons.mp hg with rfl | hg
    · rfl
    · exact hq.native hidle g hg
  | move m => exact quiet_move hq hok h
  | ret =>
    refine ⟨ret_inv hq.inv h, ?_⟩
    obtain ⟨f, rest, hs, -, rfl⟩ := step_ret h
    exact fun hidle g hg => hq.native hidle g (by simp [hs, hg])
  | interrupt =>
    refine ⟨interrupt_inv hq.inv h, ?_⟩
    cases h
    intro hidle g' hg'
    obtain ⟨g, hg, rfl⟩ := List.mem_map.mp hg'
    rw [mark_busy]
    exact hq.native (interrupt_eq_idle.mp hidle) g hg

theorem owned_below (h : Owned (above ++ f :: below)) (hbelow : below ≠ []) :
    f.outermost = false := by
  induction above with
  | nil =>
    rcases h with ⟨hnil, -⟩ | ⟨hout, -⟩
    · exact absurd hnil hbelow
    · exact hout
  | cons g above ih =>
    rcases h with ⟨hnil, -⟩ | ⟨-, hrest⟩
    · simp at hnil
    · exact ih hrest

theorem Calls.Quiet.laws (hq : s.Quiet) : ScriptLaws s := by
  have hrunning : ∀ f ∈ s.stack, f.onScript → s.state ≠ .idle := by
    intro f hf hon hidle
    simp [Frame.onScript, hq.native hidle f hf] at hon
  have hnested : ∀ above f below, s.stack = above ++ f :: below → (∃ g ∈ below, g.onScript) →
      f.outermost = false := by
    rintro above f below hs ⟨g, hg, hon⟩
    have hst := hrunning g (by simp [hs, hg]) hon
    exact owned_below (hs ▸ hq.inv.owned hst) (List.ne_nil_of_mem hg)
  refine ⟨hrunning, ?_, hnested, ?_⟩
  · intro f hf hon s' h
    cases h
    have hst := hrunning f hf hon
    cases hstate : s.state <;> simp_all [kmpjsInterrupt]
  · intro above f below hs hdrains g hg
    have hout := (hq.inv.frames f (by simp [hs])).1.drains hdrains
    by_cases hon : g.onScript
    · simp [hnested above f below hs ⟨g, hg, hon⟩] at hout
    · simpa using hon

theorem init_quiet : Calls.init.Quiet := ⟨init_inv, by simp [Calls.init]⟩

/-- Outside `kmpjs_define_function` on an idle engine, script runs inside a run. -/
theorem scriptLaws_of_run (h : Machine.Reaches Calls.step ScriptInRun .init s) : ScriptLaws s :=
  (h.invariant init_quiet fun hq hok hstep => quiet_step hq hok hstep).laws

/-- A host function called by a script evaluates more script. -/
def nestedEval : List CallAct :=
  [.enter .eval, .move .begin, .move .script, .move .callHost, .enter .eval, .move .begin,
    .move .script]

theorem scriptLaws_of_run_nested :
    ScriptLaws ⟨.running, [⟨.eval, .body, false, false, .script, false, false, false⟩,
      ⟨.eval, .body, true, false, .host true, false, false, false⟩]⟩ := by
  have hrun : Machine.exec Calls.step ScriptInRun .init nestedEval =
      some ⟨.running, [⟨.eval, .body, false, false, .script, false, false, false⟩,
        ⟨.eval, .body, true, false, .host true, false, false, false⟩]⟩ := by decide
  exact scriptLaws_of_run (Machine.reaches_of_exec hrun)

/-- A setter of the global object runs while the engine is idle. -/
theorem stored_function_runs_script :
    ¬ ∀ s, Machine.Reaches Calls.step Machine.always .init s → ScriptLaws s := by
  intro h
  have hrun : Machine.exec Calls.step Machine.always .init
      [.enter .defineFunction, .move .store, .move .script] =
      some ⟨.idle, [{ Frame.start .defineFunction with pc := .body, busy := .script }]⟩ := by
    decide
  exact (h _ (Machine.reaches_of_exec hrun)).running _ List.mem_cons_self rfl rfl

end QuickJsKmp
