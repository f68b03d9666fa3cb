import Mathlib.Data.List.Basic
import QuickJsKmp.Dispatch
import QuickJsKmp.Roles

/-!
# `JsEngine` under its own callbacks

One thread uses a `JsEngine`. A native call runs script, script calls back into Kotlin, and
the callback may call any member again. A member checks that the engine is open and
then makes its native call, so the stack alternates between native calls and
callbacks.
-/

namespace QuickJsKmp.Reentry

open Dispatch (CharClasses isIdentifier)
open Handles (Operand)

/-- The members of `NativeEngine`. -/
inductive NativeOp
  | evaluate
  | defineFunction
  | interrupt
  | close
  | refRetain
  | refRelease
  | refGet
  | refGetIndex
  | refSet
  | refCall
  | refToJson
  | registerModule
  | evalModule
  | runBytecode
  | registerModuleBytecode
  | stats
  | dumpMemory
  deriving DecidableEq, Repr

/-- Script can run in it. -/
def NativeOp.callsBack : NativeOp → Bool
  | .evaluate | .defineFunction | .refGet | .refGetIndex | .refSet | .refCall | .refToJson | .evalModule
  | .runBytecode => true
  | _ => false

inductive Callback
  | onHostCall
  | onLog
  | onUnhandledRejection
  | onLoadModule
  deriving DecidableEq, Repr

/-- A callback has the objects of its arguments. -/
inductive Frame
  | native (op : NativeOp)
  | callback (c : Callback) (objects : List ℕ)
  deriving DecidableEq, Repr

def Frame.isNative : Frame → Bool
  | .native _ => true
  | .callback _ _ => false

/-- The flags of a `JsRef`. -/
structure RefFlags where
  closed : Bool
  transient : Bool
  deriving DecidableEq, Repr

/-- The begin of a native call: the stack it is made on, and whether `NativeEngine` still has
its handle. -/
structure Begin where
  op : NativeOp
  stack : List Frame
  handle : Bool
  deriving DecidableEq, Repr

structure Engine where
  closed : Bool
  inFlightInterrupts : ℕ
  /-- `NativeEngine` has its handle until its `close` begins. -/
  handle : Bool
  refs : List RefFlags
  stack : List Frame
  begun : List Begin
  deriving DecidableEq, Repr

/-- The members of `JsEngine` and `JsRef`. -/
inductive Member
  | evaluate
  | registerFunction (name : List UInt16)
  | registerModule
  | registerModuleBytecode
  | runBytecode
  | evaluateModule
  | interrupt
  | stats
  | dumpMemory
  | close
  | get (i : ℕ)
  | getIndex (i : ℕ)
  | set (i : ℕ) (value : Option Operand)
  | invoke (i : ℕ) (thisArg : Option Operand) (args : List (Option Operand))
  | toJson (i : ℕ)
  | retain (i : ℕ)
  | closeRef (i : ℕ)
  deriving DecidableEq, Repr

-- ---------------------------------------------------------------------------
-- The members
-- ---------------------------------------------------------------------------

/-- A member that begins with `checkOpen()` and then makes a native call. -/
def Engine.checkOpen (e : Engine) (op : NativeOp) : Option NativeOp :=
  if e.closed then none else some op

def Engine.evaluate (e : Engine) : Option NativeOp := e.checkOpen .evaluate

def Engine.registerFunction (chars : CharClasses) (e : Engine) (name : List UInt16) : Option NativeOp := do
  let op ← e.checkOpen .defineFunction
  if isIdentifier chars name then some op else none

def Engine.registerModule (e : Engine) : Option NativeOp := e.checkOpen .registerModule

def Engine.registerModuleBytecode (e : Engine) : Option NativeOp := e.checkOpen .registerModuleBytecode

def Engine.runBytecode (e : Engine) : Option NativeOp := e.checkOpen .runBytecode

def Engine.evaluateModule (e : Engine) : Option NativeOp := e.checkOpen .evalModule

def Engine.stats (e : Engine) : Option NativeOp := e.checkOpen .stats

def Engine.dumpMemory (e : Engine) : Option NativeOp := e.checkOpen .dumpMemory

/-- `checkOwned` and `isValid` in `encode`; a value that is no ref is `none`. -/
def Engine.encodes (e : Engine) : Option Operand → Bool
  | some (.own j) => (e.refs[j]?).any fun r => !r.closed && !e.closed
  | some .foreign => false
  | none => true

def owned : Option Operand → Bool
  | some .foreign => false
  | _ => true

/-- `JsRef.op`: the ref is open, the engine is, and what the block checks is fine. -/
def Engine.op (e : Engine) (i : ℕ) (checks : Bool) (op : NativeOp) : Option NativeOp := do
  let r ← e.refs[i]?
  if r.closed then none
  else
    let op ← e.checkOpen op
    if checks then some op else none

def Engine.get (e : Engine) (i : ℕ) : Option NativeOp := e.op i true .refGet

def Engine.getIndex (e : Engine) (i : ℕ) : Option NativeOp := e.op i true .refGetIndex

def Engine.set (e : Engine) (i : ℕ) (value : Option Operand) : Option NativeOp :=
  e.op i (e.encodes value) .refSet

def Engine.invoke (e : Engine) (i : ℕ) (thisArg : Option Operand) (args : List (Option Operand)) :
    Option NativeOp :=
  e.op i (owned thisArg && args.all e.encodes) .refCall

def Engine.toJson (e : Engine) (i : ℕ) : Option NativeOp := e.op i true .refToJson

def Engine.retain (e : Engine) (i : ℕ) : Option NativeOp := e.op i true .refRetain

/-- The native call that a member makes, if it does not throw. The three that change
something first are below. -/
def Engine.enters (chars : CharClasses) (e : Engine) : Member → Option NativeOp
  | .evaluate => e.evaluate
  | .registerFunction name => e.registerFunction chars name
  | .registerModule => e.registerModule
  | .registerModuleBytecode => e.registerModuleBytecode
  | .runBytecode => e.runBytecode
  | .evaluateModule => e.evaluateModule
  | .stats => e.stats
  | .dumpMemory => e.dumpMemory
  | .get i => e.get i
  | .getIndex i => e.getIndex i
  | .set i value => e.set i value
  | .invoke i thisArg args => e.invoke i thisArg args
  | .toJson i => e.toJson i
  | .retain i => e.retain i
  | .interrupt | .close | .closeRef _ => none

def Engine.begin (e : Engine) (op : NativeOp) : Engine :=
  { e with stack := .native op :: e.stack, begun := e.begun ++ [⟨op, e.stack, e.handle⟩] }

def Engine.tryBegin (e : Engine) : Option NativeOp → Engine
  | some op => e.begin op
  | none => e

def Engine.interrupt (e : Engine) : Engine :=
  if e.closed then e
  else { e with inFlightInterrupts := e.inFlightInterrupts + 1 }.begin .interrupt

/-- It does not return while an interrupt is in flight. -/
def Engine.close (e : Engine) : Option Engine :=
  if e.closed then some e
  else if e.inFlightInterrupts ≠ 0 then none
  else some { e.begin .close with closed := true, handle := false }

/-- `JsRef.close` and `releaseRef`. -/
def Engine.closeRef (e : Engine) (i : ℕ) : Engine :=
  match e.refs[i]? with
  | some r =>
    if r.closed then e
    else
      let e := { e with refs := e.refs.set i { r with closed := true } }
      if r.transient || e.closed then e else e.begin .refRelease
  | none => e

def Engine.call (chars : CharClasses) (e : Engine) : Member → Option Engine
  | .interrupt => some e.interrupt
  | .close => e.close
  | .closeRef i => some (e.closeRef i)
  | m => some (e.tryBegin (e.enters chars m))

/-- `decoded.forEach { (it as? JsRef)?.close() }`: the arguments are transient. -/
def Engine.closeArguments (e : Engine) (objects : List ℕ) : Engine :=
  { e with refs := objects.foldl (fun refs i => refs.modify i fun r => { r with closed := true }) e.refs }

inductive Act
  /-- Kotlin calls a member. -/
  | call (m : Member)
  /-- The native call calls back, with so many refs as arguments. -/
  | callback (c : Callback) (refs : ℕ)
  /-- The innermost call returns, with a new ref or not. -/
  | finish (ref : Bool)
  deriving DecidableEq, Repr

/-- Kotlin code runs: a callback or the host itself. -/
def Engine.kotlinRuns (e : Engine) : Bool :=
  match e.stack with
  | .native _ :: _ => false
  | _ => true

def Engine.finish (e : Engine) (ref : Bool) : Option Engine :=
  match e.stack with
  | .native op :: stack =>
    some { e with
      stack
      inFlightInterrupts := if op = .interrupt then e.inFlightInterrupts - 1 else e.inFlightInterrupts
      refs := if ref then e.refs ++ [⟨false, false⟩] else e.refs }
  | .callback _ objects :: stack => some { e.closeArguments objects with stack }
  | [] => none

def Engine.step (chars : CharClasses) (e : Engine) : Act → Option Engine
  | .call m => if e.kotlinRuns then e.call chars m else none
  | .callback c refs =>
    match e.stack with
    | .native op :: _ =>
      if op.callsBack then
        let objects := List.range' e.refs.length refs
        some { e with refs := e.refs ++ List.replicate refs ⟨false, true⟩, stack := .callback c objects :: e.stack }
      else none
    | _ => none
  | .finish ref => e.finish ref

def init : Engine := ⟨false, 0, true, [], [], []⟩

/-- `NativeEngine.close` has never begun while a native call was on the stack, and nothing was
called after it. -/
def Outlives (e : Engine) : Prop :=
  ∀ b ∈ e.begun, (b.op = .close → ∀ f ∈ b.stack, f.isNative = false) ∧ b.handle

/-- No callback closes the engine. -/
def Careful (e : Engine) : Act → Prop
  | .call .close => e.closed ∨ e.stack = []
  | _ => True

instance (e : Engine) (a : Act) : Decidable (Careful e a) := by
  unfold Careful
  split <;> infer_instance

variable {chars : CharClasses} {e e' t : Engine} {op op' : NativeOp} {m : Member} {a : Act}

-- ---------------------------------------------------------------------------
-- What the members check
-- ---------------------------------------------------------------------------

theorem checkOpen_eq : e.checkOpen op = some op' ↔ e.closed = false ∧ op = op' := by
  unfold Engine.checkOpen
  cases e.closed <;> simp

theorem op_open (h : e.op i checks op = some op') : e.closed = false ∧ op = op' := by
  unfold Engine.op at h
  obtain ⟨r, -, h⟩ := Option.bind_eq_some_iff.mp h
  split at h
  · cases h
  · obtain ⟨op'', hopen, h⟩ := Option.bind_eq_some_iff.mp h
    split at h
    · obtain rfl := Option.some.inj h
      exact checkOpen_eq.mp hopen
    · cases h

/-- Every member looks at `closed` before its native call. -/
theorem enters_open (h : e.enters chars m = some op) :
    e.closed = false ∧ op ≠ .interrupt ∧ op ≠ .close := by
  have hcheck : ∀ {op'}, e.checkOpen op' = some op → op' ≠ .interrupt → op' ≠ .close →
      e.closed = false ∧ op ≠ .interrupt ∧ op ≠ .close := by
    intro op' h hinterrupt hclose
    obtain ⟨hopen, rfl⟩ := checkOpen_eq.mp h
    exact ⟨hopen, hinterrupt, hclose⟩
  have hop : ∀ {i checks op'}, e.op i checks op' = some op → op' ≠ .interrupt → op' ≠ .close →
      e.closed = false ∧ op ≠ .interrupt ∧ op ≠ .close := by
    intro i checks op' h hinterrupt hclose
    obtain ⟨hopen, rfl⟩ := op_open h
    exact ⟨hopen, hinterrupt, hclose⟩
  cases m with
  | registerFunction name =>
    obtain ⟨op', hopen, hname⟩ := Option.bind_eq_some_iff.mp h
    split at hname
    · obtain rfl := Option.some.inj hname
      exact hcheck hopen nofun nofun
    · cases hname
  | get i => exact hop h nofun nofun
  | getIndex i => exact hop h nofun nofun
  | set i value => exact hop h nofun nofun
  | invoke i thisArg args => exact hop h nofun nofun
  | toJson i => exact hop h nofun nofun
  | retain i => exact hop h nofun nofun
  | interrupt => cases h
  | close => cases h
  | closeRef i => cases h
  | _ => exact hcheck h nofun nofun

-- ---------------------------------------------------------------------------
-- The stack
-- ---------------------------------------------------------------------------

/-- Native calls and callbacks in turn, each callback in a native call that runs script. -/
inductive Nested : List Frame → Prop
  | nil : Nested []
  | first (op : NativeOp) : Nested [.native op]
  | native (op : NativeOp) (h : Nested (.callback c objects :: stack)) :
      Nested (.native op :: .callback c objects :: stack)
  | callback {op : NativeOp} (h : Nested (.native op :: stack)) (hcalls : op.callsBack) :
      Nested (.callback c objects :: .native op :: stack)

theorem Nested.enter (h : Nested e.stack) (hruns : e.kotlinRuns) (op : NativeOp) :
    Nested (.native op :: e.stack) := by
  unfold Engine.kotlinRuns at hruns
  cases hstack : e.stack with
  | nil => exact .first op
  | cons f stack =>
    rw [hstack] at h hruns
    cases f with
    | native op' => cases hruns
    | callback c objects => exact .native op h

theorem Nested.leave (h : Nested (f :: stack)) : Nested stack := by
  cases h with
  | first op => exact .nil
  | native op h => exact h
  | callback h hcalls => exact h

theorem Nested.some_native (h : Nested stack) (hne : stack ≠ []) : ∃ f ∈ stack, f.isNative := by
  cases h with
  | nil => exact absurd rfl hne
  | first op => exact ⟨_, List.mem_cons_self, rfl⟩
  | native op h => exact ⟨_, List.mem_cons_self, rfl⟩
  | callback h hcalls => exact ⟨_, List.mem_cons_of_mem _ List.mem_cons_self, rfl⟩

/-- Whether the innermost call is `native.interrupt`. -/
def interrupting (stack : List Frame) : ℕ := if stack.head? = some (.native .interrupt) then 1 else 0

theorem interrupting_native (hop : op ≠ .interrupt) : interrupting (.native op :: stack) = 0 := by
  simp [interrupting, hop]

theorem interrupting_runs (hruns : e.kotlinRuns) : interrupting e.stack = 0 := by
  unfold Engine.kotlinRuns at hruns
  cases hstack : e.stack with
  | nil => rfl
  | cons f stack =>
    rw [hstack] at hruns
    cases f with
    | native op => cases hruns
    | callback c objects => rfl

theorem Nested.interrupting_leave (h : Nested (f :: stack)) : interrupting stack = 0 := by
  cases h with
  | first op => rfl
  | native op h => rfl
  | callback h hcalls =>
    refine interrupting_native ?_
    rintro rfl
    cases hcalls

-- ---------------------------------------------------------------------------
-- The invariant of every run
-- ---------------------------------------------------------------------------

structure Inv (e : Engine) : Prop where
  handle : e.handle = !e.closed
  nested : Nested e.stack
  count : e.inFlightInterrupts = interrupting e.stack
  begun : ∀ b ∈ e.begun, b.handle

theorem init_inv : Inv init where
  handle := rfl
  nested := .nil
  count := rfl
  begun := by simp [init]

theorem Inv.setRefs (h : Inv e) (refs : List RefFlags) : Inv { e with refs } := ⟨h.1, h.2, h.3, h.4⟩

theorem Inv.begin_handle (h : Inv e) (hopen : e.closed = false) :
    ∀ b ∈ (e.begin op).begun, b.handle := by
  intro b hb
  rcases List.mem_append.mp hb with hb | hb
  · exact h.begun b hb
  · obtain rfl := List.mem_singleton.mp hb
    simp [h.handle, hopen]

theorem Inv.begin (h : Inv e) (hruns : e.kotlinRuns) (hopen : e.closed = false) (op : NativeOp)
    (hop : op ≠ .interrupt) :
    Inv (e.begin op) where
  handle := h.handle
  nested := h.nested.enter hruns op
  count := by
    have hzero : e.inFlightInterrupts = 0 := h.count.trans (interrupting_runs hruns)
    exact hzero.trans (interrupting_native hop).symm
  begun := h.begin_handle hopen

theorem Inv.interrupt (h : Inv e) (hruns : e.kotlinRuns) : Inv e.interrupt := by
  unfold Engine.interrupt
  split
  · exact h
  · rename_i hopen
    have hzero : e.inFlightInterrupts = 0 := h.count.trans (interrupting_runs hruns)
    exact ⟨h.handle, h.nested.enter hruns _, congrArg (· + 1) hzero,
      h.begin_handle (by simpa using hopen)⟩

theorem Inv.close (h : Inv e) (hruns : e.kotlinRuns) (hclose : e.close = some e') : Inv e' := by
  unfold Engine.close at hclose
  split at hclose
  · exact (Option.some.inj hclose) ▸ h
  · rename_i hopen
    split at hclose
    · cases hclose
    · obtain rfl := Option.some.inj hclose
      have hnext := h.begin hruns (by simpa using hopen) .close nofun
      exact ⟨rfl, hnext.nested, hnext.count, hnext.begun⟩

theorem Inv.closeRef (h : Inv e) (hruns : e.kotlinRuns) (i : ℕ) : Inv (e.closeRef i) := by
  unfold Engine.closeRef
  split
  · split
    · exact h
    · rename_i r hi hclosed
      simp only
      split
      · exact h.setRefs _
      · rename_i hrelease
        simp only [Bool.or_eq_true, not_or, Bool.not_eq_true] at hrelease
        exact (h.setRefs (e.refs.set i { r with closed := true })).begin hruns hrelease.2 .refRelease nofun
  · exact h

theorem Inv.call (h : Inv e) (hruns : e.kotlinRuns)
    (hcall : e.call chars m = some e') : Inv e' := by
  have henters : ∀ {m}, some (e.tryBegin (e.enters chars m)) = some e' → Inv e' := by
    intro m hcall
    obtain rfl := Option.some.inj hcall
    cases hop : e.enters chars m with
    | none => exact h
    | some op =>
      obtain ⟨hopen, hinterrupt, -⟩ := enters_open hop
      exact h.begin hruns hopen op hinterrupt
  cases m with
  | interrupt => exact (Option.some.inj hcall) ▸ h.interrupt hruns
  | close => exact h.close hruns hcall
  | closeRef i => exact (Option.some.inj hcall) ▸ h.closeRef hruns i
  | _ => exact henters hcall

theorem Inv.finish (h : Inv e) (hfinish : e.finish ref = some e') : Inv e' := by
  unfold Engine.finish at hfinish
  split at hfinish
  · rename_i op stack hstack
    obtain rfl := Option.some.inj hfinish
    have hnested := h.nested
    rw [hstack] at hnested
    refine ⟨h.handle, hnested.leave, ?_, h.begun⟩
    have hcount := h.count
    rw [hstack] at hcount
    show _ = interrupting stack
    rw [hnested.interrupting_leave, hcount]
    by_cases hop : op = .interrupt
    · simp [hop, interrupting]
    · simp [hop, interrupting]
  · rename_i c objects stack hstack
    obtain rfl := Option.some.inj hfinish
    have hnested := h.nested
    rw [hstack] at hnested
    refine ⟨h.handle, hnested.leave, ?_, h.begun⟩
    have hcount := h.count
    rw [hstack] at hcount
    exact hcount.trans hnested.interrupting_leave.symm
  · cases hfinish

theorem step_inv (h : Inv e) (hstep : e.step chars a = some e') : Inv e' := by
  cases a with
  | call m =>
    simp only [Engine.step] at hstep
    split at hstep
    · exact h.call ‹_› hstep
    · cases hstep
  | callback c refs =>
    simp only [Engine.step] at hstep
    split at hstep
    · rename_i op stack hstack
      split at hstep
      · rename_i hcalls
        obtain rfl := Option.some.inj hstep
        have hnested : Nested (.native op :: stack) := hstack ▸ h.nested
        refine ⟨h.handle, ?_, ?_, h.begun⟩
        · show Nested (_ :: e.stack)
          rw [hstack]
          exact .callback hnested hcalls
        · have hafter := (show Nested (.callback c [] :: .native op :: stack) from .callback hnested hcalls).interrupting_leave
          exact h.count.trans (by rw [hstack]; exact hafter)
      · cases hstep
    · cases hstep
  | finish ref => exact h.finish hstep

theorem reaches_inv (h : Inv e)
    (hrun : Machine.Reaches (Engine.step chars) Machine.always e t) : Inv t :=
  hrun.invariant h fun h _ hstep => step_inv h hstep

-- ---------------------------------------------------------------------------
-- Who closes
-- ---------------------------------------------------------------------------

/-- A native call that is no `close`, or is made by the host itself. -/
theorem Outlives.begin (h : Outlives e) (op : NativeOp) (hhandle : e.handle)
    (hop : op = .close → e.stack = []) :
    ∀ b ∈ (e.begin op).begun, (b.op = .close → ∀ f ∈ b.stack, f.isNative = false) ∧ b.handle := by
  intro b hb
  rcases List.mem_append.mp hb with hb | hb
  · exact h b hb
  · obtain rfl := List.mem_singleton.mp hb
    refine ⟨fun hclose => ?_, hhandle⟩
    show ∀ f ∈ e.stack, _
    rw [hop hclose]
    simp

/-- In the begin of a `close` on a stack that is not empty. -/
theorem not_outlives_close (h : Inv e) (hne : e.stack ≠ []) : ¬ Outlives (e.begin .close) := by
  intro houtlives
  obtain ⟨f, hf, hnative⟩ := h.nested.some_native hne
  have hlast := (houtlives ⟨.close, e.stack, e.handle⟩ (List.mem_append_right _ (List.mem_singleton_self _))).1 rfl
  rw [hlast f hf] at hnative
  cases hnative

theorem Outlives.closeRef (h : Outlives e) (hinv : Inv e) (i : ℕ) : Outlives (e.closeRef i) := by
  unfold Engine.closeRef
  split
  · split
    · exact h
    · simp only
      split
      · exact h
      · rename_i hrelease
        simp only [Bool.or_eq_true, not_or, Bool.not_eq_true] at hrelease
        have hhandle : e.handle := by simp [hinv.handle, show e.closed = false from hrelease.2]
        exact Outlives.begin (show Outlives { e with refs := _ } from h) .refRelease hhandle nofun
  · exact h

theorem Outlives.call (h : Outlives e) (hinv : Inv e) (hm : m = .close → e.closed ∨ e.stack = [])
    (hcall : e.call chars m = some e') : Outlives e' := by
  have hhandle : e.closed = false → e.handle := fun hopen => by simp [hinv.handle, hopen]
  have henters : ∀ {m}, some (e.tryBegin (e.enters chars m)) = some e' → Outlives e' := by
    intro m hcall
    obtain rfl := Option.some.inj hcall
    cases hop : e.enters chars m with
    | none => exact h
    | some op =>
      obtain ⟨hopen, -, hclose⟩ := enters_open hop
      exact h.begin op (hhandle hopen) fun heq => absurd heq hclose
  cases m with
  | interrupt =>
    obtain rfl := Option.some.inj hcall
    unfold Engine.interrupt
    split
    · exact h
    · rename_i hopen
      exact Outlives.begin (show Outlives { e with inFlightInterrupts := _ } from h) .interrupt
        (hhandle (by simpa using hopen)) nofun
  | close =>
    simp only [Engine.call, Engine.close] at hcall
    split at hcall
    · exact (Option.some.inj hcall) ▸ h
    · rename_i hopen
      split at hcall
      · cases hcall
      · obtain rfl := Option.some.inj hcall
        refine h.begin .close (hhandle (by simpa using hopen)) fun _ => ?_
        exact (hm rfl).resolve_left hopen
  | closeRef i => exact (Option.some.inj hcall) ▸ h.closeRef hinv i
  | _ => exact henters hcall

/-- Only a call begins anything. -/
theorem Outlives.step (h : Outlives e) (hinv : Inv e) (hcareful : Careful e a)
    (hstep : e.step chars a = some e') : Outlives e' := by
  cases a with
  | call m =>
    simp only [Engine.step] at hstep
    split at hstep
    · refine h.call hinv ?_ hstep
      rintro rfl
      exact hcareful
    · cases hstep
  | callback c refs =>
    simp only [Engine.step] at hstep
    split at hstep
    · split at hstep
      · exact (Option.some.inj hstep) ▸ h
      · cases hstep
    · cases hstep
  | finish ref =>
    simp only [Engine.step, Engine.finish] at hstep
    split at hstep
    · exact (Option.some.inj hstep) ▸ h
    · exact (Option.some.inj hstep) ▸ h
    · cases hstep

theorem careful_of_step (hinv : Inv e) (hstep : e.step chars a = some e')
    (houtlives : Outlives e') :
    Careful e a := by
  unfold Careful
  split
  · simp only [Engine.step, Engine.call, Engine.close] at hstep
    split at hstep
    · split at hstep
      · exact .inl ‹_›
      · split at hstep
        · cases hstep
        · obtain rfl := Option.some.inj hstep
          by_contra hne
          exact not_outlives_close hinv (not_or.mp hne).2 houtlives
    · cases hstep
  · trivial

/-- As long as no callback closes the engine, no native call is cut short by `close`, and a step
keeps it that way exactly if it is not such a call. Nothing is called after `close`,
however the run goes on. -/
theorem engine_outlives_calls (h : Machine.Reaches (Engine.step chars) Careful init e) :
    Outlives e ∧ (∀ a e', e.step chars a = some e' → (Outlives e' ↔ Careful e a)) ∧
      ∀ t, Machine.Reaches (Engine.step chars) Machine.always e t → ∀ b ∈ t.begun, b.handle := by
  obtain ⟨hinv, houtlives⟩ : Inv e ∧ Outlives e := by
    refine h.invariant (I := fun e => Inv e ∧ Outlives e) ⟨init_inv, by simp [Outlives, init]⟩ ?_
    rintro e a e' ⟨hinv, houtlives⟩ hcareful hstep
    exact ⟨step_inv hinv hstep, houtlives.step hinv hcareful hstep⟩
  refine ⟨houtlives, fun a e' hstep => ⟨careful_of_step hinv hstep, fun hcareful => ?_⟩,
    fun t hrun => ?_⟩
  · exact houtlives.step hinv hcareful hstep
  · exact (reaches_inv hinv hrun).begun

def anyName : CharClasses := ⟨fun _ => true, fun _ => true⟩

/-- A host function evaluates again, and the host closes when all is done. -/
def closedLast : Engine :=
  ⟨true, 0, false, [⟨true, true⟩], [.native .close],
    [⟨.evaluate, [], true⟩, ⟨.evaluate, [.callback .onHostCall [0], .native .evaluate], true⟩, ⟨.close, [], true⟩]⟩

theorem engine_outlives_calls_nested :
    Outlives closedLast ∧
      (∀ a e', closedLast.step anyName a = some e' → (Outlives e' ↔ Careful closedLast a)) ∧
      ∀ t, Machine.Reaches (Engine.step anyName) Machine.always closedLast t → ∀ b ∈ t.begun, b.handle := by
  refine engine_outlives_calls (Machine.reaches_of_exec (l :=
    [.call .evaluate, .callback .onHostCall 1, .call .evaluate, .finish false, .finish false,
      .finish false,
      .call .close]) ?_)
  decide +kernel

/-- A host function closes the engine that runs it. -/
theorem host_function_closes :
    ¬ ∀ (chars : CharClasses) (e : Engine), Machine.Reaches (Engine.step chars) Machine.always init e →
      Outlives e := by
  intro h
  have hrun : Machine.exec (Engine.step anyName) Machine.always init
      [.call .evaluate, .callback .onHostCall 0, .call .close] =
      some ⟨true, 0, false, [], [.native .close, .callback .onHostCall [], .native .evaluate],
        [⟨.evaluate, [], true⟩, ⟨.close, [.callback .onHostCall [], .native .evaluate], true⟩]⟩ := by
    decide +kernel
  have houtlives := h anyName _ (Machine.reaches_of_exec hrun)
  have hclose := (houtlives ⟨.close, [.callback .onHostCall [], .native .evaluate], true⟩ (by decide)).1 rfl
  cases hclose (.native .evaluate) (by decide)

end QuickJsKmp.Reentry
