import Mathlib.Data.Multiset.AddSub
import QuickJsKmp.Bytecode
import QuickJsKmp.Finish
import QuickJsKmp.Lib.Hands

/-!
# Who owns what

The shim again, with every reference it takes and gives away. `owned` is the
multiset of references that the shim has to give back: a call that returns an
owned value adds to it, `JS_FreeValue` and a call that consumes its argument
take from it, and `fault` is set when there was nothing to take. Neither is
read by the code.

The calls nest as they do in the source. Script and host code are events of a
record; a call they make reads its own events from the same record, in the
place where it is made. What the texts say is left out, and the C heap is
assumed to give the memory it is asked for.
-/

namespace QuickJsKmp.Ledger

open Recorded (Prog)

-- ---------------------------------------------------------------------------
-- State
-- ---------------------------------------------------------------------------

/-- Compiled code is a module, or the function bytecode of a script. -/
structure Code where
  module : Bool
  ptr : ℕ
  deriving DecidableEq, Repr

inductive Held
  | value (v : JSValue)
  | code (c : Code)
  deriving DecidableEq, Repr

/-- The engine counts references to it. -/
def Held.counted : Held → Bool
  | .value .undefined | .value .null | .value (.bool _) | .value (.number _) => false
  | _ => true

structure Promise where
  state : PromiseState
  isHandled : Bool
  deriving DecidableEq, Repr

/-- What happened to the tracked rejections and to the counts of the slots. The
code reads none of it. -/
inductive Note
  | rejected (p : ℕ)
  | handled (p : ℕ)
  | unwrapped (p : ℕ)
  /-- `report_rejections` takes the entry from the list. -/
  | taken (p : ℕ)
  /-- The host is told, and the promise has a handler by then or not. -/
  | reported (p : ℕ) (isHandled : Bool)
  | drainFailed
  | discarded (p : ℕ)
  /-- With the count before. -/
  | retained (ref : Handle) (count : BitVec 32)
  | released (ref : Handle)
  /-- A call handed out a ref. -/
  | handed (ref : Handle)
  /-- A call returned; it began after so many notes. With `live_refs` before and after. -/
  | returned (start : ℕ) (before after : BitVec 32) (failed : Bool) (tag : Tag)
  /-- So did `js_kmp_host`. -/
  | hostReturned (start : ℕ) (before after : BitVec 32)
  /-- An argument's ref was not there any more when `js_kmp_host` gave it back. -/
  | argumentLost (ref : Handle)
  /-- The late drain failed after the result had become a ref. -/
  | resultLost (ref : Handle)
  deriving DecidableEq, Repr

/-- A note, with the list of the rejected promises right after it. -/
structure Moment where
  note : Note
  rejected : List ℕ
  deriving DecidableEq, Repr

structure Callbacks where
  host : Bool
  log : Bool
  rejection : Bool
  moduleLoader : Bool
  deriving DecidableEq, Repr

/-- `rows` is the module table: only a row of source has `mod->source`. -/
structure Shim where
  state : RunState
  oom : Bool
  slots : SlotTable
  rejected : List (ℕ × JSValue)
  bigintCtor : JSValue
  rows : List (Name × ModuleKind)
  callbacks : Callbacks
  jobs : ℕ
  promises : List (ℕ × Promise)
  pending : Option JSValue
  owned : Multiset Held
  fault : Bool
  log : List Moment
  deriving DecidableEq

/-- Right after `JS_NewContext`. -/
def Shim.blank (callbacks : Callbacks) : Shim where
  state := .idle
  oom := false
  slots := .empty
  rejected := []
  bigintCtor := .undefined
  rows := []
  callbacks := callbacks
  jobs := 0
  promises := []
  pending := none
  owned := 0
  fault := false
  log := []

namespace Shim

def promise (s : Shim) (p : ℕ) : Promise := (s.promises.lookup p).getD ⟨.pending, false⟩

def setPromise (s : Shim) (p : ℕ) (x : Promise) : Shim := { s with promises := (p, x) :: s.promises }

def note (s : Shim) (n : Note) : Shim := { s with log := s.log ++ [⟨n, s.rejected.map Prod.fst⟩] }

/-- `JS_DupValue`, and a value that is returned to be freed by the caller. -/
def own (s : Shim) (o : Held) : Shim := if o.counted then { s with owned := o ::ₘ s.owned } else s

/-- `JS_FreeValue`, and a value that a call consumes. -/
def give (s : Shim) (o : Held) : Shim :=
  if o.counted then
    if o ∈ s.owned then { s with owned := s.owned.erase o } else { s with fault := true }
  else s

-- ---------------------------------------------------------------------------
-- Tracked rejections
-- ---------------------------------------------------------------------------

/-- The promise object with this address. -/
def promiseValue (p : ℕ) : Held := .value (.object p .promise)

def forgetRejected (s : Shim) (i : ℕ) : Shim :=
  match s.rejected[i]? with
  | some (p, reason) =>
    { (s.give (promiseValue p)).give (.value reason) with
      rejected := QuickJsKmp.forgetRejected s.rejected i }
  | none => s

/-- `find_rejected`, and the entry goes. -/
def forgetPromise (s : Shim) (p : ℕ) : Shim :=
  match findRejected s.rejected p with
  | some i => s.forgetRejected i
  | none => s

def kmpRejectionTracker (s : Shim) (p : ℕ) (reason : JSValue) (isHandled : Bool) : Shim :=
  match findRejected s.rejected p, isHandled with
  | some i, true => s.forgetRejected i
  | none, true => s
  | some _, false => s
  | none, false =>
    { (s.own (promiseValue p)).own (.value reason) with rejected := s.rejected ++ [(p, reason)] }

/-- The loop that empties the list, from its end. -/
def forgetAll (s : Shim) : ℕ → Shim
  | 0 => s
  | n + 1 =>
    match s.rejected.getLast? with
    | some (p, _) => ((s.forgetRejected (s.rejected.length - 1)).note (.discarded p)).forgetAll n
    | none => s

-- ---------------------------------------------------------------------------
-- Slots
-- ---------------------------------------------------------------------------

/-- Takes the value over, and frees it when there is no slot. -/
def slotNew (s : Shim) (v : JSValue) : Shim × Handle :=
  let (slots, ref) := s.slots.slotNew v true
  if ref = 0 then (s.give (.value v), 0) else ({ s with slots := slots }, ref)

/-- `kmpjs_ref_retain`. -/
def refRetain (s : Shim) (ref : Handle) : Shim :=
  match s.slots.slotGet ref with
  | some slot =>
    { s with slots := s.slots.kmpjsRefRetain ref }.note (.retained ref slot.refcount)
  | none => s

/-- `--s->refcount == 0` frees the value. -/
def unref (s : Shim) (ref : Handle) (slot : Slot) : Shim :=
  let s' := if slot.refcount - 1 = 0 then s.give (.value slot.val) else s
  { s' with slots := s.slots.kmpjsRefRelease ref }

/-- `kmpjs_ref_release` by the host. -/
def refRelease (s : Shim) (ref : Handle) : Shim :=
  match s.slots.slotGet ref with
  | some slot => (s.unref ref slot).note (.released ref)
  | none => s

/-- `kmpjs_ref_release` of an argument, at the end of `js_kmp_host`. -/
def refGiveBack (s : Shim) (ref : Handle) : Shim :=
  match s.slots.slotGet ref with
  | some slot => s.unref ref slot
  | none => s.note (.argumentLost ref)

/-- `live_refs` of `kmpjs_get_stats`. -/
def liveRefs (s : Shim) : BitVec 32 := (s.slots.slots.map Slot.refcount).sum

end Shim

-- ---------------------------------------------------------------------------
-- The record
-- ---------------------------------------------------------------------------

/-- What script does to the engine. A promise is settled once; the tracker
hears of a rejection without a handler, and of the first handler after it. -/
inductive Act
  | enqueue
  | interrupt
  | oom (refused : Bool)
  | pend (exc : Option JSValue)
  | fulfill (p : ℕ) (v : JSValue)
  | reject (p : ℕ) (reason : JSValue)
  | attach (p : ℕ)
  deriving DecidableEq, Repr

def Shim.fulfill (s : Shim) (p : ℕ) (v : JSValue) : Option Shim :=
  match (s.promise p).state with
  | .pending => some (s.setPromise p ⟨.fulfilled v, (s.promise p).isHandled⟩)
  | _ => none

def Shim.reject (s : Shim) (p : ℕ) (reason : JSValue) : Option Shim :=
  match s.promise p with
  | ⟨.pending, true⟩ => some (s.setPromise p ⟨.rejected reason, true⟩)
  | ⟨.pending, false⟩ =>
    some (((s.setPromise p ⟨.rejected reason, false⟩).kmpRejectionTracker p reason false).note
      (.rejected p))
  | _ => none

def Shim.attach (s : Shim) (p : ℕ) : Shim :=
  match s.promise p with
  | ⟨.rejected reason, false⟩ =>
    ((s.setPromise p ⟨.rejected reason, true⟩).kmpRejectionTracker p reason true).note (.handled p)
  | ⟨st, _⟩ => s.setPromise p ⟨st, true⟩

def Shim.act (s : Shim) : Act → Option Shim
  | .enqueue => some { s with jobs := s.jobs + 1 }
  | .interrupt => some { s with state := kmpjsInterrupt s.state }
  | .oom refused => some { s with oom := refused }
  | .pend exc => some { s with pending := exc }
  | .fulfill p v => s.fulfill p v
  | .reject p reason => s.reject p reason
  | .attach p => some (s.attach p)

/-- The functions of the public interface. Of the texts only those remain that
decide what is owned. -/
inductive Call
  | eval (refObjects : Bool)
  | registerModule (name : Name)
  | evalModule (name : Name) (refObjects : Bool)
  | runBytecode (buf : Bytes) (refObjects : Bool)
  | registerModuleBytecode (buf : Bytes)
  | defineFunction (fnId : Int)
  | refRetain (ref : Handle)
  | refRelease (ref : Handle)
  | refGet (ref : Handle) (refObjects : Bool)
  | refGetIndex (ref : Handle) (index : Int) (refObjects : Bool)
  | refSet (ref : Handle) (value : HostValue)
  | refCall (ref thisRef : Handle) (args : List HostValue) (refObjects : Bool)
  | refToJson (ref : Handle)
  | interrupt
  deriving DecidableEq, Repr

/-- How the engine or the host answers: a value or code that is the caller's
now, an exception left pending, text that is lent, success, NULL, or the
host's result with its return code. -/
inductive Answer
  | value (v : JSValue)
  | code (c : Code)
  | threw (exc : JSValue)
  | text (bytes : Bytes)
  | done
  | null
  | host (failed : Bool) (v : HostValue)
  deriving DecidableEq, Repr

/-- `call` is made by host code, `hostFunction` and `importModule` by script. -/
inductive Event
  | act (a : Act)
  | call (c : Call)
  | hostFunction (refObjects : Bool) (argv : List JSValue)
  | importModule (name : Name)
  | answer (a : Answer)
  deriving DecidableEq, Repr

abbrev M := Prog Shim Event

-- ---------------------------------------------------------------------------
-- Calls into the engine
-- ---------------------------------------------------------------------------

def own (o : Held) : M Unit := Recorded.modify fun s => s.own o

def free (o : Held) : M Unit := Recorded.modify fun s => s.give o

/-- The call consumes its argument. -/
def give (o : Held) : M Unit := free o

def note (n : Note) : M Unit := Recorded.modify fun s => s.note n

def pend (exc : JSValue) : M Unit := Recorded.modify fun s => { s with pending := some exc }

/-- `JS_FreeValue` of what may be `JS_EXCEPTION`. -/
def freeAny : Option JSValue → M Unit
  | some v => free (.value v)
  | none => pure ()

def freeAll : List JSValue → M Unit
  | [] => pure ()
  | v :: vs => do
    free (.value v)
    freeAll vs

/-- A call that runs no script. -/
def primitive : M Answer :=
  Recorded.next fun e s =>
    match e with
    | .answer a => some (a, s)
    | _ => none

/-- `none` is `JS_EXCEPTION`. -/
def value (call : M Answer) : M (Option JSValue) := do
  match ← call with
  | .value v => do
    own (.value v)
    pure (some v)
  | .threw exc => do
    pend exc
    pure none
  | _ => Recorded.fail

def code (call : M Answer) : M (Option Code) := do
  match ← call with
  | .code c => do
    own (.code c)
    pure (some c)
  | .threw exc => do
    pend exc
    pure none
  | _ => Recorded.fail

/-- A call that returns an `int`, or bytes that are lent. -/
def status (call : M Answer) : M Bool := do
  match ← call with
  | .done => pure true
  | .threw exc => do
    pend exc
    pure false
  | _ => Recorded.fail

def getException : M JSValue := fun s es =>
  let exc := s.pending.getD .undefined
  some (exc, { s with pending := none }.own (.value exc), es)

def jsThrow (exc : JSValue) : M Unit := do
  give (.value exc)
  pend exc

/-- `JS_ThrowTypeError` and the like: the error is the engine's. -/
def throwTypeError : M Unit := pend shimError

def dropException : M Unit := do
  let exc ← getException
  free (.value exc)

-- ---------------------------------------------------------------------------
-- Values to the host
-- ---------------------------------------------------------------------------

def copyJsString : M Bool := status primitive

def isArray (v : JSValue) : M Bool :=
  match v with
  | .object _ .array => pure true
  | .object _ (.revokedProxy _) | .object _ (.deepProxy _) => do
    throwTypeError
    pure false
  | _ => pure false

def objectKind (v : JSValue) : M RefKind := do
  let array ← isArray v
  pure
    { isFunction := v.isFunction
      isArray := array
      isPromise := match v with | .object _ .promise => true | _ => false }

def slotNew (v : JSValue) : M Handle := fun s es => some ((s.slotNew v).2, (s.slotNew v).1, es)

def refToOut (v : JSValue) : M (Option Tag) := do
  let kind ← objectKind v
  own (.value v)
  let ref ← slotNew v
  if ref = 0 then do
    throwTypeError
    pure none
  else pure (some (.ref ref kind))

def textToOut (tag : Tag) : M (Option Tag) := do
  let ok ← copyJsString
  pure (if ok then some tag else none)

/-- An array buffer lends its bytes; a typed array hands out its buffer first. -/
def binaryToOut : M (Option Tag) := do
  match ← primitive with
  | .done => pure (some .binary)
  | .threw exc => do
    pend exc
    pure none
  | .value buffer => do
    own (.value buffer)
    let ok ← status primitive
    free (.value buffer)
    pure (if ok then some .binary else none)
  | _ => Recorded.fail

section Script

-- What runs when a call enters script or the host.
variable (script : M Answer)

def jsonToOut : M (Option Tag) := do
  match ← value script with
  | none => pure none
  | some .undefined => pure (some .object)
  | some json => do
    let tag ← textToOut .object
    free (.value json)
    pure tag

/-- `out->tag`; `none` is -1, with the exception pending. -/
def valueToOut (v : JSValue) (refObjects : Bool) : M (Option Tag) :=
  match v with
  | .undefined => pure (some .undefined)
  | .null => pure (some .null)
  | .bool b => pure (some (.bool b))
  | .number bits => pure (some (.number bits))
  | .string _ => textToOut .string
  | .bigInt _ => textToOut .bigInt
  | .symbol _ => if refObjects then refToOut v else jsonToOut script
  | .object _ cls =>
    if refObjects then refToOut v
    else if v.isFunction then pure (some .object)
    else match cls with
      | .binary => binaryToOut
      | _ => jsonToOut script

def isString : JSValue → Bool
  | .string _ => true
  | _ => false

def copyAny : Option JSValue → M Bool
  | some _ => copyJsString
  | none => pure false

def dropUnless (ok : Bool) : M Unit := if ok then pure () else dropException

/-- The message: `JS_ToString` and the copy. -/
def messageToOut : M Unit := do
  let s ← value script
  let ok ← copyAny s
  dropUnless ok
  freeAny s

def copyIfString (s : JSValue) : M Bool := if isString s then copyJsString else pure true

/-- The stack of an Error. A text that cannot be copied leaves its exception
pending. -/
def stackToOut : M Unit := do
  match ← value script with
  | none => dropException
  | some s => do
    let _ ← copyIfString s
    free (.value s)

def stackOf (exc : JSValue) : M Unit := if exc.isError then stackToOut script else pure ()

/-- Frees the error it is given. -/
def errorToOut (exc : JSValue) : M Unit := do
  messageToOut script
  stackOf script exc
  free (.value exc)

/-- The exception, and whether it stands for a refused allocation. -/
def takeException : M (JSValue × Bool) := do
  let s ← Recorded.get
  let exc ← getException
  Recorded.modify fun s => { s with oom := false }
  pure (exc, exc = .null ∧ s.oom)

/-- `oom_to_out` has nothing to free: the exception is `JS_NULL`. -/
def describe (exc : JSValue) (oom : Bool) : M Unit := if oom then pure () else errorToOut script exc

def exceptionToOut : M Unit := do
  let (exc, oom) ← takeException
  describe script exc oom

-- ---------------------------------------------------------------------------
-- Values from the host
-- ---------------------------------------------------------------------------

/-- The message string is made in the argument list of the call that consumes it. -/
def throwMessage : M Unit := do
  match ← value primitive with
  | none => pure ()
  | some err => do
    let message ← value primitive
    freeAny message
    if ← status primitive then jsThrow err else free (.value err)

def valueFromHost (v : HostValue) : M (Option JSValue) :=
  match v with
  | .undefined => pure (some .undefined)
  | .null => pure (some .null)
  | .bool b => pure (some (.bool b))
  | .number bits => pure (some (.number bits))
  | .string _ => value primitive
  | .object none => pure (some .undefined)
  | .object (some _) => value primitive
  | .ref ref => do
    let s ← Recorded.get
    match s.slots.slotGet ref with
    | none => do
      throwTypeError
      pure none
    | some slot => do
      own (.value slot.val)
      pure (some slot.val)
  | .bigInt _ => do
    match ← value primitive with
    | none => pure none
    | some text => do
      let r ← value primitive
      free (.value text)
      pure r
  | .binary _ => value primitive
  | .exception _ => do
    throwMessage
    pure none

-- ---------------------------------------------------------------------------
-- Draining and reporting
-- ---------------------------------------------------------------------------

/-- `JS_ExecutePendingJob` with a job in the queue. -/
def executePendingJob : M Bool := do
  Recorded.modify fun s => { s with jobs := s.jobs - 1 }
  status script

/-- `true` is `rc < 0`. A round with a job reads an event, so the record bounds
the rounds. -/
def drainLoop : ℕ → M Bool
  | 0 => Recorded.fail
  | fuel + 1 => do
    let s ← Recorded.get
    if s.state = .interrupted then do
      throwTypeError
      pure true
    else if s.jobs = 0 then pure false
    else do
      if ← executePendingJob script then drainLoop fuel else pure true

def discardLoop : ℕ → M Unit
  | 0 => Recorded.fail
  | fuel + 1 => do
    let s ← Recorded.get
    if s.jobs = 0 then pure ()
    else do
      let _ ← executePendingJob script
      dropException
      discardLoop fuel

def discardJobs : M Unit := do
  Recorded.bounded (discardLoop script)
  Recorded.modify fun s => s.forgetAll s.rejected.length

def drainJobs : M Bool := do
  let failed ← Recorded.bounded (drainLoop script)
  if failed then do
    note .drainFailed
    let exc ← getException
    discardJobs script
    jsThrow exc
    pure true
  else pure false

/-- The last entry leaves the list; its reason is kept. -/
def takeLast : M (Option (ℕ × JSValue)) := fun s es =>
  match s.rejected.getLast? with
  | some (p, reason) =>
    some (some (p, reason),
      ((s.own (.value reason)).forgetRejected (s.rejected.length - 1)).note (.taken p), es)
  | none => some (none, s, es)

/-- `e->rejection`, or else `e->log`. -/
def callback (p : ℕ) : M Unit := do
  let s ← Recorded.get
  if s.callbacks.rejection ∨ s.callbacks.log then do
    Recorded.modify fun s => s.note (.reported p (s.promise p).isHandled)
    match ← script with
    | .done => pure ()
    | _ => Recorded.fail
  else pure ()

def reportLoop : ℕ → M Unit
  | 0 => Recorded.fail
  | fuel + 1 => do
    match ← takeLast with
    | none => pure ()
    | some (p, reason) => do
      errorToOut script reason
      callback script p
      reportLoop fuel

def reportRejections : M Unit := Recorded.bounded (reportLoop script)

-- ---------------------------------------------------------------------------
-- finish
-- ---------------------------------------------------------------------------

def runBegin : M Bool := fun s es =>
  let outermost := (QuickJsKmp.runBegin s.state).2
  some (outermost, { s with
    state := (QuickJsKmp.runBegin s.state).1
    oom := if outermost then false else s.oom }, es)

def runEnd (outermost : Bool) : M Unit :=
  Recorded.modify fun s => { s with state := QuickJsKmp.runEnd outermost s.state }

def failWith : M Outcome := do
  let (exc, oom) ← takeException
  pure (.failed exc oom)

def ownResult (v : Option JSValue) (refObjects : Bool) : M Outcome :=
  match v with
  | some v => pure (.value v refObjects)
  | none => failWith

/-- The first drain. The exception of a failed one does not replace the call's own. -/
def drained (o : Outcome) : M Outcome := do
  if ← drainJobs script then
    match o with
    | .failed exc oom => do
      dropException
      pure (.failed exc oom)
    | .value v _ => do
      let o' ← failWith
      free (.value v)
      pure o'
  else pure o

/-- `JS_PROMISE_REJECTED`: the reason, and the entry goes. -/
def unwrapRejected (p : ℕ) (v reason : JSValue) : M Outcome := do
  Recorded.modify fun s => ((s.own (.value reason)).forgetPromise p).note (.unwrapped p)
  free (.value v)
  jsThrow reason
  failWith

def unwrapFulfilled (v result : JSValue) (refObjects module : Bool) : M Outcome :=
  if module then do
    let ns ← value script
    free (.value v)
    ownResult ns refObjects
  else do
    own (.value result)
    free (.value v)
    pure (.value result refObjects)

def unwrapPromise (v : JSValue) (refObjects module : Bool) : M Outcome :=
  match v with
  | .object p .promise => do
    let s ← Recorded.get
    match (s.promise p).state with
    | .fulfilled result => unwrapFulfilled script v result refObjects module
    | .rejected reason => unwrapRejected p v reason
    | .pending => pure (.value v true)
  | v => pure (.value v refObjects)

def unwrapped (unwrap module : Bool) (o : Outcome) : M Outcome :=
  match o with
  | .value v refObjects => if unwrap then unwrapPromise script v refObjects module else pure o
  | .failed _ _ => pure o

/-- `*out` is overwritten, whatever it held. -/
def loseResult : Tag → M Unit
  | .ref ref _ => note (.resultLost ref)
  | _ => pure ()

def lateWork (tag : Tag) : M (Bool × Tag) := do
  if ← drainJobs script then do
    loseResult tag
    exceptionToOut script
    pure (true, .exception)
  else do
    reportRejections script
    pure (false, tag)

/-- The conversion and the late work; the value is still the caller's. -/
def convert (outermost : Bool) (v : JSValue) (refObjects : Bool) : M (Bool × Tag) := do
  match ← valueToOut script v refObjects with
  | none => do
    exceptionToOut script
    pure (true, .exception)
  | some tag => do
    let s ← Recorded.get
    if outermost ∧ (s.jobs ≠ 0 ∨ s.rejected ≠ []) then lateWork script tag
    else pure (false, tag)

def writeOut (outermost : Bool) (o : Outcome) : M (Bool × Tag) :=
  match o with
  | .failed exc oom => do
    describe script exc oom
    pure (true, .exception)
  | .value v refObjects => do
    let r ← convert script outermost v refObjects
    free (.value v)
    pure r

def drainOutermost (outermost : Bool) (o : Outcome) : M Outcome :=
  if outermost then drained script o else pure o

def reportOutermost (outermost : Bool) : M Unit :=
  if outermost then reportRejections script else pure ()

/-- Whether the call failed, and `out->tag`. -/
def finish (outermost : Bool) (v : Option JSValue) (refObjects unwrap module : Bool) :
    M (Bool × Tag) := do
  let o ← ownResult v refObjects
  let o ← drainOutermost script outermost o
  let o ← unwrapped script unwrap module o
  reportOutermost script outermost
  let r ← writeOut script outermost o
  runEnd outermost
  pure r

end Script

end QuickJsKmp.Ledger
