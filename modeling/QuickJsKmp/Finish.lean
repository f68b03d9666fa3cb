import QuickJsKmp.Slots
import QuickJsKmp.Value
import QuickJsKmp.Interrupt
import QuickJsKmp.Lib.Recorded

/-!
# How a call ends

`finish` and what it calls. Script runs at many of its points, and script may
call the host, which may call the engine again: what such code did is a record
of steps, one for each call into the engine, in order. A step says at which
point of `finish` it was made, what it did to the engine and how it answered.
A call nested in a step only acts on the shared state, since it neither drains
nor reports; its acts are effects of the step.

The C heap is assumed to give the memory it is asked for. The engine's own
allocations may be refused.
-/

namespace QuickJsKmp

open Recorded (Prog Keeps)

-- ---------------------------------------------------------------------------
-- The engine, as finish sees it
-- ---------------------------------------------------------------------------

inductive PromiseState
  | pending
  | fulfilled (v : JSValue)
  | rejected (reason : JSValue)
  deriving DecidableEq, Repr

inductive BufName
  | outStr
  | outStack
  | rejStr
  | rejStack
  | logLine
  deriving DecidableEq, Repr

/-- `jobs` is the length of the engine's job queue, `pending` the context's
current exception; `rejection` and `log` tell whether the host gave these
callbacks. A rejected entry is the promise's pointer and the reason. -/
structure World where
  state : RunState
  oom : Bool
  outStr : Buf
  outStack : Buf
  rejStr : Buf
  rejStack : Buf
  logLine : Buf
  slots : SlotTable
  rejected : List (ℕ × JSValue)
  jobs : ℕ
  promises : List (ℕ × PromiseState)
  pending : Option JSValue
  rejection : Bool
  log : Bool
  deriving DecidableEq, Repr

/-- The engine that `kmpjs_create` returns to a host with both callbacks. -/
def World.init : World where
  state := .idle
  oom := false
  outStr := .zero
  outStack := .zero
  rejStr := .zero
  rejStack := .zero
  logLine := .zero
  slots := .empty
  rejected := []
  jobs := 0
  promises := []
  pending := none
  rejection := true
  log := true

def World.buf (w : World) : BufName → Buf
  | .outStr => w.outStr
  | .outStack => w.outStack
  | .rejStr => w.rejStr
  | .rejStack => w.rejStack
  | .logLine => w.logLine

def World.setBuf (w : World) (name : BufName) (b : Buf) : World :=
  match name with
  | .outStr => { w with outStr := b }
  | .outStack => { w with outStack := b }
  | .rejStr => { w with rejStr := b }
  | .rejStack => { w with rejStack := b }
  | .logLine => { w with logLine := b }

def World.promiseState (w : World) (promise : ℕ) : PromiseState :=
  (w.promises.lookup promise).getD .pending

def findRejected (rejected : List (ℕ × JSValue)) (promise : ℕ) : Option ℕ :=
  rejected.findIdx? fun r => r.1 = promise

/-- The last entry takes the place of the one that goes. -/
def forgetRejected (rejected : List (ℕ × JSValue)) (i : ℕ) : List (ℕ × JSValue) :=
  match rejected.getLast? with
  | some last => (rejected.set i last).dropLast
  | none => rejected

def kmpRejectionTracker (rejected : List (ℕ × JSValue)) (promise : ℕ) (reason : JSValue)
    (isHandled : Bool) : List (ℕ × JSValue) :=
  match findRejected rejected promise, isHandled with
  | some i, true => forgetRejected rejected i
  | none, true => rejected
  | some _, false => rejected
  | none, false => rejected ++ [(promise, reason)]

-- ---------------------------------------------------------------------------
-- What code outside the shim does
-- ---------------------------------------------------------------------------

/-- An act of script, of host code or of the calls they make: `write` is a
nested call's payload in `e->out_str` or `e->out_stack`. -/
inductive Effect
  | write (stack : Bool) (bytes : Bytes)
  | enqueue
  | track (promise : ℕ) (reason : JSValue) (isHandled : Bool)
  | settle (promise : ℕ) (st : PromiseState)
  | interrupt
  | oom (refused : Bool)
  | pend (exc : Option JSValue)
  | slot (op : SlotTable.Op)
  deriving DecidableEq, Repr

def World.apply (w : World) : Effect → World
  | .write false bytes => { w with outStr := w.outStr.write (cells .nested bytes) }
  | .write true bytes => { w with outStack := w.outStack.write (cells .nested bytes) }
  | .enqueue => { w with jobs := w.jobs + 1 }
  | .track promise reason isHandled =>
    { w with rejected := kmpRejectionTracker w.rejected promise reason isHandled }
  | .settle promise st => { w with promises := (promise, st) :: w.promises }
  | .interrupt => { w with state := kmpjsInterrupt w.state }
  | .oom refused => { w with oom := refused }
  | .pend exc => { w with pending := exc }
  | .slot op => { w with slots := w.slots.apply op }

def World.perform (w : World) (effects : List Effect) : World := effects.foldl World.apply w

/-- Where a call into the engine is made, and the exception that is described
there. `late` marks the second drain and report of `finish` and the exception
that the second drain leaves. -/
inductive Point
  | body
  | drain (late : Bool)
  | discard (late : Bool)
  | moduleNamespace
  | report (late : Bool)
  | convert
  | message (late : Bool) (exc : JSValue)
  | stack (late : Bool) (exc : JSValue)
  deriving DecidableEq, Repr

/-- A value, an exception left pending, or bytes that the engine lends. -/
inductive Answer
  | value (v : JSValue)
  | threw (exc : JSValue)
  | text (bytes : Bytes)
  deriving DecidableEq, Repr

structure Step where
  point : Point
  effects : List Effect
  answer : Answer
  deriving DecidableEq, Repr

abbrev M := Prog World Step

/-- A call that can run script, as the step that records it; `none` is
`JS_EXCEPTION`. -/
def engineStep (pt : Point) (s : Step) (w : World) : Option (Option JSValue × World) :=
  if s.point = pt then
    match s.answer with
    | .value v => some (some v, w.perform s.effects)
    | .threw exc => some (none, { w.perform s.effects with pending := some exc })
    | .text _ => none
  else none

def engine (pt : Point) : M (Option JSValue) := Recorded.next (engineStep pt)

/-- A call that lends bytes and runs no script; it can only run out of memory. -/
def lend (pt : Point) : M (Option Bytes) :=
  Recorded.next fun s w =>
    if s.point = pt ∧ (s.effects = [] ∨ s.effects = [.oom true]) then
      match s.answer with
      | .text t => some (some t, w.perform s.effects)
      | .threw exc => some (none, { w.perform s.effects with pending := some exc })
      | .value _ => none
    else none

/-- A host callback. -/
def host (pt : Point) : M Unit :=
  Recorded.next fun s w =>
    if s.point = pt ∧ s.answer = .value .undefined then some ((), w.perform s.effects) else none

-- ---------------------------------------------------------------------------
-- Conversions
-- ---------------------------------------------------------------------------

/-- What `publish` stores in `out`. -/
structure Published where
  name : BufName
  ptr : Ptr
  deriving DecidableEq, Repr

structure RefKind where
  isFunction : Bool
  isArray : Bool
  isPromise : Bool
  deriving DecidableEq, Repr

inductive Tag
  | undefined
  | null
  | bool (b : Bool)
  | number (bits : UInt64)
  | string
  | object
  | ref (handle : Handle) (kind : RefKind)
  | bigInt
  | binary
  | exception
  deriving DecidableEq, Repr

/-- `kmpjs_value` as a result. -/
structure Out where
  tag : Tag
  str : Option Published
  stack : Option Published
  deriving DecidableEq, Repr

def write (who : Writer) (name : BufName) (bytes : Bytes) : M Unit :=
  Recorded.modify fun w => w.setBuf name ((w.buf name).write (cells who bytes))

def publish (name : BufName) : M Published := do
  let w ← Recorded.get
  pure ⟨name, (w.buf name).publish⟩

/-- What stands where a published pointer leads to; NULL has a length of zero. -/
def World.reads (w : World) : Option Published → Option (List (Option Cell))
  | none => some []
  | some p => (w.buf p.name).read p.ptr

/-- `buf_reset`, `buf_append` and `publish`. -/
def publishText (who : Writer) (name : BufName) (bytes : Bytes) : M Published := do
  write who name bytes
  publish name

/-- `JS_ToCStringLen` of a string or a BigInt. -/
def toCStringLen (pt : Point) (v : JSValue) : M (Option Bytes) := do
  match ← lend pt with
  | none => pure none
  | some t => if v = .string t ∨ v = .bigInt t then pure (some t) else Recorded.fail

/-- `copy_js_string` into a buffer, and its publication. -/
def copyJsString (who : Writer) (pt : Point) (v : JSValue) (name : BufName) :
    M (Option Published) := do
  match ← toCStringLen pt v with
  | none => pure none
  | some t => do
    let p ← publishText who name t
    pure (some p)

def clearException : M Unit := Recorded.modify fun w => { w with pending := none }

def jsThrow (exc : JSValue) : M Unit := Recorded.modify fun w => { w with pending := some exc }

/-- The error objects the shim throws itself. No address is shared with script. -/
def shimError : JSValue := .object 0 .error

def slotNew (v : JSValue) : M Handle := fun w ss =>
  some ((w.slots.slotNew v true).2, { w with slots := (w.slots.slotNew v true).1 }, ss)

/-- `JS_IsArray` throws where it does not come to the end of a chain of proxies, and
its caller only asks whether the answer is above zero. -/
def isArray (v : JSValue) : M Bool :=
  match v with
  | .object _ .array => pure true
  | .object _ (.revokedProxy _) | .object _ (.deepProxy _) => do
    jsThrow shimError
    pure false
  | _ => pure false

def objectKind (v : JSValue) : M RefKind := do
  let array ← isArray v
  pure
    { isFunction := v.isFunction
      isArray := array
      isPromise := match v with | .object _ .promise => true | _ => false }

/-- A string or a BigInt. -/
def textToOut (who : Writer) (tag : Tag) (v : JSValue) : M (Option Out) := do
  match ← copyJsString who .convert v .outStr with
  | none => pure none
  | some p => pure (some ⟨tag, some p, none⟩)

def refToOut (v : JSValue) : M (Option Out) := do
  let kind ← objectKind v
  let handle ← slotNew v
  if handle = 0 then do
    jsThrow shimError
    pure none
  else pure (some ⟨.ref handle kind, none, none⟩)

/-- The bytes of a buffer or a typed array, unless it is detached. -/
def binaryToOut (who : Writer) : M (Option Out) := do
  match ← lend .convert with
  | none => pure none
  | some bytes => do
    let p ← publishText who .outStr bytes
    pure (some ⟨.binary, some p, none⟩)

/-- `JS_JSONStringify`; nothing serializable leaves no payload. -/
def jsonToOut (who : Writer) : M (Option Out) := do
  match ← engine .convert with
  | none => pure none
  | some .undefined => pure (some ⟨.object, none, none⟩)
  | some json => textToOut who .object json

/-- `value_to_out` into `e->out_str`; `none` leaves the exception pending. -/
def valueToOut (who : Writer) (v : JSValue) (refObjects : Bool) : M (Option Out) :=
  match v with
  | .undefined => pure (some ⟨.undefined, none, none⟩)
  | .null => pure (some ⟨.null, none, none⟩)
  | .bool b => pure (some ⟨.bool b, none, none⟩)
  | .number bits => pure (some ⟨.number bits, none, none⟩)
  | .string _ => textToOut who .string v
  | .bigInt _ => textToOut who .bigInt v
  | .symbol _ => if refObjects then refToOut v else jsonToOut who
  | .object _ cls =>
    if refObjects then refToOut v
    else if v.isFunction then pure (some ⟨.object, none, none⟩)
    else match cls with
      | .binary => binaryToOut who
      | _ => jsonToOut who

/-- Where `error_to_out` is called from, and the buffers it is given. -/
structure Sink where
  message : Point
  stack : Point
  str : BufName
  stackStr : BufName

def callSink (late : Bool) (exc : JSValue) : Sink :=
  ⟨.message late exc, .stack late exc, .outStr, .outStack⟩

def reportSink (late : Bool) : Sink := ⟨.report late, .report late, .rejStr, .rejStack⟩

def unknownException : Bytes := ascii "unknown exception"

def outOfMemory : Bytes := ascii "InternalError: out of memory"

/-- What `JS_ToString` can answer: a string is its own text. -/
def stringOf (v : JSValue) : Option JSValue → M (Option JSValue)
  | none => pure none
  | some (.string t) =>
    match v with
    | .string t' => if t = t' then pure (some (.string t)) else Recorded.fail
    | _ => pure (some (.string t))
  | some _ => Recorded.fail

def jsToString (pt : Point) (v : JSValue) : M (Option JSValue) := do
  let s ← engine pt
  stringOf v s

/-- The text of the message, or a fixed one if there is none. -/
def copiedText (pt : Point) : Option JSValue → M Bytes
  | none => do
    clearException
    pure unknownException
  | some s => do
    match ← toCStringLen pt s with
    | none => do
      clearException
      pure unknownException
    | some t => pure t

def messageText (pt : Point) (exc : JSValue) : M Bytes := do
  let s ← jsToString pt exc
  copiedText pt s

/-- The `stack` of an Error object, if it is a string. A text that cannot be
copied leaves its exception pending. -/
def stackToOut (who : Writer) (sink : Sink) : M (Option Published) := do
  match ← engine sink.stack with
  | none => do
    clearException
    pure none
  | some (.string t) => copyJsString who sink.stack (.string t) sink.stackStr
  | some _ => pure none

/-- The message is written and published before the stack is asked for. -/
def publishError (who : Writer) (sink : Sink) (exc : JSValue) (text : Bytes) : M Out := do
  let str ← publishText who sink.str text
  if exc.isError then do
    let stack ← stackToOut who sink
    pure ⟨.exception, some str, stack⟩
  else pure ⟨.exception, some str, none⟩

def errorToOut (who : Writer) (sink : Sink) (exc : JSValue) : M Out := do
  let text ← messageText sink.message exc
  publishError who sink exc text

/-- The exception, and whether it stands for a refused allocation. -/
def takeException : M (JSValue × Bool) := do
  let w ← Recorded.get
  Recorded.modify fun w => { w with pending := none, oom := false }
  let exc := w.pending.getD .undefined
  pure (exc, exc = .null ∧ w.oom)

def oomToOut (who : Writer) : M Out := do
  let p ← publishText who .outStr outOfMemory
  pure ⟨.exception, some p, none⟩

def describe (who : Writer) (late : Bool) (exc : JSValue) (oom : Bool) : M Out :=
  if oom then oomToOut who else errorToOut who (callSink late exc) exc

def exceptionToOut (who : Writer) (late : Bool) : M Out := do
  let (exc, oom) ← takeException
  describe who late exc oom

-- ---------------------------------------------------------------------------
-- Draining and reporting
-- ---------------------------------------------------------------------------

/-- `JS_ExecutePendingJob` with a job in the queue. -/
def executePendingJob (pt : Point) (s : Step) (w : World) : Option (Option JSValue × World) :=
  engineStep pt s { w with jobs := w.jobs - 1 }

/-- The loop of `drain_jobs`; `true` is `rc < 0`, with the exception pending. A
round with a job reads one step, so the record bounds the rounds. -/
def drainLoop (late : Bool) (w : World) : List Step → Option (Bool × World × List Step)
  | [] =>
    if w.state = .interrupted then some (true, { w with pending := some shimError }, [])
    else if w.jobs = 0 then some (false, w, [])
    else none
  | s :: ss =>
    if w.state = .interrupted then some (true, { w with pending := some shimError }, s :: ss)
    else if w.jobs = 0 then some (false, w, s :: ss)
    else
      match executePendingJob (.drain late) s w with
      | some (some _, w') => drainLoop late w' ss
      | some (none, w') => some (true, w', ss)
      | none => none

/-- The loop of `discard_jobs`: a job that fails at once, its exception dropped. -/
def discardLoop (late : Bool) (w : World) : List Step → Option (Unit × World × List Step)
  | [] => if w.jobs = 0 then some ((), w, []) else none
  | s :: ss =>
    if w.jobs = 0 then some ((), w, s :: ss)
    else
      match executePendingJob (.discard late) s w with
      | some (_, w') => discardLoop late { w' with pending := none } ss
      | none => none

def discardJobs (late : Bool) : M Unit := do
  discardLoop late
  Recorded.modify fun w => { w with rejected := [] }

def drainJobs (late : Bool) : M Bool := do
  let failed ← drainLoop late
  if failed then do
    let w ← Recorded.get
    clearException
    discardJobs late
    jsThrow (w.pending.getD .undefined)
    pure true
  else pure false

def rejectionPrefix : Bytes := ascii "Unhandled promise rejection: "

/-- The bytes that `buf_append` copies. -/
def bytesOf (cs : List (Option Cell)) : Bytes := cs.map fun c => (c.map Cell.byte).getD 0

/-- One round of `report_rejections`, with the last entry's reason. -/
def reportOne (who : Writer) (late : Bool) (reason : JSValue) : M Unit := do
  Recorded.modify fun w => { w with rejected := w.rejected.dropLast }
  let out ← errorToOut who (reportSink late) reason
  let w ← Recorded.get
  if w.rejection then host (.report late)
  else if w.log then do
    write who .logLine (rejectionPrefix ++ bytesOf ((w.reads out.str).getD []))
    host (.report late)
  else pure ()

/-- A round reads at least one step, so a fuel of the record's length is
enough. -/
def reportLoop (who : Writer) (late : Bool) : ℕ → M Unit
  | 0 => do
    let w ← Recorded.get
    if w.rejected = [] then pure () else Recorded.fail
  | fuel + 1 => do
    let w ← Recorded.get
    match w.rejected.getLast? with
    | none => pure ()
    | some (_, reason) => do
      reportOne who late reason
      reportLoop who late fuel

def reportRejections (who : Writer) (late : Bool) : M Unit := fun w ss =>
  reportLoop who late ss.length w ss

-- ---------------------------------------------------------------------------
-- finish
-- ---------------------------------------------------------------------------

/-- The local variables `v`, `flags`, `exc`, `oom` and `failed` of `finish`. -/
inductive Outcome
  | value (v : JSValue) (refObjects : Bool)
  | failed (exc : JSValue) (oom : Bool)
  deriving DecidableEq, Repr

def failWith : M Outcome := do
  let (exc, oom) ← takeException
  pure (.failed exc oom)

/-- The call's own exception is taken before the drain. -/
def ownResult (v : Option JSValue) (refObjects : Bool) : M Outcome :=
  match v with
  | some v => pure (.value v refObjects)
  | none => failWith

/-- The exception of a failed drain does not replace the call's own. -/
def keepOwn (o : Outcome) (drainFailed : Bool) : M Outcome :=
  match drainFailed, o with
  | true, .failed exc oom => do
    clearException
    pure (.failed exc oom)
  | true, .value _ _ => failWith
  | false, o => pure o

def drained (o : Outcome) : M Outcome := do
  let failed ← drainJobs false
  keepOwn o failed

def unwrapPromise (v : JSValue) (refObjects module : Bool) : M Outcome :=
  match v with
  | .object ptr .promise => do
    let w ← Recorded.get
    match w.promiseState ptr with
    | .fulfilled r =>
      if module then do
        match ← engine .moduleNamespace with
        | some ns => pure (.value ns refObjects)
        | none => failWith
      else pure (.value r refObjects)
    | .rejected r => do
      Recorded.modify fun w => { w with
        rejected := match findRejected w.rejected ptr with
          | some i => forgetRejected w.rejected i
          | none => w.rejected }
      jsThrow r
      failWith
    | .pending => pure (.value v true)
  | v => pure (.value v refObjects)

def unwrapped (unwrap module : Bool) (o : Outcome) : M Outcome :=
  match o with
  | .value v refObjects => if unwrap then unwrapPromise v refObjects module else pure o
  | .failed _ _ => pure o

/-- The second drain and report. The payload is set aside during the drain. -/
def lateWork (who : Writer) (out : Out) : M (Bool × Out) := do
  let w ← Recorded.get
  let keep := w.outStr
  Recorded.modify fun w => { w with outStr := .zero }
  let failed ← drainJobs true
  Recorded.modify fun w => { w with outStr := keep }
  if failed then do
    let out ← exceptionToOut who true
    pure (true, out)
  else do
    reportRejections who true
    pure (false, out)

def writeOut (who : Writer) (outermost : Bool) (o : Outcome) : M (Bool × Out) :=
  match o with
  | .failed exc oom => do
    let out ← describe who false exc oom
    pure (true, out)
  | .value v refObjects => do
    match ← valueToOut who v refObjects with
    | none => do
      let out ← exceptionToOut who false
      pure (true, out)
    | some out => do
      let w ← Recorded.get
      if outermost ∧ (w.jobs ≠ 0 ∨ w.rejected ≠ []) then lateWork who out
      else pure (false, out)

def drainOutermost (outermost : Bool) (o : Outcome) : M Outcome :=
  if outermost then drained o else pure o

def reportOutermost (who : Writer) (outermost : Bool) : M Unit :=
  if outermost then reportRejections who false else pure ()

/-- The failure flag and `*out`. -/
def finish (who : Writer) (outermost : Bool) (v : Option JSValue) (refObjects unwrap module : Bool) :
    M (Bool × Out) := do
  let o ← ownResult v refObjects
  let o ← drainOutermost outermost o
  let o ← unwrapped unwrap module o
  reportOutermost who outermost
  let r ← writeOut who outermost o
  Recorded.modify fun w => { w with state := runEnd outermost w.state }
  pure r

-- ---------------------------------------------------------------------------
-- The calls that end in finish
-- ---------------------------------------------------------------------------

/-- A call past its guards, at `run_begin`. `module` says that the bytecode of
`kmpjs_run_bytecode` is a module. -/
structure Call where
  entry : Entry
  refObjects : Bool
  module : Bool
  deriving DecidableEq, Repr

/-- The flags the call hands to `finish`: namespaces leave as refs, and
`kmpjs_ref_set` and `kmpjs_ref_to_json` pass none. -/
def Call.flags (c : Call) : Bool :=
  match c.entry with
  | .evalModule => true
  | .runBytecode => c.refObjects || c.module
  | .refSet | .refToJson => false
  | _ => c.refObjects

/-- Whether the call hands its module to `finish`. -/
def Call.hasModule (c : Call) : Bool :=
  match c.entry with
  | .evalModule => true
  | .runBytecode => c.module
  | _ => false

/-- `kmpjs_ref_to_json` marks its text as JSON. -/
def Call.retag (c : Call) (failed : Bool) (out : Out) : Out :=
  if c.entry = .refToJson ∧ failed = false then { out with tag := .object } else out

/-- What `run_begin` does. -/
def World.runBegin (w : World) : World :=
  { w with
    state := (QuickJsKmp.runBegin w.state).1
    oom := if (QuickJsKmp.runBegin w.state).2 then false else w.oom }

/-- The call from its `run_begin` on. All that runs before `finish` (the
evaluation, the property access, the call) is one step. -/
def kmpjsCall (who : Writer) (c : Call) : M (Bool × Out) := do
  let w ← Recorded.get
  let outermost := (runBegin w.state).2
  Recorded.modify World.runBegin
  let v ← engine .body
  let (failed, out) ← finish who outermost v c.flags c.entry.unwraps c.hasModule
  pure (failed, c.retag failed out)

end QuickJsKmp
