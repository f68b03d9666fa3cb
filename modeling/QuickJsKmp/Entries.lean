import QuickJsKmp.Ledger
import QuickJsKmp.Lib.Machine

/-!
# The public calls, and what they own on the way

Each function of the interface down to `finish`, the functions that the engine
calls back (`js_kmp_host`, `kmp_module_loader`), and the life of an engine from
`kmpjs_create` to `kmpjs_destroy`. `script` closes the circle: host code that a
call runs makes further calls.
-/

namespace QuickJsKmp.Ledger

open Recorded (Prog)

/-- Only the tag of `*out` matters on these paths. -/
def failMessage : M (Bool × Tag) := pure (true, .exception)

-- ---------------------------------------------------------------------------
-- Modules and bytecode
-- ---------------------------------------------------------------------------

def setImportMeta : M Bool := do
  match ← value primitive with
  | none => pure false
  | some importMeta => do
    let url ← value primitive
    freeAny url
    let ok ← status primitive
    free (.value importMeta)
    pure ok

/-- The code is freed unless `import.meta` could be set. -/
def withImportMeta (obj : Code) : M (Option Code) := do
  if ← setImportMeta then pure (some obj)
  else do
    free (.code obj)
    pure none

def Shim.findModule (s : Shim) (name : Name) : Option ModuleKind :=
  (s.rows.find? fun r => r.1 = name).map Prod.snd

def moduleNameTaken (name : Name) : M Bool := do
  let s ← Recorded.get
  pure (s.findModule name).isSome

def claimModuleName (name : Name) (kind : ModuleKind) : M Unit :=
  Recorded.modify fun s => { s with rows := s.rows ++ [(name, kind)] }

def claimUnlessAnonymous (name : Name) : M Unit :=
  if anonymous name then pure () else claimModuleName name .evaluated

/-- A string lends its text. -/
def copyString : Option JSValue → M Unit
  | some (.string _) => do
    let _ ← status primitive
    pure ()
  | _ => pure ()

/-- The bare context has no `toString` for errors: the message is read as a property. -/
def corruptMessage : M Unit := do
  let ex ← getException
  let msg ← value primitive
  copyString msg
  freeAny msg
  free (.value ex)

/-- `JS_AtomToCString`; NULL when it is refused. -/
def moduleNameOf : M (Option Name) := do
  match ← primitive with
  | .text name => pure (some name)
  | .threw exc => do
    pend exc
    pure none
  | _ => Recorded.fail

/-- In the scratch context. -/
def peekObject : M (Option Name) := do
  match ← code primitive with
  | none => do
    corruptMessage
    pure none
  | some obj =>
    if obj.module then do
      let name ← moduleNameOf
      free (.code obj)
      pure name
    else do
      free (.code obj)
      pure none

def peekModuleName : M (Option Name) := do
  match ← primitive with
  | .null => pure none
  | .done => peekObject
  | _ => Recorded.fail

section Script

-- What runs when a call enters script or the host.
variable (script : M Answer)

def compileModule : M (Option Code) := do
  match ← code script with
  | none => pure none
  | some obj => withImportMeta obj

def readBytecodeBody (kind : BytecodeKind) : M (Option Code) := do
  match ← code primitive with
  | none => do
    exceptionToOut script
    pure none
  | some obj =>
    if (kind = .module) = (obj.module = true) then pure (some obj)
    else do
      free (.code obj)
      pure none

/-- The module with the name that was asked for, from a loader's bytecode. -/
def readLoaded (name compiled : Name) : M (Option Code) :=
  if compiled = name then do
    match ← readBytecodeBody script .module with
    | none => do
      throwMessage
      pure none
    | some obj => withImportMeta obj
  else do
    throwTypeError
    pure none

def moduleFromBytecode (name : Name) (buf : Bytes) : M (Option Code) := do
  match checkBytecodeHeader buf with
  | .error _ => do
    throwMessage
    pure none
  | .ok (.script, _) => do
    throwTypeError
    pure none
  | .ok (.module, _) => do
    match ← peekModuleName with
    | none => do
      throwMessage
      pure none
    | some compiled => readLoaded script name compiled

def moduleFromHost (name : Name) : M (Option Code) := do
  match ← script with
  | .host true _ => do
    throwMessage
    pure none
  | .host false (.string _) => compileModule script
  | .host false (.binary buf) => moduleFromBytecode script name buf
  | .host false _ => do
    throwTypeError
    pure none
  | _ => Recorded.fail

/-- The claim cannot fail, so the branch that frees the module again is not taken. -/
def loadFromHost (name : Name) : M (Option Code) := do
  match ← moduleFromHost script name with
  | none => pure none
  | some obj => do
    claimModuleName name .loaded
    pure (some obj)

def findOrLoad (name : Name) : M (Option Code) := do
  let s ← Recorded.get
  match s.findModule name, s.callbacks.moduleLoader with
  | some .source, _ => compileModule script
  | none, true => loadFromHost script name
  | _, _ => do
    throwTypeError
    pure none

/-- The context keeps the module; the value is not needed. -/
def kmpModuleLoader (name : Name) : M Unit := do
  match ← findOrLoad script name with
  | none => pure ()
  | some obj => free (.code obj)

-- ---------------------------------------------------------------------------
-- Host functions
-- ---------------------------------------------------------------------------

/-- Whether all were converted, and those that were. -/
def convertArgs (refObjects : Bool) : List JSValue → M (Bool × List Tag)
  | [] => pure (true, [])
  | v :: vs => do
    match ← valueToOut script v refObjects with
    | none => pure (false, [])
    | some tag => do
      let (ok, tags) ← convertArgs refObjects vs
      pure (ok, tag :: tags)

def releaseArgs : List Tag → M Unit
  | [] => pure ()
  | .ref ref _ :: tags => do
    Recorded.modify fun s => s.refGiveBack ref
    releaseArgs tags
  | _ :: tags => releaseArgs tags

def callHost : M (Option JSValue) := do
  match ← script with
  | .host true _ => do
    throwMessage
    pure none
  | .host false v => valueFromHost v
  | _ => Recorded.fail

/-- The host is called once all arguments are converted. -/
def callIf (ok : Bool) : M (Option JSValue) := if ok then callHost script else pure none

def hostCall (refObjects : Bool) (argv : List JSValue) : M (Option JSValue) := do
  let (ok, args) ← convertArgs script refObjects argv
  let ret ← callIf script ok
  releaseArgs args
  pure ret

def jsKmpHost (refObjects : Bool) (argv : List JSValue) : M (Option JSValue) := do
  let s ← Recorded.get
  if s.callbacks.host then hostCall script refObjects argv
  else do
    throwTypeError
    pure none

-- ---------------------------------------------------------------------------
-- Evaluation
-- ---------------------------------------------------------------------------

def kmpjsEval (refObjects : Bool) : M (Bool × Tag) := do
  let outermost ← runBegin
  let r ← value script
  finish script outermost r refObjects true false

def kmpjsRegisterModule (name : Name) : M (Bool × Tag) := do
  if name = [] then failMessage
  else if ← moduleNameTaken name then failMessage
  else do
    claimModuleName name .source
    pure (false, .undefined)

/-- `JS_EvalFunction` consumes the code. -/
def evalFunction (obj : Code) : M (Option JSValue) := do
  give (.code obj)
  value script

def evalModule (outermost : Bool) (name : Name) (refObjects : Bool) : M (Bool × Tag) := do
  match ← compileModule script with
  | none => finish script outermost none refObjects false false
  | some obj => do
    claimUnlessAnonymous name
    let promise ← evalFunction script obj
    finish script outermost promise true true true

def kmpjsEvalModule (name : Name) (refObjects : Bool) : M (Bool × Tag) := do
  let taken ← moduleNameTaken name
  if ¬ anonymous name ∧ taken then failMessage
  else do
    let outermost ← runBegin
    evalModule script outermost name refObjects

/-- `done` without `finished`. -/
def endEarly (outermost : Bool) : M (Bool × Tag) := do
  runEnd outermost
  failMessage

/-- `set_import_meta` and `JS_ResolveModule`. -/
def resolveRead (obj : Code) : M (Option Code) := do
  match ← withImportMeta obj with
  | none => pure none
  | some obj => do
    if ← status script then pure (some obj)
    else do
      free (.code obj)
      pure none

def runScript (outermost refObjects : Bool) : M (Bool × Tag) := do
  match ← readBytecodeBody script .script with
  | none => endEarly outermost
  | some obj => do
    let r ← evalFunction script obj
    finish script outermost r refObjects true false

def runModule (outermost : Bool) (name : Name) : M (Bool × Tag) := do
  match ← readBytecodeBody script .module with
  | none => endEarly outermost
  | some obj => do
    match ← resolveRead script obj with
    | none => finish script outermost none true true true
    | some obj => do
      claimUnlessAnonymous name
      let promise ← evalFunction script obj
      finish script outermost promise true true true

def runPeeked (outermost : Bool) : M (Bool × Tag) := do
  match ← peekModuleName with
  | none => endEarly outermost
  | some name => do
    let taken ← moduleNameTaken name
    if ¬ anonymous name ∧ taken then endEarly outermost else runModule script outermost name

def kmpjsRunBytecode (buf : Bytes) (refObjects : Bool) : M (Bool × Tag) := do
  let outermost ← runBegin
  match checkBytecodeHeader buf with
  | .error _ => endEarly outermost
  | .ok (.script, _) => runScript script outermost refObjects
  | .ok (.module, _) => runPeeked script outermost

def registerRead (name : Name) : M (Bool × Tag) := do
  match ← readBytecodeBody script .module with
  | none => failMessage
  | some obj => do
    if ← setImportMeta then do
      claimModuleName name .bytecode
      free (.code obj)
      pure (false, .string)
    else do
      exceptionToOut script
      free (.code obj)
      failMessage

def registerPeeked : M (Bool × Tag) := do
  match ← peekModuleName with
  | none => failMessage
  | some name => do
    let taken ← moduleNameTaken name
    if anonymous name ∨ name = [] ∨ taken then failMessage else registerRead script name

def kmpjsRegisterModuleBytecode (buf : Bytes) : M (Bool × Tag) := do
  match checkBytecodeHeader buf with
  | .ok (.module, _) => do
    let outermost ← runBegin
    let r ← registerPeeked script
    runEnd outermost
    pure r
  | _ => failMessage

/-- `KMPJS_MAX_FN_ID`. -/
def maxFnId : Int := 0x3FFF

def globalObject : Held := .value (.object 1 .plain)

/-- `JS_SetPropertyStr` consumes the value. -/
def setProperty (call : M Answer) (v : JSValue) : M Bool := do
  give (.value v)
  status call

/-- A setter of the global object may run. -/
def defineGlobal (fn : JSValue) : M (Bool × Tag) := do
  own globalObject
  let ok ← setProperty script fn
  free globalObject
  if ok then pure (false, .undefined)
  else do
    exceptionToOut script
    failMessage

def kmpjsDefineFunction (fnId : Int) : M (Bool × Tag) := do
  if fnId < 0 ∨ maxFnId < fnId then failMessage
  else do
    match ← value primitive with
    | none => do
      exceptionToOut script
      failMessage
    | some fn => defineGlobal script fn

-- ---------------------------------------------------------------------------
-- Refs
-- ---------------------------------------------------------------------------

def slotGet (ref : Handle) : M (Option Slot) := do
  let s ← Recorded.get
  pure (s.slots.slotGet ref)

/-- A property access or a serialization, from its `run_begin` on. -/
def access (refObjects : Bool) : M (Bool × Tag) := do
  let outermost ← runBegin
  let r ← value script
  finish script outermost r refObjects false false

def kmpjsRefGet (ref : Handle) (refObjects : Bool) : M (Bool × Tag) := do
  match ← slotGet ref with
  | none => failMessage
  | some _ => access script refObjects

def kmpjsRefGetIndex (ref : Handle) (index : Int) (refObjects : Bool) : M (Bool × Tag) := do
  match ← slotGet ref with
  | none => failMessage
  | some _ => if index < 0 then failMessage else access script refObjects

def setFromHost (value : HostValue) : M (Option JSValue) := do
  match ← valueFromHost value with
  | none => pure none
  | some v => do
    if ← setProperty script v then pure (some .undefined) else pure none

def kmpjsRefSet (ref : Handle) (value : HostValue) : M (Bool × Tag) := do
  match ← slotGet ref with
  | none => failMessage
  | some _ => do
    let outermost ← runBegin
    let r ← setFromHost script value
    finish script outermost r false false false

/-- Whether all were converted, and those that were. -/
def convertFromHost : List HostValue → M (Bool × List JSValue)
  | [] => pure (true, [])
  | a :: args => do
    match ← valueFromHost a with
    | none => pure (false, [])
    | some v => do
      let (ok, argv) ← convertFromHost args
      pure (ok, v :: argv)

def valueIf (ok : Bool) : M (Option JSValue) := if ok then value script else pure none

def callFunction (args : List HostValue) : M (Option JSValue) := do
  let (ok, argv) ← convertFromHost args
  let r ← valueIf script ok
  freeAll argv
  pure r

def refCall (args : List HostValue) (refObjects : Bool) : M (Bool × Tag) := do
  let outermost ← runBegin
  let r ← callFunction script args
  finish script outermost r refObjects true false

def kmpjsRefCall (ref thisRef : Handle) (args : List HostValue) (refObjects : Bool) :
    M (Bool × Tag) := do
  match ← slotGet ref with
  | none => failMessage
  | some slot => do
    let this ← slotGet thisRef
    if ¬ slot.val.isFunction ∨ (thisRef ≠ 0 ∧ this.isNone) then failMessage
    else refCall script args refObjects

/-- The text is marked as JSON. -/
def retag (r : Bool × Tag) : Bool × Tag := if r.1 then r else (false, .object)

def kmpjsRefToJson (ref : Handle) : M (Bool × Tag) := do
  match ← slotGet ref with
  | none => failMessage
  | some slot =>
    if slot.val.isFunction then pure (false, .object)
    else do
      let r ← access script false
      pure (retag r)

def enter : Call → M (Bool × Tag)
  | .eval refObjects => kmpjsEval script refObjects
  | .registerModule name => kmpjsRegisterModule name
  | .evalModule name refObjects => kmpjsEvalModule script name refObjects
  | .runBytecode buf refObjects => kmpjsRunBytecode script buf refObjects
  | .registerModuleBytecode buf => kmpjsRegisterModuleBytecode script buf
  | .defineFunction fnId => kmpjsDefineFunction script fnId
  | .refRetain ref => do
    Recorded.modify fun s => s.refRetain ref
    pure (false, .undefined)
  | .refRelease ref => do
    Recorded.modify fun s => s.refRelease ref
    pure (false, .undefined)
  | .refGet ref refObjects => kmpjsRefGet script ref refObjects
  | .refGetIndex ref index refObjects => kmpjsRefGetIndex script ref index refObjects
  | .refSet ref value => kmpjsRefSet script ref value
  | .refCall ref thisRef args refObjects => kmpjsRefCall script ref thisRef args refObjects
  | .refToJson ref => kmpjsRefToJson script ref
  | .interrupt => do
    Recorded.modify fun s => { s with state := kmpjsInterrupt s.state }
    pure (false, .undefined)

end Script

-- ---------------------------------------------------------------------------
-- Script and host code
-- ---------------------------------------------------------------------------

def anyEvent : M Event := Recorded.next fun e s => some (e, s)

def perform (a : Act) : M Unit := fun s es => (s.act a).map fun s' => ((), s', es)

/-- A ref that the caller has from now on. -/
def noteHanded : Bool × Tag → M Unit
  | (false, .ref ref _) => note (.handed ref)
  | _ => pure ()

/-- Notes a call when it returns, with the states before and after. -/
def noted (n : Shim → Shim → α → Note) (call : M α) : M α := do
  let s ← Recorded.get
  let r ← call
  Recorded.modify fun s' => s'.note (n s s' r)
  pure r

/-- A call, by the embedder or by host code inside another call. -/
def called (call : M (Bool × Tag)) : M (Bool × Tag) := do
  let r ← noted (fun s s' r => .returned s.log.length s.liveRefs s'.liveRefs r.1 r.2) call
  noteHanded r
  pure r

/-- A host function, called by script. -/
def hostCalled (call : M (Option JSValue)) : M (Option JSValue) :=
  noted (fun s s' _ => .hostReturned s.log.length s.liveRefs s'.liveRefs) call

/-- Reads its events up to the answer. What `js_kmp_host` returns is the engine's. -/
def script : ℕ → M Answer
  | 0 => Recorded.fail
  | fuel + 1 => do
    match ← anyEvent with
    | .answer a => pure a
    | .act a => do
      perform a
      script fuel
    | .call c => do
      let _ ← called (enter (script fuel) c)
      script fuel
    | .hostFunction refObjects argv => do
      let ret ← hostCalled (jsKmpHost (script fuel) refObjects argv)
      freeAny ret
      script fuel
    | .importModule name => do
      kmpModuleLoader (script fuel) name
      script fuel

/-- A call of the embedder. Every round of `script` reads an event. -/
def kmpjsCall (c : Call) : M (Bool × Tag) := fun s es => called (enter (script es.length) c) s es

-- ---------------------------------------------------------------------------
-- The life of an engine
-- ---------------------------------------------------------------------------

/-- `JS_SetPropertyStr` of a new C function. -/
def setFunction : M Bool := do
  let fn ← value primitive
  freeAny fn
  status primitive

/-- `console.log`, `performance.now` and `print`, up to the first that fails. -/
def setFunctions : M Bool := do
  if ← setFunction then
    if ← setFunction then setFunction else pure false
  else pure false

def installInto : Option JSValue → Option JSValue → M Bool
  | some console, some performance => do
    if ← setFunctions then
      if ← setProperty primitive console then setProperty primitive performance
      else do
        free (.value performance)
        pure false
    else do
      free (.value console)
      free (.value performance)
      pure false
  | console, performance => do
    freeAny console
    freeAny performance
    pure false

def installGlobals : M Bool := do
  own globalObject
  let console ← value primitive
  let performance ← value primitive
  let ok ← installInto console performance
  free globalObject
  pure ok

/-- The class of one instance. -/
def probeItem : M Unit := do
  let item ← value primitive
  freeAny item

/-- The constructor's reference becomes the engine's field. -/
def storeBigintCtor (ctor : JSValue) : M Unit :=
  Recorded.modify fun s => { s with bigintCtor := ctor }

/-- The four binary classes, and the constructor. -/
def probeItems : M (Option JSValue) := do
  probeItem
  probeItem
  probeItem
  probeItem
  value primitive

/-- `null` says that one of the class ids is not as expected. -/
def checkClasses (arr ctor : JSValue) : M Bool := do
  let classes ← primitive
  free (.value arr)
  pure (classes ≠ .null ∧ ctor.isFunction)

def probeClasses : M Bool := do
  match ← value primitive with
  | none => pure false
  | some arr => do
    let ctor ← probeItems
    storeBigintCtor (ctor.getD .undefined)
    checkClasses arr (ctor.getD .undefined)

/-- `JS_FreeValue(e->ctx, e->bigint_ctor)` before the engine is freed. -/
def Shim.dropBigintCtor (s : Shim) : Shim :=
  { s.give (.value s.bigintCtor) with bigintCtor := .undefined }

def installAndProbe : M Bool := do
  if ← installGlobals then probeClasses else pure false

/-- `false` is NULL: the context and the runtime are freed right away. -/
def kmpjsCreate : M Bool := do
  let ok ← installAndProbe
  if ok then pure true
  else do
    Recorded.modify Shim.dropBigintCtor
    pure false

/-- The slots with a count, in order. -/
def Shim.freeSlots (s : Shim) : List Slot → Shim
  | [] => s
  | slot :: slots =>
    (if 0 < slot.refcount.toInt then s.give (.value slot.val) else s).freeSlots slots

/-- Up to `JS_FreeContext`. -/
def kmpjsDestroy (s : Shim) : Shim :=
  let s := s.freeSlots s.slots.slots
  let s := s.dropBigintCtor
  s.forgetAll s.rejected.length

/-- One call of the embedder, with the record of all that ran inside it. -/
def step (s : Shim) (a : Call × List Event) : Option Shim :=
  match kmpjsCall a.1 s a.2 with
  | some (_, s', []) => some s'
  | _ => none

/-- The states between the calls on an engine with these callbacks. -/
def Reachable (callbacks : Callbacks) (s : Shim) : Prop :=
  ∃ es s₀, kmpjsCreate (Shim.blank callbacks) es = some (true, s₀, []) ∧
    Machine.Reaches step Machine.always s₀ s

-- ---------------------------------------------------------------------------
-- kmpjs_compile
-- ---------------------------------------------------------------------------

/-- A text that is copied, in the runtime of `kmpjs_compile`, where no script runs. -/
def ownedText : M Unit := do
  let s ← value primitive
  copyString s
  freeAny s

def ownedStack (exc : JSValue) : M Unit := if exc.isError then ownedText else pure ()

def ownedException : M Unit := do
  let exc ← getException
  ownedText
  ownedStack exc
  free (.value exc)

/-- On a runtime of its own, which is freed at the end. -/
def kmpjsCompile : M Bool := do
  match ← code primitive with
  | none => do
    ownedException
    pure false
  | some obj => do
    let written ← status primitive
    free (.code obj)
    if written then pure true
    else do
      ownedException
      pure false

end QuickJsKmp.Ledger
