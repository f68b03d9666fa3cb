import QuickJsKmp.Bytecode
import QuickJsKmp.Lib.Fallible
import QuickJsKmp.Lib.Machine

/-!
# Modules: the shim's name table and the engine's list

Two stores. The table has a row for every name that was claimed; the context
has the list of its module definitions, in the order they were made. An import
goes to the list first, and through `kmp_module_loader` to the table and the
host when the list has no such name.

What the code reads from outside is `Env`: the host's module loader, the
parser and the bytecode reader of the engine, and the allocations that are
refused. `clock` counts the questions asked, so that an answer may differ from
one time to the next.
-/

namespace QuickJsKmp

open Fallible (Prog Triple Keeps Yields)

-- ---------------------------------------------------------------------------
-- The two stores
-- ---------------------------------------------------------------------------

/-- `JSReqModuleEntry`; the module is NULL until it is resolved. -/
structure ReqModuleEntry where
  name : Name
  module : Option ℕ
  deriving DecidableEq, Repr

/-- Where a definition came from. No code reads it. -/
inductive Origin
  | table (code : Bytes)
  | host
  | eval
  | read
  deriving DecidableEq, Repr

/-- `JSModuleDef`. `listed` is its membership in `ctx->loaded_modules`: the list
only grows at its end and only shrinks otherwise, so it is the listed definitions
in the order of their creation. What is not listed is freed. -/
structure ModuleDef where
  name : Name
  reqs : List ReqModuleEntry
  resolved : Bool
  listed : Bool
  origin : Origin
  deriving DecidableEq, Repr

/-- `kmp_module`, with the definition that the row was claimed for. -/
structure KmpModule where
  name : Name
  kind : ModuleKind
  source : Option Bytes
  defn : Option ℕ
  deriving DecidableEq, Repr

inductive LoaderAnswer
  | source (code : Bytes)
  | bytecode (buf : Bytes)
  | unknown
  | other
  | failed (message : Bytes)
  deriving DecidableEq, Repr

/-- What a call did on its way. No code reads it. -/
inductive Event
  /-- The host was asked for this name, which had a row or a definition, and answered. -/
  | asked (name : Name) (known : Bool) (time : ℕ) (answer : LoaderAnswer)
  /-- An import of the name was answered with this definition. -/
  | imported (name : Name) (m : ℕ)
  /-- `js_resolve_module` failed on the definition, which stays listed. -/
  | gaveUp (m : ℕ)
  /-- `JS_Eval` freed its definition; other listed ones are bound to it. -/
  | freed (m : ℕ) (referrers : List ℕ)
  /-- `js_free_modules` dropped definitions, these among them with a row. -/
  | purged (claimed : List ℕ)
  /-- `JS_ReadObject` added a definition; the name had a row, and can have one. -/
  | read (m : ℕ) (shadows : Bool)
  deriving DecidableEq, Repr

/-- `cap` is the room in the table's array. -/
structure Mods where
  defs : List ModuleDef
  rows : List KmpModule
  cap : ℕ
  clock : ℕ
  log : List Event
  deriving DecidableEq, Repr

def Mods.init : Mods := ⟨[], [], 0, 0, []⟩

/-- `parse` gives the imports of a source that compiles. `refused` says that an
allocation at this time is refused, and `cut` that a read of bytecode is. A name
with a NUL would be cut there on its way to the lookup; there is none in a source
or in bytecode. -/
structure Env where
  loader : Option (ℕ → Name → LoaderAnswer)
  parse : Bytes → Option (List Name)
  readObject : Bytes → Read
  refused : ℕ → Bool
  cut : ℕ → Option (List (List Name))
  parse_names : ∀ code, ∀ reqs ∈ parse code, ∀ n ∈ reqs, 0 ∉ n
  read_names : ∀ body, ∀ d ∈ (readObject body).defs, 0 ∉ d.1 ∧ ∀ n ∈ d.2, 0 ∉ n
  cut_names : ∀ t, ∀ reqs ∈ cut t, ∀ ns ∈ reqs, ∀ n ∈ ns, 0 ∉ n

abbrev L := Prog Failure Mods

def Mods.findModule (s : Mods) (name : Name) : Option KmpModule := s.rows.find? fun r => r.name = name

def Mods.findLoaded (s : Mods) (name : Name) : Option ℕ :=
  s.defs.findIdx? fun d => d.listed ∧ d.name = name

def Mods.knows (s : Mods) (name : Name) : Bool :=
  (s.findModule name).isSome || (s.findLoaded name).isSome

def Mods.setDef (s : Mods) (m : ℕ) (f : ModuleDef → ModuleDef) : Mods :=
  { s with defs := s.defs.modify m f }

def Mods.note (s : Mods) (e : Event) : Mods := { s with log := e :: s.log }

def note (e : Event) : L Unit := Fallible.modify fun s => s.note e

def tick : L ℕ := do
  let s ← Fallible.get
  Fallible.modify fun s => { s with clock := s.clock + 1 }
  pure s.clock

-- ---------------------------------------------------------------------------
-- Definitions
-- ---------------------------------------------------------------------------

/-- `js_new_module_def`. -/
def newModuleDef (name : Name) (reqs : List Name) (origin : Origin) : L ℕ := do
  let s ← Fallible.get
  Fallible.modify fun s => { s with
    defs := s.defs ++ [⟨name, reqs.map fun n => ⟨n, none⟩, false, true, origin⟩] }
  pure s.defs.length

def setReqs (m : ℕ) (reqs : List Name) : L Unit :=
  Fallible.modify fun s => s.setDef m fun d => { d with reqs := reqs.map fun n => ⟨n, none⟩ }

def setResolved (m : ℕ) : L Unit :=
  Fallible.modify fun s => s.setDef m fun d => { d with resolved := true }

/-- `rme->module = m1`. -/
def Mods.bindEntry (s : Mods) (m i m1 : ℕ) : Mods :=
  s.setDef m fun d => { d with reqs := d.reqs.modify i fun e => { e with module := some m1 } }

def bindEntry (m i m1 : ℕ) : L Unit := Fallible.modify fun s => s.bindEntry m i m1

def ModuleDef.refersTo (d : ModuleDef) (m : ℕ) : Bool := d.reqs.any fun e => e.module = some m

/-- The listed definitions, other than `m`, with an entry bound to it. -/
def Mods.referrers (s : Mods) (m : ℕ) : List ℕ :=
  (List.range s.defs.length).filter fun i =>
    i ≠ m ∧ (s.defs[i]?.any fun d => d.listed && d.refersTo m)

/-- The last reference to a definition is the list's. -/
def Mods.free (s : Mods) (m : ℕ) : Mods :=
  (s.setDef m fun d => { d with listed := false }).note (.freed m (s.referrers m))

def Mods.unresolved (s : Mods) : List ℕ :=
  (List.range s.defs.length).filter fun i => s.defs[i]?.any fun d => d.listed && !d.resolved

/-- `js_free_modules` with `JS_FREE_MODULE_NOT_RESOLVED`. -/
def Mods.purge (s : Mods) : Mods :=
  Mods.note { s with defs := s.defs.map fun d => { d with listed := d.listed && d.resolved } }
    (.purged (s.unresolved.filter fun m => s.rows.any fun r => r.defn = some m))

/-- The clean-up where a failed resolution leaves its definition behind. -/
def Mods.leave (s : Mods) (m : ℕ) : Mods := s.note (.gaveUp m)

section Load

variable (env : Env)

/-- An allocation, of the engine or of the shim. -/
def allocate : L Unit := do
  let t ← tick
  if env.refused t then Fallible.throw .outOfMemory else pure ()

-- ---------------------------------------------------------------------------
-- The table
-- ---------------------------------------------------------------------------

def moduleNameTaken (name : Name) : L Unit := do
  let s ← Fallible.get
  match s.findModule name with
  | some r => Fallible.throw (.taken r.kind name)
  | none => pure ()

/-- The array is doubled when it is full. -/
def growModules : L Unit := do
  let s ← Fallible.get
  if s.rows.length = s.cap then do
    allocate env
    Fallible.modify fun s => { s with cap := if s.cap = 0 then 8 else s.cap * 2 }
  else pure ()

/-- Room for one more row and for the copies of its texts. -/
def makeRoom : L Unit := do
  growModules env
  allocate env

def claimModuleName (name : Name) (kind : ModuleKind) (source : Option Bytes) (defn : Option ℕ) :
    L Unit := do
  makeRoom env
  Fallible.modify fun s => { s with rows := s.rows ++ [⟨name, kind, source, defn⟩] }

-- ---------------------------------------------------------------------------
-- Source
-- ---------------------------------------------------------------------------

/-- The part of `JS_Eval` that can still free the definition. -/
def evalBody (resolve : ℕ → L Unit) (code : Bytes) (m : ℕ) : L Unit := do
  match env.parse code with
  | none => Fallible.throw .syntaxError
  | some reqs => do
    allocate env
    setReqs m reqs
    resolve m

/-- `JS_Eval` with `JS_EVAL_FLAG_COMPILE_ONLY`: the dependencies are resolved
here already, and a failure frees the definition again. -/
def jsEval (resolve : ℕ → L Unit) (code : Bytes) (name : Name) (origin : Origin) : L ℕ := do
  allocate env
  let m ← newModuleDef name [] origin
  Fallible.onError (evalBody env resolve code m) fun s => s.free m
  pure m

/-- The allocation is that of `set_import_meta`. -/
def compileModule (resolve : ℕ → L Unit) (code : Bytes) (name : Name) (origin : Origin) : L ℕ := do
  let m ← jsEval env resolve code name origin
  allocate env
  pure m

-- ---------------------------------------------------------------------------
-- Bytecode
-- ---------------------------------------------------------------------------

def checkHeader (buf : Bytes) : L (BytecodeKind × Bytes) :=
  match checkBytecodeHeader buf with
  | .ok r => pure r
  | .error e => Fallible.throw e

/-- `JS_ReadObject`, in whatever context. -/
def readAt (body : Bytes) : L Read := do
  let t ← tick
  match env.cut t with
  | none => pure (env.readObject body)
  | some reqs => pure ((env.readObject body).refuse reqs)

/-- The name is read in a context of its own, which is freed with all it holds. -/
def peekModuleName (body : Bytes) : L Name := do
  allocate env
  match ← readAt env body with
  | .exception _ => Fallible.throw .corrupt
  | .other _ => Fallible.throw .bodyMismatch
  | .module name _ _ => do
    allocate env
    pure name

def Mods.shadows (s : Mods) (name : Name) : Bool :=
  !anonymous name && (s.findModule name).isSome

def addRead : List (Name × List Name) → L Unit
  | [] => pure ()
  | d :: ds => do
    let s ← Fallible.get
    let m ← newModuleDef d.1 d.2 .read
    note (.read m (s.shadows d.1))
    addRead ds

/-- The body is read into the engine's context, where every definition it makes
stays; `none` is a value that is no module. -/
def readBytecodeBody (body : Bytes) (kind : BytecodeKind) : L (Option ℕ) := do
  let obj ← readAt env body
  let s ← Fallible.get
  addRead obj.defs
  match obj, kind with
  | .exception _, _ => Fallible.throw .unreadable
  | .module _ _ _, .module => pure (some s.defs.length)
  | .other _, .script => pure none
  | _, _ => Fallible.throw .bodyMismatch

/-- The checks on a loader's answer before it enters the context. -/
def checkLoaderBytecode (name : Name) (buf : Bytes) : L Bytes := do
  let (kind, body) ← checkHeader buf
  match kind with
  | .script => Fallible.throw (.loaderScript name)
  | .module => do
    let compiled ← peekModuleName env body
    if compiled = name then pure body else Fallible.throw (.compiledAs name compiled)

/-- The module of a body that was read as one. -/
def asModule : Option ℕ → L ℕ
  | some m => pure m
  | none => Fallible.throw .bodyMismatch

def moduleFromBytecode (name : Name) (buf : Bytes) : L ℕ := do
  let body ← checkLoaderBytecode env name buf
  let m ← readBytecodeBody env body .module
  allocate env
  asModule m

-- ---------------------------------------------------------------------------
-- Imports
-- ---------------------------------------------------------------------------

def moduleFromHost (resolve : ℕ → L Unit) (loader : ℕ → Name → LoaderAnswer) (name : Name) : L ℕ := do
  let s ← Fallible.get
  let t ← tick
  note (.asked name (s.knows name) t (loader t name))
  match loader t name with
  | .failed message => Fallible.throw (.loaderFailed message)
  | .source code => do
    allocate env
    compileModule env resolve code name .host
  | .bytecode buf => moduleFromBytecode env name buf
  | .unknown => Fallible.throw (.notRegistered name)
  | .other => Fallible.throw (.loaderAnswer name)

/-- A module that the host supplies takes its name. -/
def loadFromHost (resolve : ℕ → L Unit) (loader : ℕ → Name → LoaderAnswer) (name : Name) : L ℕ := do
  let m ← moduleFromHost env resolve loader name
  claimModuleName env name .loaded none (some m)
  pure m

def kmpModuleLoader (resolve : ℕ → L Unit) (name : Name) : L ℕ := do
  let s ← Fallible.get
  match s.findModule name, env.loader with
  | some ⟨_, _, some code, _⟩, _ => compileModule env resolve code name (.table code)
  | none, some loader => loadFromHost env resolve loader name
  | _, _ => Fallible.throw (.notRegistered name)

/-- The list first, then the loader. -/
def lookupModule (resolve : ℕ → L Unit) (name : Name) : L ℕ := do
  allocate env
  let s ← Fallible.get
  match s.findLoaded name with
  | some m => pure m
  | none => kmpModuleLoader env resolve name

/-- `js_host_resolve_imported_module`. -/
def hostResolveImportedModule (resolve : ℕ → L Unit) (name : Name) : L ℕ := do
  let m ← lookupModule env resolve name
  note (.imported name m)
  pure m

/-- One round of the loop of `js_resolve_module`. -/
def resolveEntry (resolve : ℕ → L Unit) (m i : ℕ) (name : Name) : L Unit := do
  let m1 ← hostResolveImportedModule env resolve name
  bindEntry m i m1
  Fallible.onError (resolve m1) fun s => s.leave m1

def resolveEntries (resolve : ℕ → L Unit) (m : ℕ) : ℕ → List Name → L Unit
  | _, [] => pure ()
  | i, name :: names => do
    resolveEntry env resolve m i name
    resolveEntries resolve m (i + 1) names

/-- `js_resolve_module` marks the definition before it visits the dependencies.
The C stack bounds its depth. -/
def resolveModule : ℕ → ℕ → L Unit
  | 0, _ => Fallible.stop
  | fuel + 1, m => do
    let s ← Fallible.get
    match s.defs[m]? with
    | none => Fallible.stop
    | some d =>
      if d.resolved then pure ()
      else do
        setResolved m
        resolveEntries env (resolveModule fuel) m 0 (d.reqs.map ReqModuleEntry.name)

/-- `JS_ResolveModule`, and the same lines of `JS_LoadModuleInternal`. -/
def jsResolveModule (fuel m : ℕ) : L Unit :=
  Fallible.onError (resolveModule env fuel m) fun s => (s.leave m).purge

-- ---------------------------------------------------------------------------
-- The calls
-- ---------------------------------------------------------------------------

/-- `evaluates`: the module goes to `JS_EvalFunction`, and so do all it leads to. -/
inductive LoadOutcome
  | registered (name : Name)
  | evaluates (m : ℕ)
  | script
  deriving DecidableEq, Repr

def kmpjsRegisterModule (name : Name) (code : Bytes) : L LoadOutcome := do
  if name = [] then Fallible.throw .emptyName
  else do
    moduleNameTaken name
    claimModuleName env name .source (some code) none
    pure (.registered name)

/-- `if (!anonymous && ...)`. -/
def unlessAnonymous (name : Name) (m : L Unit) : L Unit := if anonymous name then pure () else m

def kmpjsEvalModule (fuel : ℕ) (code : Bytes) (name : Name) : L LoadOutcome := do
  unlessAnonymous name (moduleNameTaken name)
  allocate env
  let m ← compileModule env (resolveModule env fuel) code name .eval
  unlessAnonymous name (claimModuleName env name .evaluated none (some m))
  pure (.evaluates m)

/-- What `kmpjs_run_bytecode` checks before it reads the body; the name is that
of a module. -/
def runChecks (buf : Bytes) : L (BytecodeKind × Bytes × Name) := do
  let (kind, body) ← checkHeader buf
  match kind with
  | .script => pure (.script, body, [])
  | .module => do
    let name ← peekModuleName env body
    unlessAnonymous name (moduleNameTaken name)
    pure (.module, body, name)

/-- A module that was read: `set_import_meta`, the resolution, the claim. -/
def runModule (fuel : ℕ) (name : Name) (m : ℕ) : L LoadOutcome := do
  allocate env
  jsResolveModule env fuel m
  unlessAnonymous name (claimModuleName env name .evaluated none (some m))
  pure (.evaluates m)

def kmpjsRunBytecode (fuel : ℕ) (buf : Bytes) : L LoadOutcome := do
  let (kind, body, name) ← runChecks env buf
  let obj ← readBytecodeBody env body kind
  match obj with
  | some m => runModule env fuel name m
  | none => pure .script

/-- What `kmpjs_register_module_bytecode` checks before it reads the body. -/
def registerChecks (buf : Bytes) : L (Bytes × Name) := do
  let (kind, body) ← checkHeader buf
  match kind with
  | .script => Fallible.throw .notModule
  | .module => do
    let name ← peekModuleName env body
    if anonymous name ∨ name = [] then Fallible.throw .anonymousName
    else do
      moduleNameTaken name
      pure (body, name)

def kmpjsRegisterModuleBytecode (buf : Bytes) : L LoadOutcome := do
  let (body, name) ← registerChecks env buf
  let m ← readBytecodeBody env body .module
  allocate env
  claimModuleName env name .bytecode none m
  pure (.registered name)

/-- `JS_LoadModuleInternal`: the job behind `import()`. -/
def jsLoadModule (fuel : ℕ) (name : Name) : L LoadOutcome := do
  let m ← hostResolveImportedModule env (resolveModule env fuel) name
  jsResolveModule env fuel m
  pure (.evaluates m)

inductive LoadOp
  | registerModule (name : Name) (code : Bytes)
  | registerModuleBytecode (buf : Bytes)
  | evalModule (code : Bytes) (name : Name)
  | runBytecode (buf : Bytes)
  | dynamicImport (name : Name)
  deriving DecidableEq, Repr

def LoadOp.call (fuel : ℕ) : LoadOp → L LoadOutcome
  | .registerModule name code => kmpjsRegisterModule env name code
  | .registerModuleBytecode buf => kmpjsRegisterModuleBytecode env buf
  | .evalModule code name => kmpjsEvalModule env fuel code name
  | .runBytecode buf => kmpjsRunBytecode env fuel buf
  | .dynamicImport name => jsLoadModule env fuel name

/-- One call, with its log alone. -/
def LoadOp.run (fuel : ℕ) (op : LoadOp) : L LoadOutcome := fun s =>
  op.call env fuel { s with log := [] }

/-- A run takes one call after the other, on a stack of any depth. -/
def loadStep (s : Mods) (a : ℕ × LoadOp) : Option Mods := (a.2.run env a.1 s).map Prod.snd

end Load

/-- An engine of two bytecode modules, `m` with an import and `b` without, and no
loader. -/
def twoModules : Env where
  loader := none
  parse := fun code =>
    if code = [] then some [] else if code = ascii "import 'x';" then some [ascii "x"] else none
  readObject := readSmall [(109, [120]), (98, [])]
  refused := fun _ => false
  cut := fun _ => none
  parse_names := by
    intro code reqs hreqs n hn
    simp only [Option.mem_def] at hreqs
    split at hreqs
    · cases hreqs
      cases hn
    · split at hreqs
      · cases hreqs
        cases List.mem_singleton.mp hn
        decide
      · cases hreqs
  read_names := fun _ => readSmall_names (by decide)
  cut_names := by simp

end QuickJsKmp
