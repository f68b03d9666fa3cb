import QuickJsKmp.Value

/-!
# Bytecode in front of the engine

The header that binds a buffer to this engine build, and what reading the body
behind it can come to. `Failure` names the ways in which a call on modules ends
early; `text` is the message of the ones that the shim words itself.
-/

namespace QuickJsKmp

/-- A module name or specifier: a C string. -/
abbrev Name := Bytes

/-- Names in angle brackets are never recorded. -/
def anonymous (name : Name) : Bool := name.head? = some 60

/-- `KMP_MODULE_*`. -/
inductive ModuleKind
  | source
  | bytecode
  | evaluated
  | loaded
  deriving DecidableEq, Repr

inductive Failure
  | notBytecode
  | unsupportedHeader
  | otherEngine (upstream : Bytes)
  | notModule
  | bodyMismatch
  | corrupt
  | anonymousName
  | emptyName
  | taken (kind : ModuleKind) (name : Name)
  | loaderScript (name : Name)
  | compiledAs (name compiled : Name)
  | notRegistered (name : Name)
  | loaderAnswer (name : Name)
  | loaderFailed (message : Bytes)
  | syntaxError
  | unreadable
  | outOfMemory
  deriving DecidableEq, Repr

def upstreamCommit : Bytes := ascii "04be246001599f5995fa2f2d8c91a0f198d3f34c"

/-- `%.*s`: up to the precision, and up to a NUL. -/
def shown (precision : ℕ) (s : Bytes) : Bytes := (s.take precision).takeWhile (· ≠ 0)

def quoted (before : String) (name : Bytes) (after : String) : Bytes :=
  ascii before ++ name ++ ascii after

/-- The messages of the shim. The engine words `syntaxError` and `unreadable`, and
its own message follows in `corrupt`. -/
def Failure.text : Failure → Bytes
  | .notBytecode => ascii "not QuickJS bytecode produced by this SDK"
  | .unsupportedHeader => ascii "unsupported bytecode header"
  | .otherEngine upstream =>
    quoted "bytecode built for engine " (shown 12 upstream) ", this SDK embeds engine " ++
      shown 12 upstreamCommit
  | .notModule => ascii "bytecode is a script, not a module"
  | .bodyMismatch => ascii "bytecode body does not match its header"
  | .corrupt => ascii "bytecode body is corrupt: "
  | .anonymousName => ascii "bytecode module has an anonymous name; compile it with a real one"
  | .emptyName => ascii "module name must not be empty"
  | .taken .evaluated name => quoted "module '" (shown 128 name) "' was already evaluated"
  | .taken .loaded name =>
    quoted "module '" (shown 128 name) "' was already loaded by the module loader"
  | .taken _ name => quoted "module '" (shown 128 name) "' is already registered"
  | .loaderScript name => quoted "module '" name "': bytecode is a script, not a module"
  | .compiledAs name compiled =>
    quoted "module '" name "': bytecode was compiled as '" ++ compiled ++ ascii "'"
  | .notRegistered name => quoted "module '" name "' is not registered"
  | .loaderAnswer name =>
    quoted "module loader returned neither source nor bytecode for '" name "'"
  | .loaderFailed message => message
  | .syntaxError => []
  | .unreadable => []
  | .outOfMemory => ascii "out of memory"

-- ---------------------------------------------------------------------------
-- The header
-- ---------------------------------------------------------------------------

inductive BytecodeKind
  | script
  | module
  deriving DecidableEq, Repr

/-- `KMPJS_BYTECODE_HEADER_SIZE`. -/
def headerSize : ℕ := 52

/-- A `uint32_t` on a little-endian target. -/
def le32 (b : Bytes) : ℕ := b.foldr (fun x acc => x.toNat + 256 * acc) 0

def field (b : Bytes) (offset size : ℕ) : Bytes := (b.drop offset).take size

/-- The kind and the body. -/
def checkBytecodeHeader (buf : Bytes) : Except Failure (BytecodeKind × Bytes) :=
  if buf.length < headerSize ∨ field buf 0 4 ≠ ascii "QJKB" then .error .notBytecode
  else if le32 (field buf 4 4) ≠ headerSize ∨ le32 (field buf 8 4) > 1 then
    .error .unsupportedHeader
  else if field buf 12 40 ≠ upstreamCommit then .error (.otherEngine (field buf 12 40))
  else .ok (if le32 (field buf 8 4) = 1 then .module else .script, buf.drop headerSize)

theorem checkBytecodeHeader_body (h : checkBytecodeHeader buf = .ok r) :
    r.2 = buf.drop headerSize := by
  unfold checkBytecodeHeader at h
  split at h
  · cases h
  · split at h
    · cases h
    · split at h
      · cases h
      · cases h
        rfl

def BytecodeKind.field : BytecodeKind → Bytes
  | .script => [0, 0, 0, 0]
  | .module => [1, 0, 0, 0]

/-- What `kmpjs_compile` puts in front of the body. -/
def bytecodeHeader (kind : BytecodeKind) : Bytes :=
  ascii "QJKB" ++ [52, 0, 0, 0] ++ kind.field ++ upstreamCommit

-- ---------------------------------------------------------------------------
-- The body
-- ---------------------------------------------------------------------------

/-- What `JS_ReadObject` makes of a body: the module definitions that it adds to
its context, each with its name and its imports, and what it returns. A module's
own definition comes first. -/
inductive Read
  | exception (defs : List (Name × List Name))
  | module (name : Name) (reqs : List Name) (nested : List (Name × List Name))
  | other (defs : List (Name × List Name))
  deriving DecidableEq, Repr

def Read.defs : Read → List (Name × List Name)
  | .exception defs => defs
  | .module name reqs nested => (name, reqs) :: nested
  | .other defs => defs

/-- The read stops for want of memory, after some of the definitions; how much
of their imports was read is open. -/
def Read.refuse (r : Read) (reqs : List (List Name)) : Read :=
  .exception (List.zipWith (fun d reqs => (d.1, reqs)) r.defs reqs)

-- ---------------------------------------------------------------------------
-- Small modules
-- ---------------------------------------------------------------------------

/-- An index into the atom table of the body, which follows the 243 atoms that the
engine has itself, as `bc_put_atom` writes it. -/
def bodyAtom (i : ℕ) : Bytes := [((243 + i) * 2 % 128 + 128).toUInt8, ((243 + i) * 2 / 128).toUInt8]

/-- The body of a module that imports some others and does nothing, in the layout
of `JS_WriteObject`. Names are one letter. -/
def moduleBody (name : UInt8) (imports : List UInt8) : Bytes :=
  [5, (1 + imports.length).toUInt8] ++ (name :: imports).flatMap (fun c => [2, c]) ++
    [13] ++ bodyAtom 0 ++ [imports.length.toUInt8] ++
    (List.range imports.length).flatMap (fun i => bodyAtom (i + 1) ++ [2]) ++ [0, 0, 0, 0] ++
    -- the function: its flags, strict mode, a stack of one, and two instructions
    [12, 32, 0, 1] ++ bodyAtom 0 ++ [0, 0, 0, 1, 0, 0, 0, 2, 0] ++ [6, 47]

/-- The reader, on these bodies. -/
def readSmall (modules : List (UInt8 × List UInt8)) (body : Bytes) : Read :=
  match modules.find? fun p => moduleBody p.1 p.2 = body with
  | some (name, imports) => .module [name] (imports.map fun c => [c]) []
  | none => .exception []

theorem readSmall_names (h : ∀ p ∈ modules, p.1 ≠ 0 ∧ 0 ∉ p.2) :
    ∀ d ∈ (readSmall modules body).defs, 0 ∉ d.1 ∧ ∀ n ∈ d.2, 0 ∉ n := by
  intro d hd
  unfold readSmall at hd
  split at hd
  · rename_i name imports hfind
    obtain ⟨hname, himports⟩ := h _ (List.mem_of_find?_eq_some hfind)
    cases List.mem_singleton.mp hd
    refine ⟨fun hmem => hname (List.mem_singleton.mp hmem).symm, fun n hn hmem => ?_⟩
    obtain ⟨c, hc, rfl⟩ := List.mem_map.mp hn
    exact himports (List.mem_singleton.mp hmem ▸ hc)
  · cases hd

end QuickJsKmp
