import QuickJsKmp.Lib.Codec
import QuickJsKmp.Lib.LittleEndian
import QuickJsKmp.Value

/-!
# The object format of the engine

`JS_WriteObject` and `JS_ReadObject` with bytecode, on a little-endian target: the body behind
the header of a compiled file. The atoms that the engine does not have from its start stand in a
table of strings in front; the reader makes them its own and relocates the byte code.
-/

namespace QuickJsKmp.ObjectFormat

open Codec (Encoder Decoder)

-- ---------------------------------------------------------------------------
-- Values
-- ---------------------------------------------------------------------------

/-- The highest bit says that the others are an integer. -/
abbrev JSAtom := BitVec 32

def isTaggedInt (atom : JSAtom) : Bool := atom.msb

/-- `JS_ATOM_END`: the atoms before it are the same in every engine of this build. -/
def jsAtomEnd : ℕ := 243

inductive JSString
  | narrow (chars : List UInt8)
  | wide (units : List UInt16)
  deriving DecidableEq, Repr

def JSString.len : JSString → ℕ
  | .narrow chars => chars.length
  | .wide units => units.length

def jsStringLenMax : ℕ := 2 ^ 30 - 1

/-- The limbs of `tab`, the last of which has the sign; a limb has `k` bytes. -/
structure JSBigInt (k : ℕ) where
  low : List (BitVec (8 * k))
  top : BitVec (8 * k)
  deriving DecidableEq, Repr

structure VarDef where
  varName : JSAtom
  scopeNext : BitVec 32
  varRefIdx : BitVec 16
  varKind : BitVec 4
  isConst : Bool
  isLexical : Bool
  isCaptured : Bool
  hasScope : Bool
  deriving DecidableEq, Repr

structure ClosureVar where
  varName : JSAtom
  varIdx : BitVec 16
  closureType : BitVec 3
  isConst : Bool
  isLexical : Bool
  varKind : BitVec 4
  deriving DecidableEq, Repr

structure DebugInfo where
  filename : JSAtom
  pc2line : Bytes
  source : Bytes
  deriving DecidableEq, Repr

/-- `JSFunctionBytecode` without its constants. `vardefs` is empty where the pointer is NULL. -/
structure FunctionBytecode where
  hasPrototype : Bool
  hasSimpleParameterList : Bool
  isDerivedClassConstructor : Bool
  needHomeObject : Bool
  funcKind : BitVec 2
  newTargetAllowed : Bool
  superCallAllowed : Bool
  superAllowed : Bool
  argumentsAllowed : Bool
  isDirectOrIndirectEval : Bool
  jsMode : UInt8
  funcName : JSAtom
  argCount : BitVec 16
  varCount : BitVec 16
  definedArgCount : BitVec 16
  stackSize : BitVec 16
  varRefCount : BitVec 16
  vardefs : List VarDef
  closureVar : List ClosureVar
  byteCode : Bytes
  debug : Option DebugInfo
  deriving DecidableEq, Repr

inductive ExportSource
  | local (varIdx : BitVec 32)
  | other (exportType : {t : UInt8 // t ≠ 0}) (reqModuleIdx : BitVec 32) (localName : JSAtom)
  deriving DecidableEq, Repr

structure ExportEntry where
  source : ExportSource
  exportName : JSAtom
  deriving DecidableEq, Repr

structure ImportEntry where
  varIdx : BitVec 32
  isStar : Bool
  importName : JSAtom
  reqModuleIdx : BitVec 32
  deriving DecidableEq, Repr

/-- `JSModuleDef` without what it requests and its function. -/
structure ModuleDef where
  moduleName : JSAtom
  exports : List ExportEntry
  starExports : List (BitVec 32)
  imports : List ImportEntry
  hasTla : Bool
  deriving DecidableEq, Repr

inductive Primitive (β : Type)
  | null
  | undefined
  | bool (b : Bool)
  | int (v : BitVec 32)
  | float64 (bits : BitVec 64)
  | string (s : JSString)
  | bigInt (p : β)
  deriving DecidableEq, Repr

mutual

/-- What a compiler puts into a file: constants, functions and modules. -/
inductive JSValue (β : Type)
  | primitive (p : Primitive β)
  | functionBytecode (f : FunctionBytecode) (cpool : JSValues β)
  | module (m : ModuleDef) (reqModules : Entries β) (funcObj : JSValue β)
  | object (props : Entries β)
  | array (values : JSValues β)
  | template (values : JSValues β) (raw : JSValue β)

inductive JSValues (β : Type)
  | nil
  | cons (v : JSValue β) (rest : JSValues β)

/-- Properties with their values, or requested modules with their attributes. -/
inductive Entries (β : Type)
  | nil
  | cons (atom : JSAtom) (v : JSValue β) (rest : Entries β)

end

def JSValues.length : JSValues β → ℕ
  | .nil => 0
  | .cons _ rest => rest.length + 1

def Entries.length : Entries β → ℕ
  | .nil => 0
  | .cons _ _ rest => rest.length + 1

-- ---------------------------------------------------------------------------
-- Byte code
-- ---------------------------------------------------------------------------

/-- `OPCodeFormat`. -/
inductive OpFmt
  | none | noneInt | noneLoc | noneArg | noneVarRef | u8 | i8 | loc8 | const8 | label8 | u16 | i16
  | label16 | npop | npopx | npopU16 | loc | arg | varRef | u32 | i32 | const | label | atom
  | atomU8 | atomU16 | atomLabelU8 | atomLabelU16 | labelU16
  deriving DecidableEq, Repr

/-- The formats whose first operand is an atom. -/
def OpFmt.hasAtom : OpFmt → Bool
  | .atom | .atomU8 | .atomU16 | .atomLabelU8 | .atomLabelU16 => true
  | _ => false

/-- The sizes and formats of the opcodes in the final byte code. -/
def opcodeInfo : List (ℕ × OpFmt) := [
  (1, .none), (5, .i32), (5, .const), (5, .const), (5, .atom), (5, .atom), (1, .none),
  (1, .none), (1, .none), (1, .none), (1, .none), (1, .none), (2, .u8), (3, .u16), (1, .none),
  (1, .none), (1, .none), (1, .none), (1, .none), (1, .none), (1, .none), (1, .none), (1, .none),
  (1, .none), (1, .none), (1, .none), (1, .none), (1, .none), (1, .none), (1, .none), (1, .none),
  (1, .none), (1, .none), (3, .npop), (3, .npop), (3, .npop), (3, .npop), (3, .npop), (3, .npop),
  (3, .u16), (1, .none), (1, .none), (1, .none), (1, .none), (1, .none), (1, .none), (1, .none),
  (1, .none), (1, .none), (6, .atomU8), (5, .npopU16), (3, .u16), (1, .none), (1, .none),
  (1, .none), (3, .varRef), (3, .varRef), (3, .varRef), (3, .varRef), (1, .none), (1, .none),
  (5, .atom), (5, .atom), (5, .atom), (1, .none), (1, .none), (1, .none), (1, .none), (1, .none),
  (1, .none), (1, .none), (1, .none), (1, .none), (5, .atom), (5, .atom), (1, .none), (1, .none),
  (1, .none), (1, .none), (1, .none), (2, .u8), (6, .atomU8), (2, .u8), (6, .atomU8),
  (6, .atomU8), (3, .loc), (3, .loc), (3, .loc), (3, .arg), (3, .arg), (3, .arg), (3, .varRef),
  (3, .varRef), (3, .varRef), (3, .loc), (3, .loc), (3, .loc), (3, .loc), (3, .loc), (3, .loc),
  (3, .varRef), (3, .varRef), (3, .varRef), (3, .loc), (5, .label), (5, .label), (5, .label),
  (5, .label), (5, .label), (1, .none), (1, .none), (1, .none), (1, .none), (10, .atomLabelU8),
  (10, .atomLabelU8), (10, .atomLabelU8), (10, .atomLabelU8), (10, .atomLabelU8), (7, .atomU16),
  (7, .atomU16), (7, .atomU16), (5, .atom), (1, .none), (1, .none), (1, .none), (1, .none),
  (2, .u8), (1, .none), (1, .none), (1, .none), (1, .none), (1, .none), (2, .u8), (1, .none),
  (1, .none), (1, .none), (1, .none), (1, .none), (1, .none), (1, .none), (1, .none), (1, .none),
  (1, .none), (1, .none), (2, .loc8), (2, .loc8), (2, .loc8), (1, .none), (1, .none), (1, .none),
  (1, .none), (5, .atom), (1, .none), (1, .none), (1, .none), (1, .none), (1, .none), (1, .none),
  (1, .none), (1, .none), (1, .none), (1, .none), (1, .none), (1, .none), (1, .none), (1, .none),
  (1, .none), (1, .none), (1, .none), (1, .none), (1, .none), (1, .none), (1, .none), (1, .none),
  (1, .none), (1, .none), (5, .i32), (1, .none), (1, .noneInt), (1, .noneInt), (1, .noneInt),
  (1, .noneInt), (1, .noneInt), (1, .noneInt), (1, .noneInt), (1, .noneInt), (1, .noneInt),
  (2, .i8), (3, .i16), (2, .const8), (2, .const8), (1, .none), (2, .loc8), (2, .loc8),
  (2, .loc8), (1, .noneLoc), (1, .noneLoc), (1, .noneLoc), (1, .noneLoc), (1, .noneLoc),
  (1, .noneLoc), (1, .noneLoc), (1, .noneLoc), (1, .noneLoc), (1, .noneLoc), (1, .noneLoc),
  (1, .noneLoc), (1, .noneArg), (1, .noneArg), (1, .noneArg), (1, .noneArg), (1, .noneArg),
  (1, .noneArg), (1, .noneArg), (1, .noneArg), (1, .noneArg), (1, .noneArg), (1, .noneArg),
  (1, .noneArg), (1, .noneVarRef), (1, .noneVarRef), (1, .noneVarRef), (1, .noneVarRef),
  (1, .noneVarRef), (1, .noneVarRef), (1, .noneVarRef), (1, .noneVarRef), (1, .noneVarRef),
  (1, .noneVarRef), (1, .noneVarRef), (1, .noneVarRef), (1, .none), (2, .label8), (2, .label8),
  (2, .label8), (3, .label16), (1, .npopx), (1, .npopx), (1, .npopx), (1, .npopx), (1, .none),
  (1, .none), (1, .none), (1, .none)]

def shortOpcodeInfo (op : UInt8) : Option (ℕ × OpFmt) := opcodeInfo[op.toNat]?

/-- The loops of `JS_WriteFunctionBytecode` and `JS_ReadFunctionBytecode`, of at most `n` rounds:
every atom is replaced. `outside` is what comes of a code that the loop would leave. -/
def relocate {m : Type → Type} [Monad m] (outside : m Bytes) (f : JSAtom → m JSAtom) :
    ℕ → Bytes → m Bytes
  | 0, _ => pure []
  | _ + 1, [] => pure []
  | n + 1, op :: code =>
    match shortOpcodeInfo op with
    | none => outside
    | some (size, fmt) => do
      if fmt.hasAtom then
        if code.length < 4 then outside
        else
          let atom ← f (BitVec.ofNat 32 (LittleEndian.value (code.take 4)))
          let rest ← relocate outside f n (code.drop (size - 1))
          return op :: LittleEndian.bytes 4 atom.toNat ++ (code.take (size - 1)).drop 4 ++ rest
      else
        let rest ← relocate outside f n (code.drop (size - 1))
        return op :: code.take (size - 1) ++ rest

-- ---------------------------------------------------------------------------
-- The writer
-- ---------------------------------------------------------------------------

abbrev BCWriter := Encoder JSAtom UInt8

inductive BCTag
  | null | undefined | boolFalse | boolTrue | int32 | float64 | string | object | array | bigInt
  | templateObject | functionBytecode | module | typedArray | arrayBuffer | sharedArrayBuffer
  | date | objectValue | objectReference
  deriving DecidableEq, Repr

/-- `BCTagEnum`. -/
def BCTag.all : List BCTag :=
  [.null, .undefined, .boolFalse, .boolTrue, .int32, .float64, .string, .object, .array, .bigInt,
    .templateObject, .functionBytecode, .module, .typedArray, .arrayBuffer, .sharedArrayBuffer,
    .date, .objectValue, .objectReference]

def BCTag.byte (tag : BCTag) : UInt8 := (BCTag.all.idxOf tag + 1).toUInt8

def BCTag.ofByte (b : UInt8) : Option BCTag := if b = 0 then none else BCTag.all[b.toNat - 1]?

def bcVersion : UInt8 := 5

def bcPutU8 (v : UInt8) : BCWriter Unit := Encoder.put [v]

def bcPutTag (tag : BCTag) : BCWriter Unit := bcPutU8 tag.byte

def bcPutU16 (v : BitVec 16) : BCWriter Unit := Encoder.put (LittleEndian.bytes 2 v.toNat)

def bcPutU64 (v : BitVec 64) : BCWriter Unit := Encoder.put (LittleEndian.bytes 8 v.toNat)

/-- `dbuf_put_leb128`; five rounds are enough. -/
def leb128 : ℕ → BitVec 32 → Bytes
  | 0, _ => []
  | n + 1, v =>
    let a := v &&& 0x7f
    if v >>> 7 ≠ 0 then UInt8.ofNat (a ||| 0x80).toNat :: leb128 n (v >>> 7)
    else [UInt8.ofNat a.toNat]

def bcPutLeb128 (v : BitVec 32) : BCWriter Unit := Encoder.put (leb128 5 v)

def bcPutSleb128 (v : BitVec 32) : BCWriter Unit := bcPutLeb128 ((2 * v) ^^^ -(v >>> 31))

/-- `bc_set_flags`, of each value with its width. -/
def bcSetFlags (fields : List (ℕ × ℕ)) : ℕ :=
  (fields.foldl (fun flags field => (flags.1 ||| field.1 <<< flags.2, flags.2 + field.2)) (0, 0)).1

/-- The dictionary is `idx_to_atom`, and `atom_to_idx` its inverse. -/
def bcAtomToIdx (atom : JSAtom) : BCWriter (BitVec 32) := fun idxToAtom =>
  if atom.toNat < jsAtomEnd ∨ isTaggedInt atom then (atom, [], idxToAtom)
  else
    match idxToAtom.idxOf? atom with
    | some i => (BitVec.ofNat 32 (jsAtomEnd + i), [], idxToAtom)
    | none => (BitVec.ofNat 32 (jsAtomEnd + idxToAtom.length), [], idxToAtom ++ [atom])

def bcPutAtom (atom : JSAtom) : BCWriter Unit :=
  if isTaggedInt atom then bcPutLeb128 (((atom &&& 0x7fffffff) <<< 1) ||| 1)
  else do
    let v ← bcAtomToIdx atom
    bcPutLeb128 (v <<< 1)

/-- The compiler makes only code that the loop does not leave. -/
def jsWriteFunctionBytecode (code : Bytes) : BCWriter Unit := do
  let relocated ← relocate (pure []) bcAtomToIdx code.length code
  Encoder.put relocated

def jsWriteString (s : JSString) : BCWriter Unit :=
  match s with
  | .narrow chars => do
    bcPutLeb128 (BitVec.ofNat 32 (chars.length <<< 1))
    Encoder.put chars
  | .wide units => do
    bcPutLeb128 (BitVec.ofNat 32 (units.length <<< 1 ||| 1))
    Encoder.put (units.flatMap fun u => LittleEndian.bytes 2 u.toNat)

/-- How many bytes of the highest limb are written, of the `n` lowest ones. -/
def significant (v : BitVec (8 * k)) : ℕ → ℕ
  | 0 => 0
  | 1 => 1
  | n + 2 =>
    let shift := 8 * (n + 1)
    let b := v.toNat >>> shift &&& 0xff
    if b ≠ 0 ∧ b ≠ 0xff ∨ b &&& 1 ≠ v.toNat >>> (shift - 1) &&& 1 then n + 2
    else significant v (n + 1)

def JSBigInt.byteLength (p : JSBigInt k) : ℕ :=
  if p.low = [] ∧ p.top = 0 then 0 else k * p.low.length + significant p.top k

def jsWriteBigInt (p : JSBigInt k) : BCWriter Unit := do
  bcPutTag .bigInt
  let len := p.byteLength
  bcPutLeb128 (BitVec.ofNat 32 len)
  Encoder.put (((p.low ++ [p.top]).take (len / k)).flatMap fun v => LittleEndian.bytes k v.toNat)
  Encoder.put (LittleEndian.bytes (len % k) p.top.toNat)

def jsWriteVarDef (vd : VarDef) : BCWriter Unit := do
  bcPutAtom vd.varName
  bcPutLeb128 (vd.scopeNext + 1)
  bcPutLeb128 (vd.varRefIdx.setWidth 32)
  bcPutU8 (bcSetFlags [(vd.varKind.toNat, 4), (vd.isConst.toNat, 1), (vd.isLexical.toNat, 1),
    (vd.isCaptured.toNat, 1), (vd.hasScope.toNat, 1)]).toUInt8

def jsWriteClosureVar (cv : ClosureVar) : BCWriter Unit := do
  bcPutAtom cv.varName
  bcPutLeb128 (cv.varIdx.setWidth 32)
  bcPutU16 (BitVec.ofNat 16 (bcSetFlags [(cv.closureType.toNat, 3), (cv.isConst.toNat, 1),
    (cv.isLexical.toNat, 1), (cv.varKind.toNat, 4)]))

def FunctionBytecode.flags (b : FunctionBytecode) : List (ℕ × ℕ) :=
  [(b.hasPrototype.toNat, 1), (b.hasSimpleParameterList.toNat, 1),
    (b.isDerivedClassConstructor.toNat, 1), (b.needHomeObject.toNat, 1), (b.funcKind.toNat, 2),
    (b.newTargetAllowed.toNat, 1), (b.superCallAllowed.toNat, 1), (b.superAllowed.toNat, 1),
    (b.argumentsAllowed.toNat, 1), (b.debug.isSome.toNat, 1),
    (b.isDirectOrIndirectEval.toNat, 1)]

def jsWriteDebug (debug : Option DebugInfo) : BCWriter Unit :=
  match debug with
  | none => pure ()
  | some info => do
    bcPutAtom info.filename
    bcPutLeb128 (BitVec.ofNat 32 info.pc2line.length)
    Encoder.put info.pc2line
    bcPutLeb128 (BitVec.ofNat 32 info.source.length)
    Encoder.put info.source

/-- `JS_WriteFunctionTag`, up to the constants. -/
def jsWriteFunctionTag (b : FunctionBytecode) (cpoolCount : ℕ) : BCWriter Unit := do
  bcPutTag .functionBytecode
  bcPutU16 (BitVec.ofNat 16 (bcSetFlags b.flags))
  bcPutU8 b.jsMode
  bcPutAtom b.funcName
  bcPutLeb128 (b.argCount.setWidth 32)
  bcPutLeb128 (b.varCount.setWidth 32)
  bcPutLeb128 (b.definedArgCount.setWidth 32)
  bcPutLeb128 (b.stackSize.setWidth 32)
  bcPutLeb128 (b.varRefCount.setWidth 32)
  bcPutLeb128 (BitVec.ofNat 32 b.closureVar.length)
  bcPutLeb128 (BitVec.ofNat 32 cpoolCount)
  bcPutLeb128 (BitVec.ofNat 32 b.byteCode.length)
  bcPutLeb128 (if b.vardefs = [] then 0 else b.argCount.setWidth 32 + b.varCount.setWidth 32)
  b.vardefs.forM jsWriteVarDef
  b.closureVar.forM jsWriteClosureVar
  jsWriteFunctionBytecode b.byteCode
  jsWriteDebug b.debug

def jsWriteExport (me : ExportEntry) : BCWriter Unit := do
  match me.source with
  | .local varIdx => do
    bcPutU8 0
    bcPutLeb128 varIdx
  | .other exportType reqModuleIdx localName => do
    bcPutU8 exportType.val
    bcPutLeb128 reqModuleIdx
    bcPutAtom localName
  bcPutAtom me.exportName

def jsWriteImport (mi : ImportEntry) : BCWriter Unit := do
  bcPutLeb128 mi.varIdx
  bcPutU8 mi.isStar.toNat.toUInt8
  bcPutAtom mi.importName
  bcPutLeb128 mi.reqModuleIdx

/-- `JS_WriteModule` after the requested modules, up to the function. -/
def jsWriteModuleTables (m : ModuleDef) : BCWriter Unit := do
  bcPutLeb128 (BitVec.ofNat 32 m.exports.length)
  m.exports.forM jsWriteExport
  bcPutLeb128 (BitVec.ofNat 32 m.starExports.length)
  m.starExports.forM bcPutLeb128
  bcPutLeb128 (BitVec.ofNat 32 m.imports.length)
  m.imports.forM jsWriteImport
  bcPutU8 m.hasTla.toNat.toUInt8

def jsWritePrimitive (p : Primitive (JSBigInt k)) : BCWriter Unit :=
  match p with
  | .null => bcPutTag .null
  | .undefined => bcPutTag .undefined
  | .bool b => bcPutTag (if b then .boolTrue else .boolFalse)
  | .int v => do
    bcPutTag .int32
    bcPutSleb128 v
  | .float64 bits => do
    bcPutTag .float64
    bcPutU64 bits
  | .string s => do
    bcPutTag .string
    jsWriteString s
  | .bigInt p => jsWriteBigInt p

mutual

def jsWriteObjectRec : JSValue (JSBigInt k) → BCWriter Unit
  | .primitive p => jsWritePrimitive p
  | .functionBytecode f cpool => do
    jsWriteFunctionTag f cpool.length
    jsWriteValues cpool
  | .module m reqModules funcObj => do
    bcPutTag .module
    bcPutAtom m.moduleName
    bcPutLeb128 (BitVec.ofNat 32 reqModules.length)
    jsWriteEntries reqModules
    jsWriteModuleTables m
    jsWriteObjectRec funcObj
  | .object props => do
    bcPutTag .object
    bcPutLeb128 (BitVec.ofNat 32 props.length)
    jsWriteEntries props
  | .array values => do
    bcPutTag .array
    bcPutLeb128 (BitVec.ofNat 32 values.length)
    jsWriteValues values
  | .template values raw => do
    bcPutTag .templateObject
    bcPutLeb128 (BitVec.ofNat 32 values.length)
    jsWriteValues values
    jsWriteObjectRec raw

def jsWriteValues : JSValues (JSBigInt k) → BCWriter Unit
  | .nil => pure ()
  | .cons v rest => do
    jsWriteObjectRec v
    jsWriteValues rest

def jsWriteEntries : Entries (JSBigInt k) → BCWriter Unit
  | .nil => pure ()
  | .cons atom v rest => do
    bcPutAtom atom
    jsWriteObjectRec v
    jsWriteEntries rest

end

/-- `JS_WriteObjectAtoms`; `atomArray` has the strings of the runtime's atoms. -/
def jsWriteObjectAtoms (atomArray : JSAtom → JSString) (idxToAtom : List JSAtom) :
    BCWriter Unit := do
  bcPutU8 bcVersion
  bcPutLeb128 (BitVec.ofNat 32 idxToAtom.length)
  idxToAtom.forM fun atom => jsWriteString (atomArray atom)

def jsWriteObject (atomArray : JSAtom → JSString) (obj : JSValue (JSBigInt k)) : Bytes :=
  (jsWriteObjectAtoms atomArray ((jsWriteObjectRec obj).dict [])).out [] ++
    (jsWriteObjectRec obj).out []

-- ---------------------------------------------------------------------------
-- The reader
-- ---------------------------------------------------------------------------

/-- What ends a read. `outside` stands for a read or a write outside of an allocation, and
`leftOut` for the tags that have no value here. -/
inductive ReadError
  | endOfBuffer
  | invalidVersion (v : UInt8)
  | invalidAtomIndex (pos : ℕ)
  | stringTooLong
  | bigIntTooLarge
  | invalidTag (tag : UInt8) (pos : ℕ)
  | referencesNotAllowed
  | outOfMemory
  | stackOverflow
  | outside
  | leftOut
  deriving DecidableEq, Repr

/-- The exceptions' messages. -/
def ReadError.text : ReadError → String
  | .endOfBuffer => "read after the end of the buffer"
  | .invalidVersion v => "invalid version (" ++ toString v.toNat ++ " expected=5)"
  | .invalidAtomIndex pos => "invalid atom index (pos=" ++ toString pos ++ ")"
  | .stringTooLong => "string too long"
  | .bigIntTooLarge => "BigInt is too large to allocate"
  | .invalidTag tag pos =>
    "invalid tag (tag=" ++ toString tag.toNat ++ " pos=" ++ toString pos ++ ")"
  | .referencesNotAllowed => "object references are not allowed"
  | .outOfMemory => "out of memory"
  | .stackOverflow => "stack overflow"
  | .outside => ""
  | .leftOut => ""

/-- Sizes of the target, which the allocation of a function depends on. -/
structure Sizes where
  functionBytecode : ℕ
  debugOffset : ℕ
  value : ℕ
  varDef : ℕ
  closureVar : ℕ
  value_pos : 0 < value
  varDef_pos : 0 < varDef
  closureVar_pos : 0 < closureVar

/-- What a reader does not change while it reads. -/
structure BCReaderState where
  bufLen : ℕ
  idxToAtom : List JSAtom
  sizes : Sizes
  nanBoxing : Bool

abbrev BCReader := Decoder BCReaderState UInt8 ReadError

/-- `s->ptr - s->buf_start`. -/
def bcPos : BCReader ℕ := do
  let s ← read
  let rest ← get
  return s.bufLen - rest.length

/-- `n` bytes, or none of them. -/
def bcGetBuf (n : ℕ) : BCReader Bytes := do
  let rest ← get
  if rest.length < n then throw .endOfBuffer
  else
    set (rest.drop n)
    return rest.take n

def bcGetU8 : BCReader UInt8 := do
  match ← get with
  | [] => throw .endOfBuffer
  | v :: rest =>
    set rest
    return v

def bcGetU16 : BCReader (BitVec 16) := do
  return BitVec.ofNat 16 (LittleEndian.value (← bcGetBuf 2))

def bcGetU64 : BCReader (BitVec 64) := do
  return BitVec.ofNat 64 (LittleEndian.value (← bcGetBuf 8))

/-- The loop of `get_leb128` from its `i`-th round on, of `n` rounds. -/
def getLeb128 : ℕ → ℕ → BitVec 32 → Bytes → Option (BitVec 32 × Bytes)
  | 0, _, _, _ => none
  | _ + 1, _, _, [] => none
  | n + 1, i, v, a :: rest =>
    let v := v ||| (BitVec.ofNat 32 (a &&& 0x7f).toNat <<< (7 * i))
    if a &&& 0x80 = 0 then some (v, rest) else getLeb128 n (i + 1) v rest

def bcGetLeb128 : BCReader (BitVec 32) := do
  match getLeb128 5 0 0 (← get) with
  | none => throw .endOfBuffer
  | some (v, rest) =>
    set rest
    return v

def bcGetSleb128 : BCReader (BitVec 32) := do
  let v ← bcGetLeb128
  return (v >>> 1) ^^^ -(v &&& 1)

def bcGetLeb128U16 : BCReader (BitVec 16) := do
  return (← bcGetLeb128).setWidth 16

/-- How many times a loop `for(i = 0; i < count; i++)` over an `int` runs. -/
def rounds (count : BitVec 32) : ℕ := count.toInt.toNat

/-- The count of entries that are allocated together; no allocation of a negative count succeeds. -/
def bcGetCount : BCReader ℕ := do
  let count ← bcGetLeb128
  if count.toInt < 0 then throw .outOfMemory else return count.toNat

def bcIdxToAtom (idx : BitVec 32) : BCReader JSAtom := do
  if isTaggedInt idx ∨ idx.toNat < jsAtomEnd then return idx
  else
    match (← read).idxToAtom[idx.toNat - jsAtomEnd]? with
    | some atom => return atom
    | none => throw (.invalidAtomIndex (← bcPos))

def bcGetAtom : BCReader JSAtom := do
  let v ← bcGetLeb128
  if v &&& 1 = 1 then return (v >>> 1) ||| 0x80000000 else bcIdxToAtom (v >>> 1)

def utf16Units : Bytes → List UInt16
  | lo :: hi :: rest => (lo.toNat + 256 * hi.toNat).toUInt16 :: utf16Units rest
  | _ => []

def jsReadString : BCReader JSString := do
  let v ← bcGetLeb128
  let len := (v >>> 1).toNat
  if jsStringLenMax < len then throw .stringTooLong
  else if v &&& 1 = 1 then return .wide (utf16Units (← bcGetBuf (2 * len)))
  else return .narrow (← bcGetBuf len)

/-- `bc_get_flags`, at a position. -/
def bcGetFlags (flags idx n : ℕ) : ℕ := flags >>> idx &&& (1 <<< n - 1)

def bcGetFlag (flags idx : ℕ) : Bool := bcGetFlags flags idx 1 = 1

def jsReadFunctionBytecode (len : ℕ) : BCReader Bytes := do
  let code ← bcGetBuf len
  relocate (throw .outside) bcIdxToAtom code.length code

/-- `JS_BIGINT_MAX_SIZE`. -/
def jsBigIntMaxSize (k : ℕ) : ℕ := 1024 * 1024 / (8 * k)

def bcGetLimb (k : ℕ) : BCReader (BitVec (8 * k)) := do
  return BitVec.ofNat (8 * k) (LittleEndian.value (← bcGetBuf k))

/-- `js_bigint_new` makes a number of one limb at least. -/
def jsReadBigInt (k : ℕ) : BCReader (JSBigInt k) := do
  let len := (← bcGetLeb128).toNat
  if len = 0 then return ⟨[], 0⟩
  else if jsBigIntMaxSize k < (len - 1) / k + 1 then throw .bigIntTooLarge
  else
    let limbs ← (bcGetLimb k).times (len / k)
    if len % k = 0 then return ⟨limbs.dropLast, limbs.getLastD 0⟩
    else
      let high ← bcGetU8.times (len % k)
      let v := BitVec.ofNat (8 * k) (LittleEndian.value high)
      let shift := 8 * k - 8 * (len % k)
      return ⟨limbs, (v <<< shift).sshiftRight shift⟩

def jsReadVarDef : BCReader VarDef := do
  let varName ← bcGetAtom
  let scopeNext ← bcGetLeb128
  let varRefIdx ← bcGetLeb128U16
  let flags := (← bcGetU8).toNat
  return {
    varName, scopeNext := scopeNext - 1, varRefIdx
    varKind := BitVec.ofNat 4 (bcGetFlags flags 0 4)
    isConst := bcGetFlag flags 4
    isLexical := bcGetFlag flags 5
    isCaptured := bcGetFlag flags 6
    hasScope := bcGetFlag flags 7 }

def jsReadClosureVar : BCReader ClosureVar := do
  let varName ← bcGetAtom
  let varIdx ← bcGetLeb128
  let flags := (← bcGetU16).toNat
  return {
    varName, varIdx := varIdx.setWidth 16
    closureType := BitVec.ofNat 3 (bcGetFlags flags 0 3)
    isConst := bcGetFlag flags 3
    isLexical := bcGetFlag flags 4
    varKind := BitVec.ofNat 4 (bcGetFlags flags 5 4) }

/-- `function_size`, in the arithmetic of `uint64_t`. -/
def functionSize (sizes : Sizes) (hasDebug : Bool)
    (cpoolCount localCount closureVarCount byteCodeLen : BitVec 32) : BitVec 64 :=
  BitVec.ofNat 64 (if hasDebug then sizes.functionBytecode else sizes.debugOffset) +
    cpoolCount.signExtend 64 * BitVec.ofNat 64 sizes.value +
    localCount.signExtend 64 * BitVec.ofNat 64 sizes.varDef +
    closureVarCount.signExtend 64 * BitVec.ofNat 64 sizes.closureVar + byteCodeLen.signExtend 64

/-- A block of `pc2line` or of the source. -/
def bcGetBlock : BCReader Bytes := do
  bcGetBuf (← bcGetCount)

def jsReadDebug (hasDebug : Bool) : BCReader (Option DebugInfo) :=
  if hasDebug then do
    let filename ← bcGetAtom
    let pc2line ← bcGetBlock
    let source ← bcGetBlock
    return some { filename, pc2line, source }
  else return none

/-- `JS_ReadFunctionTag`, up to the constants, whose count it gives. What a negative count makes
of an allocation that is small enough is not said. -/
def jsReadFunctionTag : BCReader (FunctionBytecode × ℕ) := do
  let flags := (← bcGetU16).toNat
  let jsMode ← bcGetU8
  let funcName ← bcGetAtom
  let argCount ← bcGetLeb128U16
  let varCount ← bcGetLeb128U16
  let definedArgCount ← bcGetLeb128U16
  let stackSize ← bcGetLeb128U16
  let varRefCount ← bcGetLeb128U16
  let closureVarCount ← bcGetLeb128
  let cpoolCount ← bcGetLeb128
  let byteCodeLen ← bcGetLeb128
  let localCount ← bcGetLeb128
  let hasDebug := bcGetFlag flags 10
  if 2 ^ 31 - 1 < (functionSize (← read).sizes hasDebug cpoolCount localCount closureVarCount
      byteCodeLen).toNat then throw .outOfMemory
  else if cpoolCount.msb ∨ localCount.msb ∨ closureVarCount.msb ∨ byteCodeLen.msb then
    throw .outside
  else
    let vardefs ← jsReadVarDef.times (rounds localCount)
    let closureVar ← jsReadClosureVar.times (rounds closureVarCount)
    let byteCode ← jsReadFunctionBytecode byteCodeLen.toNat
    let debug ← jsReadDebug hasDebug
    return ({
      hasPrototype := bcGetFlag flags 0
      hasSimpleParameterList := bcGetFlag flags 1
      isDerivedClassConstructor := bcGetFlag flags 2
      needHomeObject := bcGetFlag flags 3
      funcKind := BitVec.ofNat 2 (bcGetFlags flags 4 2)
      newTargetAllowed := bcGetFlag flags 6
      superCallAllowed := bcGetFlag flags 7
      superAllowed := bcGetFlag flags 8
      argumentsAllowed := bcGetFlag flags 9
      isDirectOrIndirectEval := bcGetFlag flags 11
      jsMode, funcName, argCount, varCount, definedArgCount, stackSize, varRefCount, vardefs,
      closureVar, byteCode, debug }, rounds cpoolCount)

def jsReadExport : BCReader ExportEntry := do
  let exportType ← bcGetU8
  let source ←
    if h : exportType ≠ 0 then do
      let reqModuleIdx ← bcGetLeb128
      let localName ← bcGetAtom
      pure (.other ⟨exportType, h⟩ reqModuleIdx localName)
    else do
      let varIdx ← bcGetLeb128
      pure (.local varIdx)
  let exportName ← bcGetAtom
  return { source, exportName }

def jsReadImport : BCReader ImportEntry := do
  let varIdx ← bcGetLeb128
  let isStar ← bcGetU8
  let importName ← bcGetAtom
  let reqModuleIdx ← bcGetLeb128
  return { varIdx, isStar := isStar ≠ 0, importName, reqModuleIdx }

/-- `JS_ReadModule` after the requested modules, up to the function. -/
def jsReadModuleTables (moduleName : JSAtom) : BCReader ModuleDef := do
  let exports ← jsReadExport.times (← bcGetCount)
  let starExports ← bcGetLeb128.times (← bcGetCount)
  let imports ← jsReadImport.times (← bcGetCount)
  let hasTla ← bcGetU8
  return { moduleName, exports, starExports, imports, hasTla := hasTla ≠ 0 }

def readValues (readObject : BCReader (JSValue (JSBigInt k))) : ℕ → BCReader (JSValues (JSBigInt k))
  | 0 => return .nil
  | n + 1 => do
    let v ← readObject
    let rest ← readValues readObject n
    return .cons v rest

def readEntries (readObject : BCReader (JSValue (JSBigInt k))) : ℕ → BCReader (Entries (JSBigInt k))
  | 0 => return .nil
  | n + 1 => do
    let atom ← bcGetAtom
    let v ← readObject
    let rest ← readEntries readObject n
    return .cons atom v rest

/-- The bits that a number is kept with: `__JS_NewFloat64` has one NaN under `JS_NAN_BOXING`. -/
def newFloat64 (nanBoxing : Bool) (bits : BitVec 64) : BitVec 64 :=
  if nanBoxing = true ∧ 0x7ff0000000000000#64 < bits &&& 0x7fffffffffffffff#64 then
    0x7ff8000000000000#64
  else bits

/-- `depth` is what the stack has room for. -/
def jsReadObjectRec (k : ℕ) : ℕ → BCReader (JSValue (JSBigInt k))
  | 0 => throw .stackOverflow
  | depth + 1 => do
    let tag ← bcGetU8
    match BCTag.ofByte tag with
    | some .null => return .primitive .null
    | some .undefined => return .primitive .undefined
    | some .boolFalse => return .primitive (.bool false)
    | some .boolTrue => return .primitive (.bool true)
    | some .int32 => return .primitive (.int (← bcGetSleb128))
    | some .float64 => return .primitive (.float64 (newFloat64 (← read).nanBoxing (← bcGetU64)))
    | some .string => return .primitive (.string (← jsReadString))
    | some .bigInt => return .primitive (.bigInt (← jsReadBigInt k))
    | some .functionBytecode =>
      let (f, cpoolCount) ← jsReadFunctionTag
      let cpool ← readValues (jsReadObjectRec k depth) cpoolCount
      return .functionBytecode f cpool
    | some .module =>
      let moduleName ← bcGetAtom
      let reqModules ← readEntries (jsReadObjectRec k depth) (← bcGetCount)
      let m ← jsReadModuleTables moduleName
      let funcObj ← jsReadObjectRec k depth
      return .module m reqModules funcObj
    | some .object =>
      let propCount ← bcGetLeb128
      let props ← readEntries (jsReadObjectRec k depth) propCount.toNat
      return .object props
    | some .array =>
      let len ← bcGetLeb128
      let values ← readValues (jsReadObjectRec k depth) len.toNat
      return .array values
    | some .templateObject =>
      let len ← bcGetLeb128
      let values ← readValues (jsReadObjectRec k depth) len.toNat
      let raw ← jsReadObjectRec k depth
      return .template values raw
    | some .objectReference => throw .referencesNotAllowed
    | some .typedArray | some .arrayBuffer | some .date | some .objectValue => throw .leftOut
    | some .sharedArrayBuffer | none => throw (.invalidTag tag (← bcPos))

def jsReadObjectAtoms (newAtomStr : JSString → JSAtom) : BCReader (List JSAtom) := do
  let version ← bcGetU8
  if version ≠ bcVersion then throw (.invalidVersion version)
  else
    let strings ← jsReadString.times (← bcGetLeb128).toNat
    return strings.map newAtomStr

/-- The reader's engine: `newAtomStr` is the atom that it has, or makes, for a string. -/
structure ReaderEngine where
  newAtomStr : JSString → JSAtom
  sizes : Sizes
  stack : ℕ
  nanBoxing : Bool

/-- The value, and what was not read of the buffer. -/
def jsReadObject (k : ℕ) (engine : ReaderEngine) (buf : Bytes) :
    Except ReadError (JSValue (JSBigInt k) × Bytes) := do
  let (idxToAtom, rest) ← (jsReadObjectAtoms engine.newAtomStr).on
    ⟨buf.length, [], engine.sizes, engine.nanBoxing⟩ buf
  (jsReadObjectRec k engine.stack).on ⟨buf.length, idxToAtom, engine.sizes, engine.nanBoxing⟩ rest

end QuickJsKmp.ObjectFormat
