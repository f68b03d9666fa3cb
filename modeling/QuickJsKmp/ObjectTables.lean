import QuickJsKmp.ObjectParts

/-!
# Functions and modules in an object file

A function without its constants and a module without its function, as they are written and read.
`Writable` says what the compiler sees to, and that the reader's engine has room for the function.
-/

namespace QuickJsKmp.ObjectFormat

open Codec (Encoder Decoder Carries)

variable {T : Transfer}

-- ---------------------------------------------------------------------------
-- With other atoms
-- ---------------------------------------------------------------------------

section Map

variable (f : JSAtom → JSAtom)

def VarDef.map (vd : VarDef) : VarDef := { vd with varName := f vd.varName }

def ClosureVar.map (cv : ClosureVar) : ClosureVar := { cv with varName := f cv.varName }

def DebugInfo.map (info : DebugInfo) : DebugInfo := { info with filename := f info.filename }

def FunctionBytecode.map (b : FunctionBytecode) : FunctionBytecode :=
  { b with
    funcName := f b.funcName
    vardefs := b.vardefs.map (VarDef.map f)
    closureVar := b.closureVar.map (ClosureVar.map f)
    byteCode := mapCode f b.byteCode.length b.byteCode
    debug := b.debug.map (DebugInfo.map f) }

def ExportSource.map : ExportSource → ExportSource
  | .local varIdx => .local varIdx
  | .other exportType reqModuleIdx localName => .other exportType reqModuleIdx (f localName)

def ExportEntry.map (me : ExportEntry) : ExportEntry :=
  { source := me.source.map f, exportName := f me.exportName }

def ImportEntry.map (mi : ImportEntry) : ImportEntry := { mi with importName := f mi.importName }

def ModuleDef.map (m : ModuleDef) : ModuleDef :=
  { m with
    moduleName := f m.moduleName
    exports := m.exports.map (ExportEntry.map f)
    imports := m.imports.map (ImportEntry.map f) }

end Map

-- ---------------------------------------------------------------------------
-- The atoms, in the order of their use
-- ---------------------------------------------------------------------------

def VarDef.atoms (vd : VarDef) : List JSAtom := [vd.varName]

def ClosureVar.atoms (cv : ClosureVar) : List JSAtom := [cv.varName]

def DebugInfo.atoms : Option DebugInfo → List JSAtom
  | none => []
  | some info => [info.filename]

def FunctionBytecode.atoms (b : FunctionBytecode) : List JSAtom :=
  b.funcName :: (b.vardefs.flatMap VarDef.atoms ++ (b.closureVar.flatMap ClosureVar.atoms ++
    (codeAtoms b.byteCode.length b.byteCode ++ DebugInfo.atoms b.debug)))

def ExportSource.atoms : ExportSource → List JSAtom
  | .local _ => []
  | .other _ _ localName => [localName]

def ImportEntry.atoms (mi : ImportEntry) : List JSAtom := [mi.importName]

def ExportEntry.atoms (me : ExportEntry) : List JSAtom := me.source.atoms ++ [me.exportName]

/-- The ones behind the requested modules. -/
def ModuleDef.atoms (m : ModuleDef) : List JSAtom :=
  m.exports.flatMap ExportEntry.atoms ++ m.imports.flatMap ImportEntry.atoms

-- ---------------------------------------------------------------------------
-- What can be written and read
-- ---------------------------------------------------------------------------

/-- The bytes that the reader allocates for the function. -/
def FunctionBytecode.room (sizes : Sizes) (b : FunctionBytecode) (cpoolCount : ℕ) : ℕ :=
  (if b.debug.isSome then sizes.functionBytecode else sizes.debugOffset) +
    cpoolCount * sizes.value + b.vardefs.length * sizes.varDef +
    b.closureVar.length * sizes.closureVar + b.byteCode.length

structure FunctionBytecode.Writable (sizes : Sizes) (b : FunctionBytecode) (cpoolCount : ℕ) :
    Prop where
  code : Instructions b.byteCode
  vardefs : b.vardefs ≠ [] → b.vardefs.length = b.argCount.toNat + b.varCount.toNat
  room : b.room sizes cpoolCount < 2 ^ 31
  blocks : ∀ info ∈ b.debug, info.pc2line.length < 2 ^ 31 ∧ info.source.length < 2 ^ 31

structure ModuleDef.Writable (m : ModuleDef) : Prop where
  exports : m.exports.length < 2 ^ 31
  starExports : m.starExports.length < 2 ^ 31
  imports : m.imports.length < 2 ^ 31

-- ---------------------------------------------------------------------------
-- Functions
-- ---------------------------------------------------------------------------

theorem carries_varDef (vd : VarDef) :
    Carries T.format (jsWriteVarDef vd) jsReadVarDef vd.atoms (vd.map T.atom) := by
  have hfits : BitFields.Fits [(vd.varKind.toNat, 4), (vd.isConst.toNat, 1),
      (vd.isLexical.toNat, 1), (vd.isCaptured.toNat, 1), (vd.hasScope.toNat, 1)] := by
    simp only [BitFields.fits_cons, BitFields.fits_nil, BitFields.toNat_fits, vd.varKind.isLt,
      and_self]
  refine .bind (v := []) (carries_atom _) (.bind (v := []) (carries_leb128 _)
    (.bind (v := []) (carries_leb128_u16 _) ?_))
  refine ((carries_u8 _).map _).of_eq rfl ?_
  rw [toNat_flags_u8 hfits (Nat.le_refl 8), getFlags_setFlags hfits 0 0 rfl rfl,
    getFlag_setFlags hfits 1 4 rfl rfl, getFlag_setFlags hfits 2 5 rfl rfl,
    getFlag_setFlags hfits 3 6 rfl rfl, getFlag_setFlags hfits 4 7 rfl rfl,
    BitVec.add_sub_cancel, BitVec.ofNat_toNat, BitVec.setWidth_eq]
  rfl

theorem carries_closureVar (cv : ClosureVar) :
    Carries T.format (jsWriteClosureVar cv) jsReadClosureVar cv.atoms (cv.map T.atom) := by
  have hfits : BitFields.Fits [(cv.closureType.toNat, 3), (cv.isConst.toNat, 1),
      (cv.isLexical.toNat, 1), (cv.varKind.toNat, 4)] := by
    simp only [BitFields.fits_cons, BitFields.fits_nil, BitFields.toNat_fits, cv.varKind.isLt,
      cv.closureType.isLt, and_self]
  refine .bind (v := []) (carries_atom _) (.bind (v := []) (carries_leb128 _) ?_)
  refine ((carries_u16 _).map _).of_eq rfl ?_
  rw [toNat_flags_u16 hfits (by simp [BitFields.width]), getFlags_setFlags hfits 0 0 rfl rfl,
    getFlag_setFlags hfits 1 3 rfl rfl, getFlag_setFlags hfits 2 4 rfl rfl,
    getFlags_setFlags hfits 3 5 rfl rfl, BitVec.ofNat_toNat, BitVec.setWidth_eq,
    BitVec.ofNat_toNat, BitVec.setWidth_eq]
  simp [ClosureVar.map]

/-- A count that is allocated. -/
theorem carries_count {n : ℕ} (hn : n < 2 ^ 31) :
    Carries T.format (bcPutLeb128 (BitVec.ofNat 32 n)) bcGetCount [] n := by
  refine .andThen (carries_leb128 _) fun _ input => ?_
  have hnat : (BitVec.ofNat 32 n).toNat = n := by rw [BitVec.toNat_ofNat]; omega
  have hint : ¬(BitVec.ofNat 32 n).toInt < 0 := by rw [BitVec.toInt_eq_toNat_cond, hnat]; omega
  rw [if_neg hint, hnat]
  rfl

theorem carries_debug {debug : Option DebugInfo} (hblocks : ∀ info ∈ debug,
    info.pc2line.length < 2 ^ 31 ∧ info.source.length < 2 ^ 31) :
    Carries T.format (jsWriteDebug debug) (jsReadDebug debug.isSome) (DebugInfo.atoms debug)
      (debug.map (DebugInfo.map T.atom)) := by
  cases debug with
  | none => exact .pure none
  | some info =>
    obtain ⟨hpc2line, hsource⟩ := hblocks info rfl
    refine .bind (v := []) (carries_atom _) (.bind_assoc (v := []) (carries_count hpc2line)
      (.bind (v := []) (carries_buf rfl) (.bind_assoc (v := []) (carries_count hsource) ?_)))
    exact (carries_buf rfl).map _

theorem flags_fit (b : FunctionBytecode) : BitFields.Fits b.flags := by
  simp only [FunctionBytecode.flags, BitFields.fits_cons, BitFields.fits_nil, BitFields.toNat_fits,
    b.funcKind.isLt, and_self]

theorem toNat_count {n : ℕ} (hn : n < 2 ^ 31) : (BitVec.ofNat 32 n).toNat = n := by
  rw [BitVec.toNat_ofNat]
  omega

theorem msb_count {n : ℕ} (hn : n < 2 ^ 31) : (BitVec.ofNat 32 n).msb = false := by
  rw [BitVec.msb_eq_decide, toNat_count hn]
  simp
  omega

theorem signExtend_count {n : ℕ} (hn : n < 2 ^ 31) :
    ((BitVec.ofNat 32 n).signExtend 64).toNat = n := by
  rw [BitVec.signExtend_eq_setWidth_of_msb_false (msb_count hn), BitVec.toNat_setWidth,
    toNat_count hn]
  omega

/-- There is no overflow in the size of a function that is accepted. -/
theorem functionSize_eq {sizes : Sizes} {hasDebug : Bool} {cpool locals closures code : ℕ}
    (hroom : (if hasDebug then sizes.functionBytecode else sizes.debugOffset) +
      cpool * sizes.value + locals * sizes.varDef + closures * sizes.closureVar + code < 2 ^ 31)
    (hcpool : cpool < 2 ^ 31) (hlocals : locals < 2 ^ 31) (hclosures : closures < 2 ^ 31)
    (hcode : code < 2 ^ 31) :
    (functionSize sizes hasDebug (BitVec.ofNat 32 cpool) (BitVec.ofNat 32 locals)
      (BitVec.ofNat 32 closures) (BitVec.ofNat 32 code)).toNat =
      (if hasDebug then sizes.functionBytecode else sizes.debugOffset) +
        cpool * sizes.value + locals * sizes.varDef + closures * sizes.closureVar + code := by
  simp only [functionSize, BitVec.toNat_add, BitVec.toNat_mul, BitVec.toNat_ofNat,
    signExtend_count hcpool, signExtend_count hlocals, signExtend_count hclosures,
    signExtend_count hcode, Nat.mul_mod_mod, Nat.mod_add_mod, Nat.add_mod_mod]
  exact Nat.mod_eq_of_lt (by omega)

theorem rounds_count {n : ℕ} (hn : n < 2 ^ 31) : rounds (BitVec.ofNat 32 n) = n := by
  rw [rounds, BitVec.toInt_eq_toNat_cond, toNat_count hn]
  omega

/-- What a function has many of, each counted in an `int`. -/
theorem FunctionBytecode.Writable.counts {b : FunctionBytecode} {cpoolCount : ℕ}
    (h : b.Writable T.engine.sizes cpoolCount) : cpoolCount < 2 ^ 31 ∧ b.vardefs.length < 2 ^ 31 ∧
      b.closureVar.length < 2 ^ 31 ∧ b.byteCode.length < 2 ^ 31 := by
  have hroom := h.room
  have hcpool := Nat.le_mul_of_pos_right cpoolCount T.engine.sizes.value_pos
  have hlocals := Nat.le_mul_of_pos_right b.vardefs.length T.engine.sizes.varDef_pos
  have hclosures := Nat.le_mul_of_pos_right b.closureVar.length T.engine.sizes.closureVar_pos
  rw [FunctionBytecode.room] at hroom
  omega

theorem local_count {b : FunctionBytecode} {sizes : Sizes} {cpoolCount : ℕ}
    (h : b.Writable sizes cpoolCount) : (if b.vardefs = [] then 0 else
      b.argCount.setWidth 32 + b.varCount.setWidth 32) = BitVec.ofNat 32 b.vardefs.length := by
  split
  case isTrue hnil => rw [hnil]; rfl
  case isFalse hne =>
    apply BitVec.eq_of_toNat_eq
    have harg := b.argCount.isLt
    have hvar := b.varCount.isLt
    rw [h.vardefs hne]
    simp

/-- `JS_WriteFunctionTag` behind the tag. -/
def writeFunction (b : FunctionBytecode) (cpoolCount : ℕ) : BCWriter Unit := do
  bcPutU16 (BitVec.ofNat 16 (bcSetFlags b.flags))
  bcPutU8 b.jsMode
  bcPutAtom b.funcName
  bcPutLeb128 (b.argCount.setWidth 32)
  bcPutLeb128 (b.varCount.setWidth 32)
  bcPutLeb128 (b.definedArgCount.setWidth 32)
  bcPutLeb128 (b.stackSize.setWidth 32)
  bcPutLeb128 (b.varRefCount.setWidth 32)
  bcPutLeb128 (BitVec.ofNat 32 b.closureVar.length)
  bcPutLeb128 (BitVec.ofNat 32 cpoolCount)
  bcPutLeb128 (BitVec.ofNat 32 b.byteCode.length)
  bcPutLeb128 (BitVec.ofNat 32 b.vardefs.length)
  b.vardefs.forM jsWriteVarDef
  b.closureVar.forM jsWriteClosureVar
  jsWriteFunctionBytecode b.byteCode
  jsWriteDebug b.debug

theorem jsWriteFunctionTag_eq {b : FunctionBytecode} {sizes : Sizes} {cpoolCount : ℕ}
    (h : b.Writable sizes cpoolCount) :
    jsWriteFunctionTag b cpoolCount = (do bcPutTag .functionBytecode; writeFunction b cpoolCount) := by
  rw [jsWriteFunctionTag, local_count h]
  rfl

theorem carries_function {b : FunctionBytecode} {cpoolCount : ℕ}
    (h : b.Writable T.engine.sizes cpoolCount) :
    Carries T.format (writeFunction b cpoolCount) jsReadFunctionTag b.atoms
      (b.map T.atom, cpoolCount) := by
  obtain ⟨hcpool, hlocals, hclosures, hcode⟩ := h.counts
  have hflags := flags_fit b
  refine .bind (u := []) (carries_u16 _) ?_
  dsimp only
  rw [toNat_flags_u16 hflags (by simp [FunctionBytecode.flags, BitFields.width]),
    getFlag_setFlags hflags 9 10 rfl rfl]
  refine .bind (u := []) (carries_u8 _) (.bind (u := [b.funcName]) (carries_atom _)
    (.bind (u := []) (carries_leb128_u16 _) (.bind (u := []) (carries_leb128_u16 _)
    (.bind (u := []) (carries_leb128_u16 _) (.bind (u := []) (carries_leb128_u16 _)
    (.bind (u := []) (carries_leb128_u16 _) (.bind (u := []) (carries_leb128 _)
    (.bind (u := []) (carries_leb128 _) (.bind (u := []) (carries_leb128 _)
    (.bind (u := []) (carries_leb128 _) ?_))))))))))
  have hsize : ¬2 ^ 31 - 1 < (functionSize T.engine.sizes b.debug.isSome (BitVec.ofNat 32 cpoolCount)
      (BitVec.ofNat 32 b.vardefs.length) (BitVec.ofNat 32 b.closureVar.length)
      (BitVec.ofNat 32 b.byteCode.length)).toNat := by
    have hroom : _ < 2 ^ 31 := h.room
    rw [functionSize_eq hroom hcpool hlocals hclosures hcode]
    exact Nat.not_lt.mpr (Nat.le_sub_one_of_lt hroom)
  refine .ask (t := ⟨0, [], T.engine.sizes, T.engine.nanBoxing⟩) (fun {s d} hcovers => ?_) ?_
  · have hsizes : s.sizes = T.engine.sizes := hcovers.2.2.2.1
    rw [hsizes]
  rw [if_neg hsize, if_neg (by simp [msb_count hcpool, msb_count hlocals, msb_count hclosures,
    msb_count hcode])]
  rw [rounds_count hlocals, rounds_count hclosures, rounds_count hcpool, toNat_count hcode]
  refine .bind (.forM fun vd _ => carries_varDef vd)
    (.bind (.forM fun cv _ => carries_closureVar cv) (.bind (carries_bytecode h.code)
      (.of_eq ((carries_debug h.blocks).map _) rfl ?_)))
  rw [getFlag_setFlags hflags 0 0 rfl rfl, getFlag_setFlags hflags 1 1 rfl rfl,
    getFlag_setFlags hflags 2 2 rfl rfl, getFlag_setFlags hflags 3 3 rfl rfl,
    getFlags_setFlags hflags 4 4 rfl rfl, getFlag_setFlags hflags 5 6 rfl rfl,
    getFlag_setFlags hflags 6 7 rfl rfl, getFlag_setFlags hflags 7 8 rfl rfl,
    getFlag_setFlags hflags 8 9 rfl rfl, getFlag_setFlags hflags 10 11 rfl rfl,
    BitVec.ofNat_toNat, BitVec.setWidth_eq]
  rfl

-- ---------------------------------------------------------------------------
-- Modules
-- ---------------------------------------------------------------------------

theorem carries_export (me : ExportEntry) :
    Carries T.format (jsWriteExport me) jsReadExport me.atoms (me.map T.atom) := by
  obtain ⟨source, exportName⟩ := me
  cases source with
  | «local» varIdx =>
    refine .bind (u := []) (carries_u8 _) ?_
    rw [dif_neg (by decide)]
    simp only [pure_bind]
    exact .bind (u := []) (carries_leb128 _) ((carries_atom _).map _)
  | other exportType reqModuleIdx localName =>
    refine .bind (u := []) (carries_u8 _) ?_
    rw [dif_pos exportType.property]
    simp only [pure_bind]
    exact .bind (u := []) (carries_leb128 _) (.bind (u := [localName]) (carries_atom _)
      ((carries_atom _).map _))

theorem carries_import (mi : ImportEntry) :
    Carries T.format (jsWriteImport mi) jsReadImport mi.atoms (mi.map T.atom) := by
  refine .bind (u := []) (carries_leb128 _) (.bind (u := []) (carries_u8 _)
    (.bind (u := [mi.importName]) (carries_atom _) (.of_eq ((carries_leb128 _).map _) rfl ?_)))
  obtain ⟨varIdx, isStar, importName, reqModuleIdx⟩ := mi
  cases isStar <;> rfl

theorem carries_starExports (starExports : List (BitVec 32)) :
    Carries T.format (starExports.forM bcPutLeb128) (bcGetLeb128.times starExports.length) []
      starExports :=
  .of_eq (.forM (f := id) (u := fun _ => []) fun v _ => carries_leb128 v) (by simp) (by simp)

theorem carries_moduleTables {m : ModuleDef} (h : m.Writable) :
    Carries T.format (jsWriteModuleTables m) (jsReadModuleTables (T.atom m.moduleName)) m.atoms
      (m.map T.atom) := by
  refine .of_eq (.bind (carries_count h.exports) (.bind (.forM fun me _ => carries_export me)
    (.bind (carries_count h.starExports) (.bind (carries_starExports _)
    (.bind (carries_count h.imports) (.bind (.forM fun mi _ => carries_import mi)
    ((carries_u8 _).map _))))))) ?_ ?_
  · simp [ModuleDef.atoms]
  · obtain ⟨moduleName, exports, starExports, imports, hasTla⟩ := m
    cases hasTla <;> rfl

end QuickJsKmp.ObjectFormat
