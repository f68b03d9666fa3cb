import QuickJsKmp.RoundTrip

/-!
# What is written again

An engine that has read a file writes the same file: the atoms get the same places in the table,
and an integer in normal form has the same bytes with limbs of every width.
-/

namespace QuickJsKmp.ObjectFormat

open Codec (Encoder Renames)

variable {k k' : ℕ} {T : Transfer} {β γ : Type}

-- ---------------------------------------------------------------------------
-- Atoms
-- ---------------------------------------------------------------------------

/-- Other atoms for the same strings; those that every engine has are the same. -/
structure Renaming (f : JSAtom → JSAtom) : Prop where
  static : ∀ atom, dynamic atom = false → f atom = atom
  keeps : ∀ atom, dynamic atom = true → dynamic (f atom) = true
  injective : ∀ atom atom', dynamic atom = true → dynamic atom' = true → f atom = f atom' →
    atom = atom'

section Renaming

variable {f : JSAtom → JSAtom}

theorem idxOf_map {atom : JSAtom} {d : List JSAtom} (h : ∀ x ∈ d, f x = f atom → x = atom) :
    (d.map f).idxOf? (f atom) = d.idxOf? atom := by
  induction d with
  | nil => rfl
  | cons x d ih =>
    rw [List.map_cons, List.idxOf?_cons, List.idxOf?_cons,
      ih fun y hy => h y (List.mem_cons_of_mem _ hy)]
    by_cases hx : x = atom
    · simp [hx]
    · have hfx : f x ≠ f atom := fun heq => hx (h x List.mem_cons_self heq)
      simp [hx, hfx]

variable (hf : Renaming f)
include hf

theorem tagged_renamed (atom : JSAtom) : isTaggedInt (f atom) = isTaggedInt atom := by
  cases hdyn : dynamic atom with
  | false => rw [hf.static atom hdyn]
  | true =>
    have hdyn' := hf.keeps atom hdyn
    simp only [dynamic, not_or, decide_eq_true_eq] at hdyn hdyn'
    rw [Bool.eq_false_of_not_eq_true hdyn.2, Bool.eq_false_of_not_eq_true hdyn'.2]

theorem atomToIdx_renames (atom : JSAtom) :
    Renames dynamic f (bcAtomToIdx atom) (bcAtomToIdx (f atom)) := by
  intro d hd
  cases hdyn : dynamic atom with
  | false =>
    rw [hf.static atom hdyn, Encoder.val, Encoder.out, Encoder.dict, atomToIdx_static hdyn,
      atomToIdx_static hdyn]
    exact ⟨rfl, hd⟩
  | true =>
    have hne : ¬(atom.toNat < jsAtomEnd ∨ isTaggedInt atom = true) := by simpa [dynamic] using hdyn
    have hne' : ¬((f atom).toNat < jsAtomEnd ∨ isTaggedInt (f atom) = true) := by
      simpa [dynamic] using hf.keeps atom hdyn
    have hidx : (d.map f).idxOf? (f atom) = d.idxOf? atom :=
      idxOf_map fun x hx heq => hf.injective x atom (hd x hx) hdyn heq
    rw [Encoder.val, Encoder.out, Encoder.dict, bcAtomToIdx, bcAtomToIdx, if_neg hne, if_neg hne',
      hidx]
    cases d.idxOf? atom with
    | some i => exact ⟨rfl, hd⟩
    | none =>
      refine ⟨?_, ?_⟩
      · simp
      · intro x hx
        rcases List.mem_append.mp hx with hx | hx
        · exact hd x hx
        · rw [List.mem_singleton.mp hx, hdyn]

theorem atom_renames (atom : JSAtom) : Renames dynamic f (bcPutAtom atom) (bcPutAtom (f atom)) := by
  rw [bcPutAtom, bcPutAtom, tagged_renamed hf]
  cases hint : isTaggedInt atom with
  | true =>
    have hstatic : dynamic atom = false := by simp [dynamic, hint]
    rw [hf.static atom hstatic]
    exact .put _
  | false => exact .bind (atomToIdx_renames hf atom) fun _ => .put _

-- ---------------------------------------------------------------------------
-- Byte code
-- ---------------------------------------------------------------------------

omit hf in
theorem length_mapCode {code : Bytes} (h : Instructions code) {n : ℕ} (hn : code.length ≤ n) :
    (mapCode f n code).length = code.length := by
  induction h generalizing n with
  | nil => rw [mapCode, relocate_nil]; rfl
  | @cons op size fmt operands rest hinfo hsize hrest ih =>
    rw [List.length_cons, List.length_append] at hn
    obtain ⟨n, rfl⟩ := Nat.exists_eq_succ_of_ne_zero (show n ≠ 0 by omega)
    have hlen := ih (show rest.length ≤ n by omega)
    cases hatom : fmt.hasAtom with
    | true =>
      have hfour := four_le_length hinfo hsize hatom
      rw [mapCode_atom _ hinfo hsize hatom, List.length_cons, List.length_append,
        List.length_append, LittleEndian.length_bytes, List.length_drop, hlen, List.length_cons,
        List.length_append]
      omega
    | false =>
      rw [mapCode_other _ hinfo hsize hatom, List.length_cons, List.length_append, hlen,
        List.length_cons, List.length_append]

theorem code_renames {code : Bytes} (h : Instructions code) {n : ℕ} (hn : code.length ≤ n) :
    Renames dynamic f (writeCode n code) (writeCode n (mapCode f n code)) := by
  induction h generalizing n with
  | nil =>
    have hnil : mapCode f n [] = [] := by rw [mapCode, relocate_nil]; rfl
    rw [hnil, writeCode, relocate_nil]
    exact .pure _
  | @cons op size fmt operands rest hinfo hsize hrest ih =>
    rw [List.length_cons, List.length_append] at hn
    obtain ⟨n, rfl⟩ := Nat.exists_eq_succ_of_ne_zero (show n ≠ 0 by omega)
    have hrest' := ih (show rest.length ≤ n by omega)
    cases hatom : fmt.hasAtom with
    | true =>
      have hfour := four_le_length hinfo hsize hatom
      have hsize' : (LittleEndian.bytes 4 (f (operandAtom operands)).toNat ++
          operands.drop 4).length + 1 = size := by
        rw [List.length_append, LittleEndian.length_bytes, List.length_drop]
        omega
      rw [mapCode_atom _ hinfo hsize hatom, writeCode, writeCode, relocate_atom hinfo hsize hatom,
        relocate_atom hinfo hsize' hatom, operandAtom_bytes,
        List.drop_left' (LittleEndian.length_bytes ..)]
      exact .bind (atomToIdx_renames hf _) fun _ => .bind hrest' fun _ => .pure _
    | false =>
      rw [mapCode_other _ hinfo hsize hatom, writeCode, writeCode, relocate_other hinfo hsize hatom,
        relocate_other hinfo hsize hatom]
      exact .bind hrest' fun _ => .pure _

theorem bytecode_renames {code : Bytes} (h : Instructions code) :
    Renames dynamic f (jsWriteFunctionBytecode code)
      (jsWriteFunctionBytecode (mapCode f code.length code)) := by
  rw [jsWriteFunctionBytecode, jsWriteFunctionBytecode, length_mapCode h (Nat.le_refl _)]
  exact .bind (code_renames hf h (Nat.le_refl _)) fun _ => .put _

-- ---------------------------------------------------------------------------
-- Functions and modules
-- ---------------------------------------------------------------------------

theorem varDef_renames (vd : VarDef) :
    Renames dynamic f (jsWriteVarDef vd) (jsWriteVarDef (vd.map f)) :=
  .bind (atom_renames hf _) fun _ => .bind (.put _) fun _ => .bind (.put _) fun _ => .put _

theorem closureVar_renames (cv : ClosureVar) :
    Renames dynamic f (jsWriteClosureVar cv) (jsWriteClosureVar (cv.map f)) :=
  .bind (atom_renames hf _) fun _ => .bind (.put _) fun _ => .put _

theorem debug_renames (debug : Option DebugInfo) :
    Renames dynamic f (jsWriteDebug debug) (jsWriteDebug (debug.map (DebugInfo.map f))) := by
  cases debug with
  | none => exact .pure ()
  | some info =>
    exact .bind (atom_renames hf _) fun _ => .bind (.put _) fun _ => .bind (.put _) fun _ =>
      .bind (.put _) fun _ => .put _

theorem function_renames {b : FunctionBytecode} (h : Instructions b.byteCode) (cpoolCount : ℕ) :
    Renames dynamic f (jsWriteFunctionTag b cpoolCount) (jsWriteFunctionTag (b.map f) cpoolCount) := by
  have hflags : (b.map f).flags = b.flags := by
    simp [FunctionBytecode.flags, FunctionBytecode.map]
  have hclosures : (b.map f).closureVar.length = b.closureVar.length := List.length_map ..
  have hcode : (b.map f).byteCode.length = b.byteCode.length := length_mapCode h (Nat.le_refl _)
  have hvardefs : (b.map f).vardefs = [] ↔ b.vardefs = [] := List.map_eq_nil_iff
  rw [jsWriteFunctionTag, jsWriteFunctionTag, hflags, hclosures, hcode]
  simp only [hvardefs]
  exact .bind (.put _) fun _ => .bind (.put _) fun _ => .bind (.put _) fun _ =>
    .bind (atom_renames hf _) fun _ => .bind (.put _) fun _ => .bind (.put _) fun _ =>
    .bind (.put _) fun _ => .bind (.put _) fun _ => .bind (.put _) fun _ => .bind (.put _) fun _ =>
    .bind (.put _) fun _ => .bind (.put _) fun _ => .bind (.put _) fun _ =>
    .bind (.forM fun vd _ => varDef_renames hf vd) fun _ =>
    .bind (.forM fun cv _ => closureVar_renames hf cv) fun _ =>
    .bind (bytecode_renames hf h) fun _ => debug_renames hf _

theorem export_renames (me : ExportEntry) :
    Renames dynamic f (jsWriteExport me) (jsWriteExport (me.map f)) := by
  obtain ⟨source, exportName⟩ := me
  cases source with
  | «local» varIdx =>
    exact .bind (.put _) fun _ => .bind (.put _) fun _ => atom_renames hf _
  | other exportType reqModuleIdx localName =>
    exact .bind (.put _) fun _ => .bind (.put _) fun _ => .bind (atom_renames hf _) fun _ =>
      atom_renames hf _

theorem import_renames (mi : ImportEntry) :
    Renames dynamic f (jsWriteImport mi) (jsWriteImport (mi.map f)) :=
  .bind (.put _) fun _ => .bind (.put _) fun _ => .bind (atom_renames hf _) fun _ => .put _

theorem moduleTables_renames (m : ModuleDef) :
    Renames dynamic f (jsWriteModuleTables m) (jsWriteModuleTables (m.map f)) := by
  have hexports : (m.map f).exports.length = m.exports.length := List.length_map ..
  have himports : (m.map f).imports.length = m.imports.length := List.length_map ..
  have hstars : Renames dynamic f (m.starExports.forM bcPutLeb128)
      ((m.map f).starExports.forM bcPutLeb128) := by
    have hforM : Renames dynamic f (m.starExports.forM bcPutLeb128)
        ((m.starExports.map id).forM bcPutLeb128) := .forM fun _ _ => .put _
    rwa [List.map_id] at hforM
  rw [jsWriteModuleTables, jsWriteModuleTables, hexports, himports]
  exact .bind (.put _) fun _ => .bind (.forM fun me _ => export_renames hf me) fun _ =>
    .bind (.put _) fun _ => .bind hstars fun _ => .bind (.put _) fun _ =>
    .bind (.forM fun mi _ => import_renames hf mi) fun _ => .put _

end Renaming

-- ---------------------------------------------------------------------------
-- Values
-- ---------------------------------------------------------------------------

/-- As an engine has it that made the value itself, or read it: `js_bigint_normalize1` and, under
`JS_NAN_BOXING`, `__JS_NewFloat64` change nothing. -/
def Primitive.Normal (nanBoxing : Bool) : Primitive (JSBigInt k) → Prop
  | .bigInt n => n.Normal
  | .float64 bits => newFloat64 nanBoxing bits = bits
  | _ => True

mutual

/-- Every primitive of the value, in the order in which it is written. -/
def JSValue.primitives : JSValue β → List (Primitive β)
  | .primitive p => [p]
  | .functionBytecode _ cpool => cpool.primitives
  | .module _ reqModules funcObj => reqModules.primitives ++ funcObj.primitives
  | .object props => props.primitives
  | .array values => values.primitives
  | .template values raw => values.primitives ++ raw.primitives

def JSValues.primitives : JSValues β → List (Primitive β)
  | .nil => []
  | .cons v rest => v.primitives ++ rest.primitives

def Entries.primitives : Entries β → List (Primitive β)
  | .nil => []
  | .cons _ v rest => v.primitives ++ rest.primitives

end

theorem JSValues.length_map (f : JSAtom → JSAtom) (g : β → γ) (h : BitVec 64 → BitVec 64) :
    (values : JSValues β) → (values.map f g h).length = values.length
  | .nil => rfl
  | .cons _ rest => congrArg (· + 1) (JSValues.length_map f g h rest)

theorem Entries.length_map (f : JSAtom → JSAtom) (g : β → γ) (h : BitVec 64 → BitVec 64) :
    (entries : Entries β) → (entries.map f g h).length = entries.length
  | .nil => rfl
  | .cons _ _ rest => congrArg (· + 1) (Entries.length_map f g h rest)

/-- What stands for the same integer is written as the same bytes. -/
theorem primitive_again (hk : 0 < k) (hk' : 0 < k') {p : Primitive (JSBigInt k)}
    {nanBoxing : Bool} (h : p.Normal nanBoxing) :
    jsWritePrimitive (p.map (·.convert k') (newFloat64 nanBoxing)) = jsWritePrimitive p := by
  cases p with
  | float64 bits => exact congrArg (fun bits => jsWritePrimitive (.float64 bits)) h
  | bigInt n =>
    have hbytes := bytes_convert hk hk' h
    rw [Primitive.map, jsWritePrimitive, jsWritePrimitive, jsWriteBigInt_eq hk',
      jsWriteBigInt_eq hk, writeBigInt, writeBigInt, hbytes]
  | _ => rfl

theorem primitive_renames (hk : 0 < k) (f : JSAtom → JSAtom) (p : Primitive (JSBigInt k)) :
    Renames dynamic f (jsWritePrimitive p) (jsWritePrimitive p) := by
  cases p with
  | int v => exact .bind (.put _) fun _ => .put _
  | float64 bits => exact .bind (.put _) fun _ => .put _
  | string s =>
    cases s with
    | narrow chars => exact .bind (.put _) fun _ => .bind (.put _) fun _ => .put _
    | wide units => exact .bind (.put _) fun _ => .bind (.put _) fun _ => .put _
  | bigInt n =>
    rw [jsWritePrimitive, jsWriteBigInt_eq hk]
    exact .bind (.put _) fun _ => .bind (.put _) fun _ => .put _
  | _ => exact .put _

mutual

/-- One call of the writer, by the structure of the value. -/
theorem value_renames (hk : 0 < k) (hk' : 0 < k') {f : JSAtom → JSAtom} (hf : Renaming f)
    {sizes : Sizes} {room : ℕ} {nanBoxing : Bool} : (v : JSValue (JSBigInt k)) → v.Writable room sizes →
    (∀ p ∈ v.primitives, p.Normal nanBoxing) →
    Renames dynamic f (jsWriteObjectRec v)
      (jsWriteObjectRec (v.map f (·.convert k') (newFloat64 nanBoxing)))
  | .primitive p, _, hnormal => by
    rw [JSValue.map, jsWriteObjectRec, jsWriteObjectRec, primitive_again hk hk' (hnormal p (List.mem_singleton_self p))]
    exact primitive_renames hk f p
  | .functionBytecode b cpool, h, hnormal => by
    rw [JSValue.map, jsWriteObjectRec, jsWriteObjectRec, JSValues.length_map]
    exact .bind (function_renames hf h.1.code _) fun _ =>
      values_renames hk hk' hf cpool h.2 hnormal
  | .module m reqModules funcObj, h, hnormal => by
    obtain ⟨hreqs, hfunc⟩ := List.forall_mem_append.mp hnormal
    rw [JSValue.map, jsWriteObjectRec, jsWriteObjectRec, Entries.length_map]
    exact .bind (.put _) fun _ => .bind (atom_renames hf _) fun _ => .bind (.put _) fun _ =>
      .bind (entries_renames hk hk' hf reqModules h.2.2.1 hreqs) fun _ =>
      .bind (moduleTables_renames hf m) fun _ => value_renames hk hk' hf funcObj h.2.2.2 hfunc
  | .object props, h, hnormal => by
    rw [JSValue.map, jsWriteObjectRec, jsWriteObjectRec, Entries.length_map]
    exact .bind (.put _) fun _ => .bind (.put _) fun _ =>
      entries_renames hk hk' hf props h.2 hnormal
  | .array values, h, hnormal => by
    rw [JSValue.map, jsWriteObjectRec, jsWriteObjectRec, JSValues.length_map]
    exact .bind (.put _) fun _ => .bind (.put _) fun _ =>
      values_renames hk hk' hf values h.2 hnormal
  | .template values raw, h, hnormal => by
    obtain ⟨hvalues, hraw⟩ := List.forall_mem_append.mp hnormal
    rw [JSValue.map, jsWriteObjectRec, jsWriteObjectRec, JSValues.length_map]
    exact .bind (.put _) fun _ => .bind (.put _) fun _ =>
      .bind (values_renames hk hk' hf values h.2.1 hvalues) fun _ =>
      value_renames hk hk' hf raw h.2.2 hraw

theorem values_renames (hk : 0 < k) (hk' : 0 < k') {f : JSAtom → JSAtom} (hf : Renaming f)
    {sizes : Sizes} {room : ℕ} {nanBoxing : Bool} : (values : JSValues (JSBigInt k)) →
    values.Writable room sizes → (∀ p ∈ values.primitives, p.Normal nanBoxing) →
    Renames dynamic f (jsWriteValues values)
      (jsWriteValues (values.map f (·.convert k') (newFloat64 nanBoxing)))
  | .nil, _, _ => .pure ()
  | .cons v rest, h, hnormal => by
    obtain ⟨hv, hrest⟩ := List.forall_mem_append.mp hnormal
    rw [JSValues.map, jsWriteValues, jsWriteValues]
    exact .bind (value_renames hk hk' hf v h.1 hv) fun _ =>
      values_renames hk hk' hf rest h.2 hrest

theorem entries_renames (hk : 0 < k) (hk' : 0 < k') {f : JSAtom → JSAtom} (hf : Renaming f)
    {sizes : Sizes} {room : ℕ} {nanBoxing : Bool} : (entries : Entries (JSBigInt k)) →
    entries.Writable room sizes → (∀ p ∈ entries.primitives, p.Normal nanBoxing) →
    Renames dynamic f (jsWriteEntries entries)
      (jsWriteEntries (entries.map f (·.convert k') (newFloat64 nanBoxing)))
  | .nil, _, _ => .pure ()
  | .cons atom v rest, h, hnormal => by
    obtain ⟨hv, hrest⟩ := List.forall_mem_append.mp hnormal
    rw [Entries.map, jsWriteEntries, jsWriteEntries]
    exact .bind (atom_renames hf _) fun _ => .bind (value_renames hk hk' hf v h.1 hv) fun _ =>
      entries_renames hk hk' hf rest h.2 hrest

end

-- ---------------------------------------------------------------------------
-- Main result
-- ---------------------------------------------------------------------------

theorem table_again {f : JSAtom → JSAtom} {atomArray atomArray' : JSAtom → JSString}
    {d : List JSAtom} (h : ∀ atom ∈ d, atomArray' (f atom) = atomArray atom) :
    jsWriteObjectAtoms atomArray' (d.map f) = jsWriteObjectAtoms atomArray d := by
  have hstrings : ((d.map f).forM fun atom => jsWriteString (atomArray' atom)) =
      (d.forM fun atom => jsWriteString (atomArray atom)) := by
    induction d with
    | nil => rfl
    | cons atom d ih =>
      have hrest := ih fun x hx => h x (List.mem_cons_of_mem _ hx)
      change (jsWriteString (atomArray' (f atom)) >>= fun _ => (d.map f).forM _) =
        (jsWriteString (atomArray atom) >>= fun _ => d.forM _)
      rw [h atom List.mem_cons_self, hrest]
  rw [jsWriteObjectAtoms, jsWriteObjectAtoms, List.length_map, hstrings]

theorem file_again {f : JSAtom → JSAtom} {atomArray atomArray' : JSAtom → JSString}
    {v : JSValue (JSBigInt k)} {v' : JSValue (JSBigInt k')}
    (h : Renames dynamic f (jsWriteObjectRec v) (jsWriteObjectRec v'))
    (hstrings : ∀ atom, dynamic atom = true → atomArray' (f atom) = atomArray atom) :
    jsWriteObject atomArray' v' = jsWriteObject atomArray v := by
  obtain ⟨hsame, hnoted⟩ := h [] fun _ hx => absurd hx (List.not_mem_nil)
  rw [List.map_nil] at hsame
  have hdict : (jsWriteObjectRec v').dict [] = ((jsWriteObjectRec v).dict []).map f := by
    rw [Encoder.dict, hsame]
  have hout : (jsWriteObjectRec v').out [] = (jsWriteObjectRec v).out [] := by
    rw [Encoder.out, hsame]
  rw [jsWriteObject, jsWriteObject, hdict, hout,
    table_again fun atom hatom => hstrings atom (hnoted atom hatom)]

/-- What an engine has read, it writes as the same file, whatever the numbers of its atoms and its
limbs are: its atom for a string of the writer has that string, of the same width (`hnew`). -/
theorem written_again (hk : 0 < k) (hk' : 0 < k') {v : JSValue (JSBigInt k)}
    (h : v.Writable k' T.engine.sizes) (hstack : v.depth ≤ T.engine.stack)
    (hnormal : ∀ p ∈ v.primitives, p.Normal T.engine.nanBoxing) {atomArray : JSAtom → JSString}
    (hinj : ∀ atom atom', dynamic atom = true → dynamic atom' = true →
      T.atomArray atom = T.atomArray atom' → atom = atom')
    (hnew : ∀ atom, dynamic atom = true →
      dynamic (T.engine.newAtomStr (T.atomArray atom)) = true ∧
        atomArray (T.engine.newAtomStr (T.atomArray atom)) = T.atomArray atom)
    (rest : Bytes) : ∃ v' : JSValue (JSBigInt k'),
      jsReadObject k' T.engine (jsWriteObject T.atomArray v ++ rest) = .ok (v', rest) ∧
        jsWriteObject atomArray v' = jsWriteObject T.atomArray v := by
  have hatom {atom : JSAtom} (hdyn : dynamic atom = true) :
      T.atom atom = T.engine.newAtomStr (T.atomArray atom) := by rw [Transfer.atom, if_pos hdyn]
  have hstrings (atom : JSAtom) (hdyn : dynamic atom = true) :
      atomArray (T.atom atom) = T.atomArray atom := by rw [hatom hdyn, (hnew atom hdyn).2]
  have hrenaming : Renaming T.atom := by
    constructor
    case static =>
      intro atom hdyn
      rw [Transfer.atom, if_neg (by simp [hdyn])]
    case keeps =>
      intro atom hdyn
      rw [hatom hdyn, (hnew atom hdyn).1]
    case injective =>
      intro atom atom' hdyn hdyn' heq
      refine hinj atom atom' hdyn hdyn' ?_
      rw [← hstrings atom hdyn, heq, hstrings atom' hdyn']
  exact ⟨_, read_of_carries (carries_value hk hk' v h hstack) rest,
    file_again (value_renames hk hk' hrenaming v h hnormal) hstrings⟩

/-- The reader has the first two atoms of the module the other way round. -/
def crossed (atom : JSAtom) : JSAtom :=
  if atom = 500 then 501 else if atom = 501 then 500 else atom

def readSpelled : JSString → JSAtom
  | .narrow chars => crossed (BitVec.ofNat 32 (LittleEndian.value chars))
  | .wide _ => 0

def spelledTransfer : Transfer where
  atomArray := spelled
  engine := { newAtomStr := readSpelled, sizes := smallSizes, stack := 8, nanBoxing := true }
  len_le _ := show 4 ≤ jsStringLenMax by decide

theorem ofNat_value_spelled (atom : JSAtom) :
    BitVec.ofNat 32 (LittleEndian.value (LittleEndian.bytes 4 atom.toNat)) = atom := by
  rw [LittleEndian.value_bytes_of_lt atom.isLt, BitVec.ofNat_toNat, BitVec.setWidth_eq]

theorem crossed_crossed (atom : JSAtom) : crossed (crossed atom) = atom := by
  by_cases h : atom = 500
  · simp [crossed, h]
  · by_cases h' : atom = 501
    · simp [crossed, h']
    · have hsame : crossed atom = atom := by rw [crossed, if_neg h, if_neg h']
      rw [hsame, hsame]

theorem dynamic_crossed {atom : JSAtom} (h : dynamic atom = true) :
    dynamic (crossed atom) = true := by
  unfold crossed
  split
  · decide
  · split
    · decide
    · exact h

theorem written_again_module : ∃ v' : JSValue (JSBigInt 4),
    jsReadObject 4 spelledTransfer.engine (jsWriteObject spelled smallModule ++ [7]) =
      .ok (v', [7]) ∧
        jsWriteObject (fun atom => spelled (crossed atom)) v' = jsWriteObject spelled smallModule := by
  have hwritable : smallModule.Writable 4 smallSizes := smallModule_writable (by decide)
  have hnormal : ∀ p ∈ smallModule.primitives, p.Normal true := by
    simp [smallModule, JSValue.primitives, JSValues.primitives, Entries.primitives,
      Primitive.Normal, JSBigInt.Normal, smallBigInt]
  have hinj (atom atom' : JSAtom) (heq : spelled atom = spelled atom') : atom = atom' := by
    rw [← ofNat_value_spelled atom, ← ofNat_value_spelled atom', JSString.narrow.inj heq]
  have hread (atom : JSAtom) : readSpelled (spelled atom) = crossed atom :=
    congrArg crossed (ofNat_value_spelled atom)
  refine written_again (T := spelledTransfer) (by decide) (by decide) hwritable (by decide) hnormal
    (fun atom atom' _ _ => hinj atom atom') (fun atom hdyn => ?_) [7]
  constructor
  · exact (congrArg (fun a => dynamic a) (hread atom)).trans (dynamic_crossed hdyn)
  · exact congrArg spelled ((congrArg crossed (hread atom)).trans (crossed_crossed atom))

end QuickJsKmp.ObjectFormat
