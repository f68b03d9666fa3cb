import QuickJsKmp.BigIntFormat
import QuickJsKmp.ObjectTables

/-!
# What is written is read back

A value that the writer puts into a file comes out of the reader as the same value, with the
reader's atoms for the same strings and the reader's limbs for the same integers. Nothing of what
follows the value is touched, and no part of a file is taken for the whole.
-/

namespace QuickJsKmp.ObjectFormat

open Codec (Encoder Decoder Carries)

variable {k k' : ℕ} {T : Transfer} {β γ : Type}

-- ---------------------------------------------------------------------------
-- With other atoms and other limbs
-- ---------------------------------------------------------------------------

def Primitive.map (g : β → γ) (h : BitVec 64 → BitVec 64) : Primitive β → Primitive γ
  | .null => .null
  | .undefined => .undefined
  | .bool b => .bool b
  | .int v => .int v
  | .float64 bits => .float64 (h bits)
  | .string s => .string s
  | .bigInt p => .bigInt (g p)

mutual

def JSValue.map (f : JSAtom → JSAtom) (g : β → γ) (h : BitVec 64 → BitVec 64) :
    JSValue β → JSValue γ
  | .primitive p => .primitive (p.map g h)
  | .functionBytecode b cpool => .functionBytecode (b.map f) (cpool.map f g h)
  | .module m reqModules funcObj =>
    .module (m.map f) (reqModules.map f g h) (funcObj.map f g h)
  | .object props => .object (props.map f g h)
  | .array values => .array (values.map f g h)
  | .template values raw => .template (values.map f g h) (raw.map f g h)

def JSValues.map (f : JSAtom → JSAtom) (g : β → γ) (h : BitVec 64 → BitVec 64) :
    JSValues β → JSValues γ
  | .nil => .nil
  | .cons v rest => .cons (v.map f g h) (rest.map f g h)

def Entries.map (f : JSAtom → JSAtom) (g : β → γ) (h : BitVec 64 → BitVec 64) :
    Entries β → Entries γ
  | .nil => .nil
  | .cons atom v rest => .cons (f atom) (v.map f g h) (rest.map f g h)

end

mutual

/-- Every atom that the value uses, in the order in which it is written. -/
def JSValue.atoms : JSValue β → List JSAtom
  | .primitive _ => []
  | .functionBytecode b cpool => b.atoms ++ cpool.atoms
  | .module m reqModules funcObj =>
    m.moduleName :: (reqModules.atoms ++ (m.atoms ++ funcObj.atoms))
  | .object props => props.atoms
  | .array values => values.atoms
  | .template values raw => values.atoms ++ raw.atoms

def JSValues.atoms : JSValues β → List JSAtom
  | .nil => []
  | .cons v rest => v.atoms ++ rest.atoms

def Entries.atoms : Entries β → List JSAtom
  | .nil => []
  | .cons atom v rest => atom :: (v.atoms ++ rest.atoms)

end

-- ---------------------------------------------------------------------------
-- What a reader takes
-- ---------------------------------------------------------------------------

mutual

/-- The calls that are nested in reading it. -/
def JSValue.depth : JSValue β → ℕ
  | .primitive _ => 1
  | .functionBytecode _ cpool => cpool.depth + 1
  | .module _ reqModules funcObj => max reqModules.depth funcObj.depth + 1
  | .object props => props.depth + 1
  | .array values => values.depth + 1
  | .template values raw => max values.depth raw.depth + 1

def JSValues.depth : JSValues β → ℕ
  | .nil => 0
  | .cons v rest => max v.depth rest.depth

def Entries.depth : Entries β → ℕ
  | .nil => 0
  | .cons _ v rest => max v.depth rest.depth

end

/-- A string is no longer than one can be, and a BigInt not too large for the reader. -/
def Primitive.Writable (k' : ℕ) : Primitive (JSBigInt k) → Prop
  | .string s => s.len ≤ jsStringLenMax
  | .bigInt p => (p.byteLength - 1) / k' + 1 ≤ jsBigIntMaxSize k'
  | _ => True

mutual

/-- The counts are counted, and what is allocated at once has room. -/
def JSValue.Writable (k' : ℕ) (sizes : Sizes) : JSValue (JSBigInt k) → Prop
  | .primitive p => p.Writable k'
  | .functionBytecode b cpool => b.Writable sizes cpool.length ∧ cpool.Writable k' sizes
  | .module m reqModules funcObj => m.Writable ∧ reqModules.length < 2 ^ 31 ∧
    reqModules.Writable k' sizes ∧ funcObj.Writable k' sizes
  | .object props => props.length < 2 ^ 32 ∧ props.Writable k' sizes
  | .array values => values.length < 2 ^ 32 ∧ values.Writable k' sizes
  | .template values raw =>
    values.length < 2 ^ 32 ∧ values.Writable k' sizes ∧ raw.Writable k' sizes

def JSValues.Writable (k' : ℕ) (sizes : Sizes) : JSValues (JSBigInt k) → Prop
  | .nil => True
  | .cons v rest => v.Writable k' sizes ∧ rest.Writable k' sizes

def Entries.Writable (k' : ℕ) (sizes : Sizes) : Entries (JSBigInt k) → Prop
  | .nil => True
  | .cons _ v rest => v.Writable k' sizes ∧ rest.Writable k' sizes

end

-- ---------------------------------------------------------------------------
-- One value
-- ---------------------------------------------------------------------------

theorem ofByte_byte (tag : BCTag) : BCTag.ofByte tag.byte = some tag := by cases tag <;> rfl

theorem toNat_length {n : ℕ} (hn : n < 2 ^ 32) : (BitVec.ofNat 32 n).toNat = n := by
  rw [BitVec.toNat_ofNat, Nat.mod_eq_of_lt hn]

theorem carries_primitive (hk : 0 < k) (hk' : 0 < k') {p : Primitive (JSBigInt k)}
    (h : p.Writable k') (depth : ℕ) :
    Carries T.format (jsWritePrimitive p) (jsReadObjectRec k' (depth + 1)) []
      (.primitive (p.map (·.convert k') T.float64)) := by
  cases p with
  | null =>
    refine .andThen (carries_u8 _) fun _ input => ?_
    rw [ofByte_byte]
    rfl
  | undefined =>
    refine .andThen (carries_u8 _) fun _ input => ?_
    rw [ofByte_byte]
    rfl
  | bool b =>
    refine .andThen (carries_u8 _) fun _ input => ?_
    rw [ofByte_byte]
    cases b <;> rfl
  | int v =>
    refine .bind (u := []) (carries_u8 _) ?_
    rw [ofByte_byte]
    exact (carries_sleb128 v).map _
  | float64 bits =>
    refine .bind (u := []) (carries_u8 _) ?_
    rw [ofByte_byte]
    have hread : Carries T.format (bcPutU64 bits) (do
        let s ← read
        let v ← bcGetU64
        return JSValue.primitive (Primitive.float64 (newFloat64 s.nanBoxing v)))
        [] (JSValue.primitive (Primitive.float64 (T.float64 bits)) : JSValue (JSBigInt k')) := by
      refine .ask (t := ⟨0, [], T.engine.sizes, T.engine.nanBoxing⟩) (fun {s d} hcovers => ?_)
        ((carries_u64 bits).map _)
      have hboxing : s.nanBoxing = T.engine.nanBoxing := hcovers.2.2.2.2
      rw [hboxing]
    exact hread
  | string s =>
    refine .bind (u := []) (carries_u8 _) ?_
    rw [ofByte_byte]
    exact (carries_string h).map _
  | bigInt p =>
    rw [jsWritePrimitive, jsWriteBigInt_eq hk]
    refine .bind (u := []) (carries_u8 _) ?_
    rw [ofByte_byte]
    exact (carries_bigInt hk' h).map _

theorem calls {inner depth : ℕ} (h : inner + 1 ≤ depth) : ∃ n, depth = n + 1 ∧ inner ≤ n :=
  ⟨depth - 1, by omega, by omega⟩

mutual

/-- One call of the reader, by the structure of the value that was written. -/
theorem carries_value (hk : 0 < k) (hk' : 0 < k') {depth : ℕ} :
    (v : JSValue (JSBigInt k)) → v.Writable k' T.engine.sizes → v.depth ≤ depth →
      Carries T.format (jsWriteObjectRec v) (jsReadObjectRec k' depth) v.atoms
        (v.map T.atom (·.convert k') T.float64)
  | .primitive p, h, hdepth => by
    obtain ⟨depth, rfl⟩ := Nat.exists_eq_add_of_le' hdepth
    exact carries_primitive hk hk' h depth
  | .functionBytecode b cpool, h, hdepth => by
    obtain ⟨depth, rfl, hcpool⟩ := calls hdepth
    rw [jsWriteObjectRec, jsWriteFunctionTag_eq h.1, Encoder.bind_assoc]
    refine .bind (u := []) (carries_u8 _) ?_
    rw [ofByte_byte]
    exact .bind (carries_function h.1) ((carries_values hk hk' cpool h.2 hcpool).map _)
  | .module m reqModules funcObj, h, hdepth => by
    obtain ⟨depth, rfl, hinner⟩ := calls hdepth
    obtain ⟨hm, hlen, hreqs, hfunc⟩ := h
    have hreqs' := carries_entries hk hk' reqModules hreqs
      (Nat.le_trans (Nat.le_max_left ..) hinner)
    have hfunc' := carries_value hk hk' funcObj hfunc
      (Nat.le_trans (Nat.le_max_right ..) hinner)
    refine .bind (u := []) (carries_u8 _) ?_
    rw [ofByte_byte]
    exact .bind (u := [m.moduleName]) (carries_atom _) (.bind (u := []) (carries_count hlen)
      (.bind hreqs' (.bind (carries_moduleTables hm) (hfunc'.map _))))
  | .object props, h, hdepth => by
    obtain ⟨depth, rfl, hprops⟩ := calls hdepth
    refine .bind (u := []) (carries_u8 _) ?_
    rw [ofByte_byte]
    refine .bind (u := []) (carries_leb128 _) ?_
    rw [toNat_length h.1]
    exact (carries_entries hk hk' props h.2 hprops).map _
  | .array values, h, hdepth => by
    obtain ⟨depth, rfl, hvalues⟩ := calls hdepth
    refine .bind (u := []) (carries_u8 _) ?_
    rw [ofByte_byte]
    refine .bind (u := []) (carries_leb128 _) ?_
    rw [toNat_length h.1]
    exact (carries_values hk hk' values h.2 hvalues).map _
  | .template values raw, h, hdepth => by
    obtain ⟨depth, rfl, hinner⟩ := calls hdepth
    obtain ⟨hlen, hvalues, hraw⟩ := h
    refine .bind (u := []) (carries_u8 _) ?_
    rw [ofByte_byte]
    refine .bind (u := []) (carries_leb128 _) ?_
    rw [toNat_length hlen]
    exact .bind (carries_values hk hk' values hvalues (Nat.le_trans (Nat.le_max_left ..) hinner))
      ((carries_value hk hk' raw hraw (Nat.le_trans (Nat.le_max_right ..) hinner)).map _)

theorem carries_values (hk : 0 < k) (hk' : 0 < k') {depth : ℕ} :
    (values : JSValues (JSBigInt k)) → values.Writable k' T.engine.sizes → values.depth ≤ depth →
      Carries T.format (jsWriteValues values) (readValues (jsReadObjectRec k' depth) values.length)
        values.atoms (values.map T.atom (·.convert k') T.float64)
  | .nil, _, _ => .pure _
  | .cons v rest, h, hdepth =>
    .bind (carries_value hk hk' v h.1 (Nat.le_trans (Nat.le_max_left ..) hdepth))
      ((carries_values hk hk' rest h.2 (Nat.le_trans (Nat.le_max_right ..) hdepth)).map _)

theorem carries_entries (hk : 0 < k) (hk' : 0 < k') {depth : ℕ} :
    (entries : Entries (JSBigInt k)) → entries.Writable k' T.engine.sizes → entries.depth ≤ depth →
      Carries T.format (jsWriteEntries entries)
        (readEntries (jsReadObjectRec k' depth) entries.length) entries.atoms
        (entries.map T.atom (·.convert k') T.float64)
  | .nil, _, _ => .pure _
  | .cons atom v rest, h, hdepth =>
    .bind (u := [atom]) (carries_atom _)
      (.bind (carries_value hk hk' v h.1 (Nat.le_trans (Nat.le_max_left ..) hdepth))
        ((carries_entries hk hk' rest h.2 (Nat.le_trans (Nat.le_max_right ..) hdepth)).map _))

end

-- ---------------------------------------------------------------------------
-- The table in front
-- ---------------------------------------------------------------------------

/-- The atoms of the table of a file. -/
def JSValue.table (v : JSValue (JSBigInt k)) : List JSAtom := (jsWriteObjectRec v).dict []

theorem covers_start (bufLen : ℕ) :
    T.format.Covers ⟨bufLen, [], T.engine.sizes, T.engine.nanBoxing⟩ [] :=
  ⟨List.prefix_rfl, List.nodup_nil, by simp, rfl, rfl⟩

theorem carries_objectAtoms {table : List JSAtom} (hlen : table.length < 2 ^ 32) :
    Carries T.format (jsWriteObjectAtoms T.atomArray table)
      (jsReadObjectAtoms T.engine.newAtomStr) []
      (table.map fun atom => T.engine.newAtomStr (T.atomArray atom)) := by
  refine .bind (u := []) (carries_u8 _) ?_
  rw [if_neg (by decide)]
  refine .bind (u := []) (carries_leb128 _) ?_
  rw [toNat_length hlen]
  have hstrings : Carries T.format (table.forM fun atom => jsWriteString (T.atomArray atom))
      (jsReadString.times table.length) (table.flatMap fun _ => []) (table.map T.atomArray) :=
    .forM fun atom _ => carries_string (T.len_le atom)
  exact (hstrings.map _).of_eq (by simp) (List.map_map ..)

-- ---------------------------------------------------------------------------
-- The file
-- ---------------------------------------------------------------------------

/-- What is known of the table, once the value can be written. -/
structure Tabled (v : JSValue (JSBigInt k)) : Prop where
  order : v.table = (v.atoms.filter dynamic).eraseDups
  nodup : v.table.Nodup
  dynamic : ∀ atom ∈ v.table, dynamic atom = true

theorem tabled (h : Carries T.format (jsWriteObjectRec v) r v.atoms a) : Tabled v := by
  have htable : v.table = Codec.extend [] (v.atoms.filter dynamic) := h.notes []
  have horder : v.table = (v.atoms.filter dynamic).eraseDups := htable.trans (Codec.extend_empty _)
  refine ⟨horder, htable ▸ Codec.nodup_extend List.nodup_nil _, fun atom hatom => ?_⟩
  rw [horder, List.mem_eraseDups] at hatom
  exact (List.mem_filter.mp hatom).2

theorem Tabled.map_eq {v : JSValue (JSBigInt k)} (h : Tabled v) :
    v.table.map (fun atom => T.engine.newAtomStr (T.atomArray atom)) = v.table.map T.atom :=
  List.map_congr_left fun atom hatom => by rw [Transfer.atom, h.dynamic atom hatom]; rfl

theorem Tabled.covers {v : JSValue (JSBigInt k)} (h : Tabled v) (bufLen : ℕ) :
    T.format.Covers ⟨bufLen, v.table.map T.atom, T.engine.sizes, T.engine.nanBoxing⟩ ((jsWriteObjectRec v).dict []) :=
  ⟨List.prefix_rfl, h.nodup, h.dynamic, rfl, rfl⟩

theorem Tabled.length_lt {v : JSValue (JSBigInt k)} (h : Tabled v) : v.table.length < 2 ^ 32 := by
  have := length_le_of_dynamic h.nodup h.dynamic
  omega

theorem Tabled.atoms {v : JSValue (JSBigInt k)} (h : Tabled v) :
    Carries T.format (jsWriteObjectAtoms T.atomArray v.table)
      (jsReadObjectAtoms T.engine.newAtomStr) [] (v.table.map T.atom) :=
  h.map_eq (T := T) ▸ carries_objectAtoms h.length_lt

theorem Tabled.covers_atoms {v : JSValue (JSBigInt k)} (h : Tabled v) (bufLen : ℕ) :
    T.format.Covers ⟨bufLen, [], T.engine.sizes, T.engine.nanBoxing⟩
      ((jsWriteObjectAtoms T.atomArray v.table).dict []) := by
  rw [h.atoms.notes []]
  exact covers_start bufLen

/-- First the table, and then the value with it. -/
theorem read_bind (k' : ℕ) (engine : ReaderEngine) (buf : Bytes) :
    jsReadObject k' engine buf =
      ((jsReadObjectAtoms engine.newAtomStr).on ⟨buf.length, [], engine.sizes, engine.nanBoxing⟩ buf).bind fun x =>
        (jsReadObjectRec k' engine.stack).on ⟨buf.length, x.1, engine.sizes, engine.nanBoxing⟩ x.2 := rfl

/-- The whole of a file, and nothing that follows it. -/
theorem read_of_carries {v : JSValue (JSBigInt k)} {v' : JSValue (JSBigInt k')}
    (h : Carries T.format (jsWriteObjectRec v) (jsReadObjectRec k' T.engine.stack) v.atoms v')
    (rest : Bytes) :
    jsReadObject k' T.engine (jsWriteObject T.atomArray v ++ rest) = .ok (v', rest) := by
  have htabled := tabled h
  have hatoms := htabled.atoms.reads
    (htabled.covers_atoms (T := T) (jsWriteObject T.atomArray v ++ rest).length)
    ((jsWriteObjectRec v).out [] ++ rest)
  have hbody := h.reads (htabled.covers (jsWriteObject T.atomArray v ++ rest).length) rest
  rw [← List.append_assoc] at hatoms
  rw [read_bind]
  exact (congrArg (Except.bind · _) hatoms).trans hbody

/-- Where the file ends too early, the end is what the reader finds. -/
theorem cut_of_carries {v : JSValue (JSBigInt k)} {v' : JSValue (JSBigInt k')}
    (h : Carries T.format (jsWriteObjectRec v) (jsReadObjectRec k' T.engine.stack) v.atoms v')
    {part : Bytes} (hpart : part <+: jsWriteObject T.atomArray v)
    (hne : part ≠ jsWriteObject T.atomArray v) :
    jsReadObject k' T.engine part = .error .endOfBuffer := by
  have htabled := tabled h
  have hcovers := htabled.covers_atoms (T := T) part.length
  have hbody := htabled.covers (T := T) part.length
  rw [read_bind]
  by_cases hall : (jsWriteObjectAtoms T.atomArray v.table).out [] <+: part
  · obtain ⟨part', rfl⟩ := hall
    have hpart' := (List.prefix_append_right_inj _).mp hpart
    have hne' : part' ≠ (jsWriteObjectRec v).out [] := fun heq => hne (by rw [heq]; rfl)
    exact (congrArg (Except.bind · _) (htabled.atoms.reads hcovers part')).trans
      (h.cut hbody part' hpart' hne')
  · have hpart' : part <+: (jsWriteObjectAtoms T.atomArray v.table).out [] :=
      (List.prefix_or_prefix_of_prefix hpart (List.prefix_append ..)).resolve_right hall
    have hne' : part ≠ (jsWriteObjectAtoms T.atomArray v.table).out [] :=
      fun heq => hall (heq ▸ List.prefix_rfl)
    exact congrArg (Except.bind · _) (htabled.atoms.cut hcovers part hpart' hne')

-- ---------------------------------------------------------------------------
-- The same engine
-- ---------------------------------------------------------------------------

theorem FunctionBytecode.map_id {b : FunctionBytecode} (h : Instructions b.byteCode) :
    b.map id = b := by
  have hvardefs : b.vardefs.map (VarDef.map id) = b.vardefs := List.map_id _
  have hclosures : b.closureVar.map (ClosureVar.map id) = b.closureVar := List.map_id _
  have hdebug : b.debug.map (DebugInfo.map id) = b.debug := Option.map_id_apply
  rw [FunctionBytecode.map, hvardefs, hclosures, hdebug, mapCode_id h (Nat.le_refl _)]
  rfl

theorem ModuleDef.map_id (m : ModuleDef) : m.map id = m := by
  have hsource (source : ExportSource) : source.map id = source := by cases source <;> rfl
  have hexports : m.exports.map (ExportEntry.map id) = m.exports := by
    rw [List.map_congr_left (g := id) fun me _ => by rw [ExportEntry.map, hsource]; rfl, List.map_id]
  have himports : m.imports.map (ImportEntry.map id) = m.imports := List.map_id _
  rw [ModuleDef.map, hexports, himports]
  rfl

theorem Primitive.map_id (p : Primitive β) : p.map id id = p := by cases p <;> rfl

mutual

theorem JSValue.map_id {sizes : Sizes} : (v : JSValue (JSBigInt k)) → v.Writable k' sizes →
    v.map id id id = v
  | .primitive p, _ => by rw [JSValue.map, Primitive.map_id]
  | .functionBytecode b cpool, h => by
    rw [JSValue.map, FunctionBytecode.map_id h.1.code, JSValues.map_id cpool h.2]
  | .module m reqModules funcObj, h => by
    rw [JSValue.map, ModuleDef.map_id, Entries.map_id reqModules h.2.2.1,
      JSValue.map_id funcObj h.2.2.2]
  | .object props, h => by rw [JSValue.map, Entries.map_id props h.2]
  | .array values, h => by rw [JSValue.map, JSValues.map_id values h.2]
  | .template values raw, h => by
    rw [JSValue.map, JSValues.map_id values h.2.1, JSValue.map_id raw h.2.2]

theorem JSValues.map_id {sizes : Sizes} : (values : JSValues (JSBigInt k)) →
    values.Writable k' sizes → values.map id id id = values
  | .nil, _ => rfl
  | .cons v rest, h => by rw [JSValues.map, JSValue.map_id v h.1, JSValues.map_id rest h.2]

theorem Entries.map_id {sizes : Sizes} : (entries : Entries (JSBigInt k)) →
    entries.Writable k' sizes → entries.map id id id = entries
  | .nil, _ => rfl
  | .cons atom v rest, h => by
    rw [Entries.map, JSValue.map_id v h.1, Entries.map_id rest h.2]
    rfl

end

open Classical in
/-- The atom that the writer's own engine has for a string. -/
noncomputable def ownAtom (atomArray : JSAtom → JSString) (s : JSString) : JSAtom :=
  if h : ∃ atom, dynamic atom = true ∧ atomArray atom = s then h.choose else 0

noncomputable def ownTransfer (atomArray : JSAtom → JSString)
    (len_le : ∀ atom, (atomArray atom).len ≤ jsStringLenMax) (sizes : Sizes) (stack : ℕ) :
    Transfer where
  atomArray := atomArray
  engine := { newAtomStr := ownAtom atomArray, sizes, stack, nanBoxing := false }
  len_le := len_le

theorem ownTransfer_atom {atomArray : JSAtom → JSString}
    {len_le : ∀ atom, (atomArray atom).len ≤ jsStringLenMax} {sizes : Sizes} {stack : ℕ}
    (hinj : ∀ atom atom', dynamic atom = true → dynamic atom' = true →
      atomArray atom = atomArray atom' → atom = atom') :
    (ownTransfer atomArray len_le sizes stack).atom = id := by
  funext atom
  rw [Transfer.atom]
  split
  case isTrue hdyn =>
    have hex : ∃ atom', dynamic atom' = true ∧ atomArray atom' = atomArray atom := ⟨atom, hdyn, rfl⟩
    have hchoose := hex.choose_spec
    simp only [ownTransfer, ownAtom, dif_pos hex, id]
    exact hinj _ _ hchoose.1 hdyn hchoose.2
  case isFalse => rfl

theorem ownTransfer_float64 {atomArray : JSAtom → JSString}
    {len_le : ∀ atom, (atomArray atom).len ≤ jsStringLenMax} {sizes : Sizes} {stack : ℕ} :
    (ownTransfer atomArray len_le sizes stack).float64 = id :=
  rfl

-- ---------------------------------------------------------------------------
-- A module
-- ---------------------------------------------------------------------------

/-- Pushes an atom, which it leaves; its one constant is a BigInt of two limbs. -/
def smallFunction : FunctionBytecode where
  hasPrototype := false
  hasSimpleParameterList := false
  isDerivedClassConstructor := false
  needHomeObject := false
  funcKind := 2
  newTargetAllowed := false
  superCallAllowed := false
  superAllowed := false
  argumentsAllowed := false
  isDirectOrIndirectEval := false
  jsMode := 1
  funcName := 500
  argCount := 0
  varCount := 0
  definedArgCount := 0
  stackSize := 1
  varRefCount := 0
  vardefs := []
  closureVar := []
  byteCode := [4, 246, 1, 0, 0, 47]
  debug := none

def smallBigInt : JSBigInt 8 := ⟨[5], -3⟩

def smallModule : JSValue (JSBigInt 8) :=
  .module ⟨500, [], [], [], false⟩ (.cons 501 (.primitive .undefined) .nil)
    (.functionBytecode smallFunction (.cons (.primitive (.bigInt smallBigInt)) .nil))

/-- One letter for each of them. -/
def letters (atom : JSAtom) : JSString := .narrow [if atom = 500 then 98 else 109]

def smallSizes : Sizes where
  functionBytecode := 128
  debugOffset := 100
  value := 16
  varDef := 12
  closureVar := 8
  value_pos := by decide
  varDef_pos := by decide
  closureVar_pos := by decide

/-- Its atoms follow one another from 700 on. -/
def smallTransfer : Transfer where
  atomArray := letters
  engine :=
    { newAtomStr := fun s => if s = .narrow [98] then 700 else 701
      sizes := smallSizes
      stack := 8
      nanBoxing := false }
  len_le _ := show 1 ≤ jsStringLenMax by decide

theorem smallFunction_writable : smallFunction.Writable smallSizes 1 where
  code := @Instructions.cons 4 5 .atom [246, 1, 0, 0] [47] rfl rfl
    (@Instructions.cons 47 1 .none [] [] rfl rfl .nil)
  vardefs h := absurd rfl h
  room := by decide
  blocks _ h := by cases h

theorem smallModule_writable {k' : ℕ}
    (h : (smallBigInt.byteLength - 1) / k' + 1 ≤ jsBigIntMaxSize k') :
    smallModule.Writable k' smallSizes :=
  ⟨⟨by decide, by decide, by decide⟩, by decide, ⟨trivial, trivial⟩, smallFunction_writable, h,
    trivial⟩

-- ---------------------------------------------------------------------------
-- Main results
-- ---------------------------------------------------------------------------

/-- The value comes back, with the reader's atoms, and what follows the file is left. -/
theorem read_written (hk : 0 < k) {v : JSValue (JSBigInt k)} (h : v.Writable k T.engine.sizes)
    (hstack : v.depth ≤ T.engine.stack) (rest : Bytes) :
    jsReadObject k T.engine (jsWriteObject T.atomArray v ++ rest) =
      .ok (v.map T.atom id T.float64, rest) := by
  have hself : (fun p : JSBigInt k => p.convert k) = id := funext (convert_self hk)
  have hcarries := carries_value hk hk v h hstack
  rw [hself] at hcarries
  exact read_of_carries hcarries rest

theorem read_written_module :
    jsReadObject 8 smallTransfer.engine (jsWriteObject letters smallModule ++ [7]) =
      .ok (smallModule.map smallTransfer.atom id smallTransfer.float64, [7]) :=
  read_written (T := smallTransfer) (by decide) (smallModule_writable (by decide)) (by decide) [7]

/-- An engine with other limbs reads the same integers, in its own normal form. -/
theorem read_elsewhere (hk : 0 < k) (hk' : 0 < k') {v : JSValue (JSBigInt k)}
    (h : v.Writable k' T.engine.sizes) (hstack : v.depth ≤ T.engine.stack) (rest : Bytes) :
    ∃ g : JSBigInt k → JSBigInt k', (∀ p, (g p).toInt = p.toInt) ∧
      (∀ p, p.Normal → (g p).Normal) ∧
      jsReadObject k' T.engine (jsWriteObject T.atomArray v ++ rest) =
        .ok (v.map T.atom g T.float64, rest) :=
  ⟨JSBigInt.convert k', toInt_convert hk hk', fun _ => normal_convert hk hk',
    read_of_carries (carries_value hk hk' v h hstack) rest⟩

theorem read_elsewhere_module : ∃ g : JSBigInt 8 → JSBigInt 4, (∀ p, (g p).toInt = p.toInt) ∧
    (∀ p, p.Normal → (g p).Normal) ∧
    jsReadObject 4 smallTransfer.engine (jsWriteObject letters smallModule ++ []) =
      .ok (smallModule.map smallTransfer.atom g smallTransfer.float64, []) :=
  read_elsewhere (T := smallTransfer) (by decide) (by decide) (smallModule_writable (by decide))
    (by decide) []

/-- A file that is cut off anywhere is refused, and nothing outside of it is read. -/
theorem cut_refused (hk : 0 < k) (hk' : 0 < k') {v : JSValue (JSBigInt k)}
    (h : v.Writable k' T.engine.sizes) (hstack : v.depth ≤ T.engine.stack) {part : Bytes}
    (hpart : part <+: jsWriteObject T.atomArray v) (hne : part ≠ jsWriteObject T.atomArray v) :
    jsReadObject k' T.engine part = .error .endOfBuffer :=
  cut_of_carries (carries_value hk hk' v h hstack) hpart hne

theorem cut_refused_module :
    jsReadObject 8 smallTransfer.engine ((jsWriteObject letters smallModule).take 20) =
      .error .endOfBuffer :=
  cut_refused (T := smallTransfer) (by decide) (by decide) (smallModule_writable (by decide))
    (by decide) (List.take_prefix ..) (by decide)

/-- The table of a file has the atoms of the value that no other engine has from its start: each
once, in the order of their first use. -/
theorem atom_table (hk : 0 < k) {sizes : Sizes} {v : JSValue (JSBigInt k)}
    (h : v.Writable k sizes) : v.table = (v.atoms.filter dynamic).eraseDups ∧ v.table.Nodup ∧
      ∀ atom, atom ∈ v.table ↔ atom ∈ v.atoms ∧ dynamic atom = true := by
  have htabled := tabled (carries_value (T := ⟨fun _ => .narrow [], ⟨fun _ => 0, sizes, v.depth, false⟩,
    fun _ => Nat.zero_le _⟩) hk hk v h (Nat.le_refl _))
  refine ⟨htabled.order, htabled.nodup, fun atom => ?_⟩
  rw [htabled.order, List.mem_eraseDups, List.mem_filter]

theorem atom_table_module : smallModule.table = [500, 501, 502] := by
  have hwritable : smallModule.Writable 8 smallSizes := smallModule_writable (by decide)
  rw [(atom_table (by decide) hwritable).1]
  decide

/-- Different values have different files, and none is the beginning of another. -/
theorem files_apart (hk : 0 < k) {atomArray : JSAtom → JSString} {sizes : Sizes}
    (hlen : ∀ atom, (atomArray atom).len ≤ jsStringLenMax)
    (hinj : ∀ atom atom', dynamic atom = true → dynamic atom' = true →
      atomArray atom = atomArray atom' → atom = atom')
    {v v' : JSValue (JSBigInt k)} (h : v.Writable k sizes) (h' : v'.Writable k sizes)
    (rest rest' : Bytes) :
    jsWriteObject atomArray v ++ rest = jsWriteObject atomArray v' ++ rest' ↔
      v = v' ∧ rest = rest' := by
  have hself : (fun p : JSBigInt k => p.convert k) = id := funext (convert_self hk)
  have hread {u : JSValue (JSBigInt k)} (hu : u.Writable k sizes)
      (hdepth : u.depth ≤ max v.depth v'.depth) (more : Bytes) :
      jsReadObject k (ownTransfer atomArray hlen sizes (max v.depth v'.depth)).engine
        (jsWriteObject atomArray u ++ more) = .ok (u, more) := by
    have hcarries := carries_value (T := ownTransfer atomArray hlen sizes (max v.depth v'.depth))
      hk hk u hu hdepth
    rw [hself, ownTransfer_atom hinj, ownTransfer_float64, JSValue.map_id u hu] at hcarries
    exact read_of_carries hcarries more
  constructor
  · intro heq
    have hboth := hread h (Nat.le_max_left ..) rest
    rw [heq, hread h' (Nat.le_max_right ..) rest'] at hboth
    cases hboth
    exact ⟨rfl, rfl⟩
  · rintro ⟨rfl, rfl⟩
    rfl

/-- An atom's bytes as its string. -/
def spelled (atom : JSAtom) : JSString := .narrow (LittleEndian.bytes 4 atom.toNat)

/-- The two names of `smallModule` the other way round. -/
def crossedModule : JSValue (JSBigInt 8) :=
  .module ⟨501, [], [], [], false⟩ (.cons 500 (.primitive .undefined) .nil)
    (.functionBytecode smallFunction (.cons (.primitive (.bigInt smallBigInt)) .nil))

theorem files_apart_modules :
    jsWriteObject spelled smallModule ++ [7] ≠ jsWriteObject spelled crossedModule ++ [7] := by
  have hwritable : smallModule.Writable 8 smallSizes := smallModule_writable (by decide)
  have hcrossed : crossedModule.Writable 8 smallSizes :=
    ⟨⟨by decide, by decide, by decide⟩, by decide, ⟨trivial, trivial⟩, smallFunction_writable,
      show (smallBigInt.byteLength - 1) / 8 + 1 ≤ jsBigIntMaxSize 8 by decide, trivial⟩
  have hlen (atom : JSAtom) : (spelled atom).len ≤ jsStringLenMax :=
    show 4 ≤ jsStringLenMax by decide
  have hinj (atom atom' : JSAtom) (heq : spelled atom = spelled atom') : atom = atom' := by
    have hvalue := congrArg LittleEndian.value (JSString.narrow.inj heq)
    rw [LittleEndian.value_bytes_of_lt atom.isLt, LittleEndian.value_bytes_of_lt atom'.isLt]
      at hvalue
    exact BitVec.eq_of_toNat_eq hvalue
  intro hfiles
  obtain ⟨hvalues, -⟩ := (files_apart (by decide) hlen (fun atom atom' _ _ => hinj atom atom')
    hwritable hcrossed [7] [7]).mp hfiles
  have hnames : (500 : JSAtom) = 501 :=
    congrArg ModuleDef.moduleName (JSValue.module.inj hvalues).1
  exact absurd hnames (by decide)

end QuickJsKmp.ObjectFormat
