import Mathlib.Data.List.Nodup
import Mathlib.Data.List.Perm.Subperm
import QuickJsKmp.ObjectFormat

/-!
# The parts of an object file

What the writer makes of a number, an atom, a string or a table is what the reader makes the same
of, in its own atoms. Each law is one of `Carries`, and those of larger parts are put together
from those of smaller ones.
-/

namespace QuickJsKmp.ObjectFormat

open Codec (Encoder Decoder Carries)

-- ---------------------------------------------------------------------------
-- From one engine to another
-- ---------------------------------------------------------------------------

/-- The atoms that are noted in the table of a file. -/
def dynamic (atom : JSAtom) : Bool := ¬(atom.toNat < jsAtomEnd ∨ isTaggedInt atom)

/-- The strings of the writer's atoms, and the reader. -/
structure Transfer where
  atomArray : JSAtom → JSString
  engine : ReaderEngine
  len_le : ∀ atom, (atomArray atom).len ≤ jsStringLenMax

/-- The reader's atom for an atom of the writer. -/
def Transfer.atom (T : Transfer) (atom : JSAtom) : JSAtom :=
  if dynamic atom then T.engine.newAtomStr (T.atomArray atom) else atom

/-- The reader's number for a number of the writer. -/
def Transfer.float64 (T : Transfer) : BitVec 64 → BitVec 64 := newFloat64 T.engine.nanBoxing

/-- The reader has the table of these atoms, or of more. -/
def Transfer.format (T : Transfer) : Codec.Format JSAtom BCReaderState ReadError where
  noted := dynamic
  Covers s d := d.map T.atom <+: s.idxToAtom ∧ d.Nodup ∧ (∀ atom ∈ d, dynamic atom) ∧
    s.sizes = T.engine.sizes ∧ s.nanBoxing = T.engine.nanBoxing
  mono h hd := ⟨(hd.map T.atom).trans h.1, h.2.1.sublist hd.sublist,
    fun atom hatom => h.2.2.1 atom (hd.subset hatom), h.2.2.2⟩
  endOfInput := .endOfBuffer

variable {T : Transfer}

-- ---------------------------------------------------------------------------
-- Bytes
-- ---------------------------------------------------------------------------

theorem on_getBuf (n : ℕ) (s : BCReaderState) (input : Bytes) :
    (bcGetBuf n).on s input =
      if input.length < n then .error .endOfBuffer else .ok (input.take n, input.drop n) := by
  change (if input.length < n then _ else _ : BCReader Bytes).on s input = _
  split <;> rfl

theorem on_getBuf_append {bytes : Bytes} {n : ℕ} (hn : bytes.length = n) (s : BCReaderState)
    (rest : Bytes) : (bcGetBuf n).on s (bytes ++ rest) = .ok (bytes, rest) := by
  rw [on_getBuf, if_neg (by simp [← hn]), List.take_left' hn, List.drop_left' hn]

theorem on_getBuf_cut {bytes part : Bytes} {n : ℕ} (hn : bytes.length = n) (s : BCReaderState)
    (hpart : part <+: bytes) (hne : part ≠ bytes) :
    (bcGetBuf n).on s part = .error .endOfBuffer := by
  have hlen : part.length < bytes.length :=
    Nat.lt_of_le_of_ne hpart.length_le fun hlen => hne (hpart.eq_of_length hlen)
  rw [on_getBuf, if_pos (hn ▸ hlen)]

theorem carries_buf {bytes : Bytes} {n : ℕ} (hn : bytes.length = n) :
    Carries T.format (Encoder.put bytes) (bcGetBuf n) [] bytes :=
  .put (on_getBuf_append hn) fun s _ => on_getBuf_cut hn s

theorem carries_u8 (v : UInt8) : Carries T.format (bcPutU8 v) bcGetU8 [] v := by
  refine .put (fun _ _ => rfl) fun s part hpart hne => ?_
  cases part with
  | nil => rfl
  | cons a part =>
    obtain ⟨rfl, htail⟩ := List.cons_prefix_cons.mp hpart
    rw [List.prefix_nil.mp htail] at hne
    exact absurd rfl hne

theorem ofNat_value_bytes {n : ℕ} (v : BitVec (8 * n)) :
    BitVec.ofNat (8 * n) (LittleEndian.value (LittleEndian.bytes n v.toNat)) = v := by
  have hlt : v.toNat < 256 ^ n := by
    have := v.isLt
    rwa [Nat.pow_mul] at this
  rw [LittleEndian.value_bytes_of_lt hlt, BitVec.ofNat_toNat, BitVec.setWidth_eq]

/-- A number of `n` bytes. -/
theorem carries_word {n : ℕ} (v : BitVec (8 * n)) :
    Carries T.format (Encoder.put (LittleEndian.bytes n v.toNat))
      (do return BitVec.ofNat (8 * n) (LittleEndian.value (← bcGetBuf n))) [] v :=
  ((carries_buf (LittleEndian.length_bytes ..)).map _).of_eq rfl (ofNat_value_bytes v)

theorem carries_u16 (v : BitVec 16) : Carries T.format (bcPutU16 v) bcGetU16 [] v :=
  carries_word (n := 2) v

theorem carries_u64 (v : BitVec 64) : Carries T.format (bcPutU64 v) bcGetU64 [] v :=
  carries_word (n := 8) v

-- ---------------------------------------------------------------------------
-- Numbers of variable length
-- ---------------------------------------------------------------------------

theorem getElem_mask : ∀ i : Fin 32, (0x7f : BitVec 32)[i.val] = decide (i.val < 7) := by decide

/-- The seven bits of a round, and what is left for the others. -/
theorem mask_or_shift (v : BitVec 32) (s : ℕ) :
    (v &&& 0x7f) <<< s ||| (v >>> 7) <<< (s + 7) = v <<< s := by
  ext i hi
  have hmask := getElem_mask ⟨i - s, by omega⟩
  simp only [BitVec.getElem_or, BitVec.getElem_shiftLeft, BitVec.getElem_and,
    BitVec.getElem_ushiftRight]
  grind

theorem toNat_mask_lt (v : BitVec 32) : (v &&& 0x7f).toNat < 128 := by
  rw [BitVec.toNat_and]
  exact Nat.lt_of_le_of_lt Nat.and_le_right (by decide)

theorem continued_byte : ∀ a < 128, (UInt8.ofNat (a ||| 0x80) &&& 0x7f).toNat = a ∧
    UInt8.ofNat (a ||| 0x80) &&& 0x80 ≠ 0 := by
  decide

theorem last_byte : ∀ a < 128,
    (UInt8.ofNat a &&& 0x7f).toNat = a ∧ UInt8.ofNat a &&& 0x80 = 0 := by
  decide

theorem toNat_or_flag (v : BitVec 32) : (v &&& 0x7f ||| 0x80).toNat = (v &&& 0x7f).toNat ||| 0x80 :=
  rfl

theorem getLeb128_leb128 {n : ℕ} {v : BitVec 32} (hv : v.toNat < 2 ^ (7 * n)) (hn : 0 < n)
    (i : ℕ) (acc : BitVec 32) (rest : Bytes) :
    getLeb128 n i acc (leb128 n v ++ rest) = some (acc ||| v <<< (7 * i), rest) := by
  induction n generalizing v i acc with
  | zero => omega
  | succ n ih =>
    have hsplit := mask_or_shift v (7 * i)
    obtain ⟨hbits, hmore⟩ := continued_byte _ (toNat_mask_lt v)
    obtain ⟨hbits', hlast⟩ := last_byte _ (toNat_mask_lt v)
    rw [leb128]
    split
    case isTrue hne =>
      have hlt : (v >>> 7).toNat < 2 ^ (7 * n) := by
        rw [show 7 * (n + 1) = 7 * n + 7 from rfl, Nat.pow_add] at hv
        rw [BitVec.toNat_ushiftRight, Nat.shiftRight_eq_div_pow]
        omega
      have hpos : 0 < n := by
        rcases Nat.eq_zero_or_pos n with rfl | hpos
        · exact absurd (BitVec.eq_of_toNat_eq (by simpa using hlt)) hne
        · exact hpos
      rw [List.cons_append, getLeb128, toNat_or_flag]
      rw [if_neg hmore, ih hlt hpos, hbits, BitVec.ofNat_toNat, BitVec.setWidth_eq,
        BitVec.or_assoc, show 7 * (i + 1) = 7 * i + 7 from rfl, hsplit]
    case isFalse hz =>
      have hz : v >>> 7 = 0 := Decidable.not_not.mp hz
      rw [hz, show (0 : BitVec 32) <<< (7 * i + 7) = 0#32 from BitVec.zero_shiftLeft ..,
        BitVec.or_zero] at hsplit
      rw [List.cons_append, getLeb128]
      rw [if_pos hlast, hbits', BitVec.ofNat_toNat, BitVec.setWidth_eq, List.nil_append, hsplit]

/-- Every byte but the last one says that another follows. -/
theorem getLeb128_cut {n : ℕ} {v : BitVec 32} {part : Bytes} (hpart : part <+: leb128 n v)
    (hne : part ≠ leb128 n v) (i : ℕ) (acc : BitVec 32) : getLeb128 n i acc part = none := by
  induction n generalizing v part i acc with
  | zero => rfl
  | succ n ih =>
    cases part with
    | nil => rfl
    | cons a part =>
      rw [leb128] at hpart hne
      split at hpart
      case isTrue hmore =>
        obtain ⟨rfl, htail⟩ := List.cons_prefix_cons.mp hpart
        rw [if_pos hmore] at hne
        rw [getLeb128, toNat_or_flag]
        rw [if_neg (continued_byte _ (toNat_mask_lt v)).2]
        exact ih htail (fun h => hne (by rw [h])) _ _
      case isFalse hlast =>
        obtain ⟨rfl, htail⟩ := List.cons_prefix_cons.mp hpart
        rw [List.prefix_nil.mp htail, if_neg hlast] at hne
        exact absurd rfl hne

theorem on_getLeb128 (s : BCReaderState) (input : Bytes) :
    bcGetLeb128.on s input = (getLeb128 5 0 0 input).elim (.error .endOfBuffer) .ok := by
  rw [bcGetLeb128, Decoder.on_get]
  cases getLeb128 5 0 0 input <;> rfl

theorem on_getLeb128_leb128 (s : BCReaderState) (v : BitVec 32) (rest : Bytes) :
    bcGetLeb128.on s (leb128 5 v ++ rest) = .ok (v, rest) := by
  have hv : v.toNat < 2 ^ (7 * 5) := Nat.lt_trans v.isLt (by decide)
  rw [on_getLeb128, getLeb128_leb128 hv (by decide)]
  simp

theorem on_getLeb128_cut (s : BCReaderState) {v : BitVec 32} {part : Bytes}
    (hpart : part <+: leb128 5 v) (hne : part ≠ leb128 5 v) :
    bcGetLeb128.on s part = .error .endOfBuffer := by
  rw [on_getLeb128, getLeb128_cut hpart hne]
  rfl

theorem carries_leb128 (v : BitVec 32) : Carries T.format (bcPutLeb128 v) bcGetLeb128 [] v :=
  .put (fun s => on_getLeb128_leb128 s v) fun s _ => on_getLeb128_cut s

theorem toNat_zigzag (v : BitVec 32) : ((2 * v) ^^^ -(v >>> 31)).toNat =
    if v.toNat < 2 ^ 31 then 2 * v.toNat else 2 ^ 33 - 1 - 2 * v.toNat := by
  have hsign : v >>> 31 = if v.toNat < 2 ^ 31 then 0 else 1 := by
    apply BitVec.eq_of_toNat_eq
    have := v.isLt
    rw [BitVec.toNat_ushiftRight, Nat.shiftRight_eq_div_pow]
    split
    · simp
      omega
    · simp
      omega
  rw [hsign]
  split
  · simp
    omega
  · have : -(1 : BitVec 32) = BitVec.allOnes 32 := by decide
    rw [this, BitVec.xor_allOnes, BitVec.toNat_not, BitVec.toNat_mul]
    have := v.isLt
    simp
    omega

theorem unzigzag_zigzag (v : BitVec 32) :
    ((2 * v) ^^^ -(v >>> 31)) >>> 1 ^^^ -(((2 * v) ^^^ -(v >>> 31)) &&& 1) = v := by
  have hz := toNat_zigzag v
  have hlt := v.isLt
  generalize (2 * v) ^^^ -(v >>> 31) = z at hz
  have hbit : z &&& 1 = if v.toNat < 2 ^ 31 then 0 else 1 := by
    apply BitVec.eq_of_toNat_eq
    rw [BitVec.toNat_and, hz]
    simp only [BitVec.reduceToNat, Nat.and_one_is_mod]
    split
    · simp
    · simp
      omega
  apply BitVec.eq_of_toNat_eq
  rw [hbit]
  split at hz
  case isTrue h =>
    rw [if_pos h]
    simp [hz, Nat.shiftRight_eq_div_pow]
  case isFalse h =>
    have : -(1 : BitVec 32) = BitVec.allOnes 32 := by decide
    rw [if_neg h, this, BitVec.xor_allOnes, BitVec.toNat_not, BitVec.toNat_ushiftRight,
      Nat.shiftRight_eq_div_pow, hz]
    omega

theorem carries_sleb128 (v : BitVec 32) : Carries T.format (bcPutSleb128 v) bcGetSleb128 [] v :=
  ((carries_leb128 _).map _).of_eq rfl (unzigzag_zigzag v)

theorem carries_leb128_u16 (v : BitVec 16) :
    Carries T.format (bcPutLeb128 (v.setWidth 32)) bcGetLeb128U16 [] v :=
  ((carries_leb128 _).map _).of_eq rfl (by simp)

-- ---------------------------------------------------------------------------
-- Flags
-- ---------------------------------------------------------------------------

section Flags

variable {fields : List (ℕ × ℕ)}

theorem bcSetFlags_eq (h : BitFields.Fits fields) : bcSetFlags fields = BitFields.pack fields := by
  rw [bcSetFlags, BitFields.foldl_or h, Nat.zero_or, Nat.shiftLeft_zero]

theorem getFlags_setFlags (h : BitFields.Fits fields) (i idx : ℕ) {v n : ℕ}
    (hi : fields[i]? = some (v, n)) (hidx : BitFields.width (fields.take i) = idx) :
    bcGetFlags (bcSetFlags fields) idx n = v := by
  rw [bcSetFlags_eq h, ← hidx]
  exact BitFields.field_of_pack h hi

theorem getFlag_setFlags (h : BitFields.Fits fields) (i idx : ℕ) {b : Bool}
    (hi : fields[i]? = some (b.toNat, 1)) (hidx : BitFields.width (fields.take i) = idx) :
    bcGetFlag (bcSetFlags fields) idx = b := by
  rw [bcGetFlag, getFlags_setFlags h i idx hi hidx]
  cases b <;> rfl

theorem toNat_flags_u8 (h : BitFields.Fits fields) (hwidth : BitFields.width fields ≤ 8) :
    (bcSetFlags fields).toUInt8.toNat = bcSetFlags fields := by
  have hlt := BitFields.pack_lt h
  have hpow : 2 ^ BitFields.width fields ≤ 2 ^ 8 := Nat.pow_le_pow_right (by decide) hwidth
  rw [bcSetFlags_eq h]
  simp
  omega

theorem toNat_flags_u16 (h : BitFields.Fits fields) (hwidth : BitFields.width fields ≤ 16) :
    (BitVec.ofNat 16 (bcSetFlags fields)).toNat = bcSetFlags fields := by
  have hlt := BitFields.pack_lt h
  have hpow : 2 ^ BitFields.width fields ≤ 2 ^ 16 := Nat.pow_le_pow_right (by decide) hwidth
  rw [bcSetFlags_eq h]
  simp
  omega

end Flags

-- ---------------------------------------------------------------------------
-- Atoms
-- ---------------------------------------------------------------------------

theorem isTaggedInt_iff (atom : JSAtom) : isTaggedInt atom = true ↔ 2 ^ 31 ≤ atom.toNat := by
  rw [isTaggedInt, BitVec.msb_eq_decide, decide_eq_true_iff]

theorem dynamic_iff (atom : JSAtom) :
    dynamic atom = true ↔ jsAtomEnd ≤ atom.toNat ∧ atom.toNat < 2 ^ 31 := by
  rw [dynamic, decide_eq_true_iff, isTaggedInt_iff]
  omega

/-- There are no more atoms than a file can number. -/
theorem length_le_of_dynamic {d : List JSAtom} (hnodup : d.Nodup)
    (hd : ∀ atom ∈ d, dynamic atom = true) : d.length ≤ 2 ^ 31 - jsAtomEnd := by
  have hsub : d.map BitVec.toNat ⊆ List.range' jsAtomEnd (2 ^ 31 - jsAtomEnd) := by
    intro i hi
    obtain ⟨atom, hatom, rfl⟩ := List.mem_map.mp hi
    have hrange := (dynamic_iff atom).mp (hd atom hatom)
    rw [List.mem_range'_1]
    omega
  have hinj : Function.Injective (BitVec.toNat : JSAtom → ℕ) := fun _ _ => BitVec.eq_of_toNat_eq
  have hle := ((hnodup.map hinj).subperm hsub).length_le
  rwa [List.length_map, List.length_range'] at hle

theorem atomToIdx_static {atom : JSAtom} (h : dynamic atom = false) (d : List JSAtom) :
    bcAtomToIdx atom d = (atom, [], d) := by
  rw [bcAtomToIdx, if_pos (by simpa only [dynamic, decide_eq_false_iff_not, not_not] using h)]

/-- The number of an atom is its place in the table, behind those of the engine. -/
theorem atomToIdx_dynamic {atom : JSAtom} (h : dynamic atom = true) (d : List JSAtom) :
    ∃ i, (Codec.extend d [atom])[i]? = some atom ∧
      bcAtomToIdx atom d = (BitVec.ofNat 32 (jsAtomEnd + i), [], Codec.extend d [atom]) := by
  rw [bcAtomToIdx, if_neg (of_decide_eq_true h), Codec.extend, Codec.extend_nil]
  by_cases hmem : atom ∈ d
  · obtain ⟨i, hi⟩ := Option.isSome_iff_exists.mp (List.isSome_idxOf?.mpr hmem)
    obtain ⟨hlt, hget, _⟩ := List.idxOf?_eq_some_iff.mp hi
    rw [if_pos hmem, hi]
    exact ⟨i, List.getElem?_eq_some_iff.mpr ⟨hlt, hget⟩, rfl⟩
  · rw [if_neg hmem, List.idxOf?_eq_none_iff.mpr hmem]
    exact ⟨d.length, by simp, rfl⟩

theorem out_atomToIdx (atom : JSAtom) (d : List JSAtom) : (bcAtomToIdx atom).out d = [] := by
  cases h : dynamic atom with
  | false => rw [Encoder.out, atomToIdx_static h]
  | true =>
    obtain ⟨i, _, hi⟩ := atomToIdx_dynamic h d
    rw [Encoder.out, hi]

theorem dict_atomToIdx (atom : JSAtom) (d : List JSAtom) :
    (bcAtomToIdx atom).dict d = Codec.extend d ([atom].filter dynamic) := by
  cases h : dynamic atom with
  | false => rw [Encoder.dict, atomToIdx_static h, List.filter_cons_of_neg (by simp [h])]; rfl
  | true =>
    obtain ⟨i, _, hi⟩ := atomToIdx_dynamic h d
    rw [Encoder.dict, hi, List.filter_cons_of_pos h]
    rfl

/-- What stands for an atom in a file is small, and gives the atom back. -/
theorem idxToAtom_atomToIdx {atom : JSAtom} {d : List JSAtom} {s : BCReaderState}
    (h : T.format.Covers s ((bcAtomToIdx atom).dict d)) :
    (isTaggedInt atom = false → ((bcAtomToIdx atom).val d).toNat < 2 ^ 31) ∧
      ∀ input, (bcIdxToAtom ((bcAtomToIdx atom).val d)).on s input = .ok (T.atom atom, input) := by
  cases hdyn : dynamic atom with
  | false =>
    have hstatic : atom.toNat < jsAtomEnd ∨ isTaggedInt atom = true := by
      simpa only [dynamic, decide_eq_false_iff_not, not_not] using hdyn
    rw [Encoder.val, atomToIdx_static hdyn, Transfer.atom, hdyn]
    refine ⟨fun hint => ?_, fun input => ?_⟩
    · rcases hstatic with hsmall | hint'
      · exact Nat.lt_trans hsmall (by decide)
      · exact absurd hint' (by simp [hint])
    · rw [bcIdxToAtom, if_pos hstatic.symm]
      rfl
  | true =>
    obtain ⟨i, hget, hi⟩ := atomToIdx_dynamic hdyn d
    rw [Encoder.dict, hi] at h
    obtain ⟨htable, hnodup, hlisted, _⟩ : T.format.Covers s (Codec.extend d [atom]) := h
    have hlt : i < (Codec.extend d [atom]).length := (List.getElem?_eq_some_iff.mp hget).1
    have hle := length_le_of_dynamic hnodup hlisted
    have hend : jsAtomEnd < 2 ^ 31 := by decide
    have hidx : (BitVec.ofNat 32 (jsAtomEnd + i)).toNat = jsAtomEnd + i := by
      rw [BitVec.toNat_ofNat, Nat.mod_eq_of_lt (by omega)]
    have hentry : s.idxToAtom[i]? = some (T.atom atom) := by
      obtain ⟨more, hmore⟩ := htable
      rw [← hmore, List.getElem?_append_left (by simpa using hlt), List.getElem?_map, hget]
      rfl
    have hindex : ¬(isTaggedInt (BitVec.ofNat 32 (jsAtomEnd + i)) = true ∨
        (BitVec.ofNat 32 (jsAtomEnd + i)).toNat < jsAtomEnd) := by
      rw [isTaggedInt_iff, hidx]
      omega
    rw [Encoder.val, hi]
    refine ⟨fun _ => by rw [hidx]; omega, fun input => ?_⟩
    rw [bcIdxToAtom, if_neg hindex, Decoder.on_read, hidx, Nat.add_sub_cancel_left, hentry]
    rfl

theorem toNat_tagged {atom : JSAtom} (h : isTaggedInt atom = true) :
    (((atom &&& 0x7fffffff) <<< 1) ||| 1).toNat = 2 * (atom.toNat - 2 ^ 31) + 1 := by
  have hge := (isTaggedInt_iff atom).mp h
  have hlt := atom.isLt
  have hmask : (atom &&& 0x7fffffff).toNat = atom.toNat - 2 ^ 31 := by
    have hmod : (atom &&& 0x7fffffff).toNat = atom.toNat % 2 ^ 31 := by
      rw [BitVec.toNat_and]
      exact Nat.and_two_pow_sub_one_eq_mod atom.toNat 31
    omega
  have hor := Nat.two_pow_add_eq_or_of_lt (show 1 < 2 ^ 1 by decide) (atom.toNat - 2 ^ 31)
  rw [Nat.pow_one] at hor
  rw [hor, BitVec.toNat_or, BitVec.toNat_shiftLeft, hmask, Nat.shiftLeft_eq,
    Nat.mod_eq_of_lt (by omega), Nat.pow_one, Nat.mul_comm]
  rfl

/-- An integer is told by the lowest bit, and kept in the others. -/
theorem untagged_tagged {atom v : BitVec 32} (h : isTaggedInt atom = true)
    (hv : v.toNat = 2 * (atom.toNat - 2 ^ 31) + 1) :
    v &&& 1 = 1 ∧ (v >>> 1) ||| 0x80000000 = atom := by
  have hge := (isTaggedInt_iff atom).mp h
  have hlt := atom.isLt
  have hor := Nat.two_pow_add_eq_or_of_lt (show atom.toNat - 2 ^ 31 < 2 ^ 31 by omega) 1
  constructor
  · apply BitVec.eq_of_toNat_eq
    rw [BitVec.toNat_and, hv]
    simp only [BitVec.reduceToNat, Nat.and_one_is_mod]
    omega
  · apply BitVec.eq_of_toNat_eq
    have hhalf : (2 * (atom.toNat - 2 ^ 31) + 1) / 2 ^ 1 = atom.toNat - 2 ^ 31 := by omega
    rw [BitVec.toNat_or, BitVec.toNat_ushiftRight, Nat.shiftRight_eq_div_pow, hv, hhalf,
      Nat.or_comm]
    exact hor.symm.trans (by omega)

theorem unshifted {v : BitVec 32} (h : v.toNat < 2 ^ 31) :
    v <<< 1 &&& 1 = 0 ∧ (v <<< 1) >>> 1 = v := by
  have htwice : (v <<< 1).toNat = 2 * v.toNat := by
    rw [BitVec.toNat_shiftLeft, Nat.shiftLeft_eq]
    omega
  constructor
  · apply BitVec.eq_of_toNat_eq
    rw [BitVec.toNat_and, htwice]
    simp
  · apply BitVec.eq_of_toNat_eq
    rw [BitVec.toNat_ushiftRight, Nat.shiftRight_eq_div_pow, htwice]
    omega

theorem carries_atom (atom : JSAtom) :
    Carries T.format (bcPutAtom atom) bcGetAtom [atom] (T.atom atom) := by
  cases hint : isTaggedInt atom with
  | true =>
    have hstatic : dynamic atom = false := by simp [dynamic, hint]
    obtain ⟨hbit, hback⟩ := untagged_tagged hint (toNat_tagged hint)
    have hatom : T.atom atom = atom := by rw [Transfer.atom, hstatic]; rfl
    rw [bcPutAtom, if_pos hint, hatom, bcGetAtom]
    refine .of_filter (.andThen (carries_leb128 _) fun _ input => ?_) (u := []) ?_
    · rw [if_pos hbit, hback]
      rfl
    · simp [Transfer.format, hstatic]
  | false =>
    rw [bcPutAtom, if_neg (by simp [hint])]
    refine .putOf (out_atomToIdx atom) (dict_atomToIdx atom) ?_ ?_
    · intro s d hcovers rest
      obtain ⟨hsmall, hback⟩ := idxToAtom_atomToIdx hcovers
      obtain ⟨hbit, hidx⟩ := unshifted (hsmall hint)
      rw [bcGetAtom, Decoder.on_bind_ok (on_getLeb128_leb128 ..), hbit, hidx]
      exact hback rest
    · intro s d hcovers part hpart hne
      exact Decoder.on_bind_error (on_getLeb128_cut s hpart hne)

-- ---------------------------------------------------------------------------
-- Strings
-- ---------------------------------------------------------------------------

theorem utf16Units_bytes (units : List UInt16) :
    utf16Units (units.flatMap fun u => LittleEndian.bytes 2 u.toNat) = units := by
  induction units with
  | nil => rfl
  | cons u units ih =>
    have hu : (u.toNat.toUInt8.toNat + 256 * (u.toNat / 256).toUInt8.toNat).toUInt16 = u := by
      apply UInt16.toNat_inj.mp
      have := u.toNat_lt
      simp
      omega
    change _ :: utf16Units (units.flatMap _) = _
    rw [ih, hu]

theorem length_flatMap_bytes (n : ℕ) (f : α → ℕ) (l : List α) :
    (l.flatMap fun a => LittleEndian.bytes n (f a)).length = n * l.length := by
  induction l with
  | nil => rfl
  | cons a l ih =>
    rw [List.flatMap_cons, List.length_append, ih, LittleEndian.length_bytes, List.length_cons,
      Nat.mul_succ, Nat.add_comm]

theorem length_field {n : ℕ} (hn : n ≤ jsStringLenMax) :
    (BitVec.ofNat 32 (n <<< 1) &&& 1 = 0 ∧ (BitVec.ofNat 32 (n <<< 1) >>> 1).toNat = n) ∧
      BitVec.ofNat 32 (n <<< 1 ||| 1) &&& 1 = 1 ∧
        (BitVec.ofNat 32 (n <<< 1 ||| 1) >>> 1).toNat = n := by
  have hmax : jsStringLenMax < 2 ^ 30 := by decide
  have hor := Nat.two_pow_add_eq_or_of_lt (show 1 < 2 ^ 1 by decide) n
  rw [Nat.pow_one] at hor
  rw [Nat.shiftLeft_eq, Nat.pow_one, Nat.mul_comm, ← hor]
  refine ⟨⟨?_, ?_⟩, ?_, ?_⟩
  · apply BitVec.eq_of_toNat_eq
    simp
  · simp [Nat.shiftRight_eq_div_pow]
    omega
  · apply BitVec.eq_of_toNat_eq
    simp
  · simp [Nat.shiftRight_eq_div_pow]
    omega

theorem carries_string {s : JSString} (hlen : s.len ≤ jsStringLenMax) :
    Carries T.format (jsWriteString s) jsReadString [] s := by
  obtain ⟨⟨hnarrow, hn⟩, hwide, hw⟩ := length_field hlen
  cases s with
  | narrow chars =>
    refine .bind (carries_leb128 _) (v := []) ?_
    dsimp only [JSString.len] at hnarrow hn hlen
    rw [hnarrow, hn, if_neg (Nat.not_lt.mpr hlen), if_neg (by decide)]
    exact (carries_buf rfl).map _
  | wide units =>
    refine .bind (carries_leb128 _) (v := []) ?_
    dsimp only [JSString.len] at hwide hw hlen
    rw [hwide, hw, if_neg (Nat.not_lt.mpr hlen), if_pos rfl]
    exact ((carries_buf (length_flatMap_bytes ..)).map _).of_eq rfl
      (congrArg _ (utf16Units_bytes units))

-- ---------------------------------------------------------------------------
-- Byte code
-- ---------------------------------------------------------------------------

/-- A row of whole instructions. -/
inductive Instructions : Bytes → Prop
  | nil : Instructions []
  | cons {op : UInt8} {size : ℕ} {fmt : OpFmt} {operands rest : Bytes}
    (hinfo : shortOpcodeInfo op = some (size, fmt)) (hsize : operands.length + 1 = size)
    (hrest : Instructions rest) : Instructions (op :: (operands ++ rest))

def operandAtom (operands : Bytes) : JSAtom :=
  BitVec.ofNat 32 (LittleEndian.value (operands.take 4))

/-- The atoms of at most `n` instructions. -/
def codeAtoms : ℕ → Bytes → List JSAtom
  | 0, _ => []
  | _ + 1, [] => []
  | n + 1, op :: code =>
    match shortOpcodeInfo op with
    | none => []
    | some (size, fmt) =>
      (if fmt.hasAtom then [operandAtom code] else []) ++ codeAtoms n (code.drop (size - 1))

/-- The byte code with other atoms. -/
def mapCode (f : JSAtom → JSAtom) (n : ℕ) (code : Bytes) : Bytes :=
  Id.run (relocate (pure []) (fun atom => pure (f atom)) n code)

/-- An instruction with an atom has room for it. -/
theorem opcodeInfo_size : ∀ info ∈ opcodeInfo, info.2.hasAtom = true → 5 ≤ info.1 := by
  decide +kernel

section Relocate

variable {op : UInt8} {size n : ℕ} {fmt : OpFmt} {operands rest : Bytes}

theorem four_le_length (hinfo : shortOpcodeInfo op = some (size, fmt))
    (hsize : operands.length + 1 = size) (hatom : fmt.hasAtom = true) : 4 ≤ operands.length := by
  have := opcodeInfo_size _ (List.mem_of_getElem? hinfo) hatom
  omega

variable {m : Type → Type} [Monad m] {outside : m Bytes} {f : JSAtom → m JSAtom}

theorem relocate_atom (hinfo : shortOpcodeInfo op = some (size, fmt))
    (hsize : operands.length + 1 = size) (hatom : fmt.hasAtom = true) :
    relocate outside f (n + 1) (op :: (operands ++ rest)) = (do
      let atom ← f (operandAtom operands)
      let rest ← relocate outside f n rest
      return op :: (LittleEndian.bytes 4 atom.toNat ++ operands.drop 4 ++ rest)) := by
  have hfour := four_le_length hinfo hsize hatom
  have hlen : size - 1 = operands.length := by omega
  rw [relocate, hinfo]
  dsimp only
  rw [if_pos hatom, if_neg (by simp; omega), hlen, List.drop_left, List.take_left,
    List.take_append_of_le_length hfour]
  rfl

theorem relocate_other (hinfo : shortOpcodeInfo op = some (size, fmt))
    (hsize : operands.length + 1 = size) (hatom : fmt.hasAtom = false) :
    relocate outside f (n + 1) (op :: (operands ++ rest)) = (do
      let rest ← relocate outside f n rest
      return op :: (operands ++ rest)) := by
  have hlen : size - 1 = operands.length := by omega
  rw [relocate, hinfo]
  dsimp only
  rw [if_neg (by simp [hatom]), hlen, List.drop_left, List.take_left]
  rfl

theorem relocate_nil : relocate outside f n [] = pure [] := by cases n <;> rfl

theorem codeAtoms_cons (hinfo : shortOpcodeInfo op = some (size, fmt))
    (hsize : operands.length + 1 = size) : codeAtoms (n + 1) (op :: (operands ++ rest)) =
      (if fmt.hasAtom then [operandAtom operands] else []) ++ codeAtoms n rest := by
  have hlen : size - 1 = operands.length := by omega
  rw [codeAtoms, hinfo]
  dsimp only
  rw [hlen, List.drop_left]
  split
  case isTrue hatom =>
    rw [operandAtom, List.take_append_of_le_length (four_le_length hinfo hsize hatom)]
    rfl
  case isFalse => rfl

/-- The instruction that the writer puts in place of one with an atom. -/
theorem operandAtom_bytes (idx : BitVec 32) (operands : Bytes) :
    operandAtom (LittleEndian.bytes 4 idx.toNat ++ operands.drop 4) = idx := by
  have hlen : (LittleEndian.bytes 4 idx.toNat).length = 4 := LittleEndian.length_bytes ..
  rw [operandAtom, List.take_left' hlen]
  exact ofNat_value_bytes (n := 4) idx

end Relocate

def writeCode (n : ℕ) (code : Bytes) : BCWriter Bytes := relocate (pure []) bcAtomToIdx n code

def readCode (n : ℕ) (code : Bytes) : BCReader Bytes := relocate (throw .outside) bcIdxToAtom n code

/-- Writing byte code notes its atoms, and reading it back puts in those of the reader. -/
structure Relocated (T : Transfer) (n : ℕ) (code : Bytes) : Prop where
  silent : ∀ d, (writeCode n code).out d = []
  notes : ∀ d, (writeCode n code).dict d = Codec.extend d ((codeAtoms n code).filter dynamic)
  length : ∀ d, ((writeCode n code).val d).length = code.length
  back : ∀ {s d}, T.format.Covers s ((writeCode n code).dict d) → ∀ input,
    (readCode n ((writeCode n code).val d)).on s input = .ok (mapCode T.atom n code, input)

theorem relocated_nil (n : ℕ) : Relocated T n [] where
  silent d := by rw [writeCode, relocate_nil]; rfl
  notes d := by rw [writeCode, relocate_nil]; cases n <;> rfl
  length d := by rw [writeCode, relocate_nil]; rfl
  back _ input := by
    have hwritten d : (writeCode n []).val d = [] := by rw [writeCode, relocate_nil]; rfl
    rw [hwritten, readCode, mapCode, relocate_nil, relocate_nil]
    rfl

section Relocated

variable {op : UInt8} {size n : ℕ} {fmt : OpFmt} {operands rest : Bytes}

theorem mapCode_atom (f : JSAtom → JSAtom) (hinfo : shortOpcodeInfo op = some (size, fmt))
    (hsize : operands.length + 1 = size) (hatom : fmt.hasAtom = true) :
    mapCode f (n + 1) (op :: (operands ++ rest)) =
      op :: (LittleEndian.bytes 4 (f (operandAtom operands)).toNat ++ operands.drop 4 ++
        mapCode f n rest) := by
  rw [mapCode, relocate_atom hinfo hsize hatom]
  rfl

theorem mapCode_other (f : JSAtom → JSAtom) (hinfo : shortOpcodeInfo op = some (size, fmt))
    (hsize : operands.length + 1 = size) (hatom : fmt.hasAtom = false) :
    mapCode f (n + 1) (op :: (operands ++ rest)) = op :: (operands ++ mapCode f n rest) := by
  rw [mapCode, relocate_other hinfo hsize hatom]
  rfl

theorem relocated_atom (hinfo : shortOpcodeInfo op = some (size, fmt)) (hsize : operands.length + 1 = size)
    (hatom : fmt.hasAtom = true) (h : Relocated T n rest) :
    Relocated T (n + 1) (op :: (operands ++ rest)) := by
  have hwrite : writeCode (n + 1) (op :: (operands ++ rest)) = do
      let atom ← bcAtomToIdx (operandAtom operands)
      let rest ← writeCode n rest
      return op :: (LittleEndian.bytes 4 atom.toNat ++ operands.drop 4 ++ rest) :=
    relocate_atom hinfo hsize hatom
  have hlen (idx : BitVec 32) :
      (LittleEndian.bytes 4 idx.toNat ++ operands.drop 4).length = operands.length := by
    have := four_le_length hinfo hsize hatom
    rw [List.length_append, LittleEndian.length_bytes, List.length_drop]
    omega
  constructor
  case silent =>
    intro d
    rw [hwrite, Encoder.out_bind, out_atomToIdx, Encoder.out_bind, h.silent]
    rfl
  case notes =>
    intro d
    rw [hwrite, Encoder.dict_bind, Encoder.dict_bind, Encoder.dict_pure, h.notes, dict_atomToIdx,
      codeAtoms_cons hinfo hsize, if_pos hatom, List.filter_append, Codec.extend_append]
  case length =>
    intro d
    rw [hwrite, Encoder.val_bind, Encoder.val_bind, Encoder.val_pure, List.length_cons,
      List.length_append, hlen, h.length, List.length_cons, List.length_append]
  case back =>
    intro s d hcovers input
    rw [hwrite, Encoder.dict_bind, Encoder.dict_bind, Encoder.dict_pure] at hcovers
    have hfirst : T.format.Covers s ((bcAtomToIdx (operandAtom operands)).dict d) := by
      refine T.format.mono hcovers ?_
      rw [h.notes]
      exact Codec.prefix_extend ..
    have hsize' := (congrArg (· + 1) (hlen ((bcAtomToIdx (operandAtom operands)).val d))).trans hsize
    have hread := @relocate_atom op size n fmt _ ((writeCode n rest).val
      ((bcAtomToIdx (operandAtom operands)).dict d)) BCReader _ (throw .outside) bcIdxToAtom hinfo
      hsize' hatom
    rw [hwrite, Encoder.val_bind, Encoder.val_bind, Encoder.val_pure, readCode, hread,
      operandAtom_bytes, Decoder.on_bind_ok ((idxToAtom_atomToIdx hfirst).2 input)]
    change (readCode n _ >>= _).on s input = _
    rw [Decoder.on_bind_ok (h.back hcovers input), mapCode_atom _ hinfo hsize hatom,
      List.drop_left' (LittleEndian.length_bytes ..)]
    rfl

theorem relocated_other (hinfo : shortOpcodeInfo op = some (size, fmt))
    (hsize : operands.length + 1 = size) (hatom : fmt.hasAtom = false) (h : Relocated T n rest) :
    Relocated T (n + 1) (op :: (operands ++ rest)) := by
  have hwrite : writeCode (n + 1) (op :: (operands ++ rest)) = do
      let rest ← writeCode n rest
      return op :: (operands ++ rest) :=
    relocate_other hinfo hsize hatom
  constructor
  case silent =>
    intro d
    rw [hwrite, Encoder.out_bind, h.silent]
    rfl
  case notes =>
    intro d
    rw [hwrite, Encoder.dict_bind, Encoder.dict_pure, h.notes, codeAtoms_cons hinfo hsize,
      if_neg (by simp [hatom]), List.nil_append]
  case length =>
    intro d
    rw [hwrite, Encoder.val_bind, Encoder.val_pure, List.length_cons, List.length_append, h.length,
      List.length_cons, List.length_append]
  case back =>
    intro s d hcovers input
    rw [hwrite, Encoder.dict_bind, Encoder.dict_pure] at hcovers
    rw [hwrite, Encoder.val_bind, Encoder.val_pure, readCode, relocate_other hinfo hsize hatom]
    change (readCode n _ >>= _).on s input = _
    rw [Decoder.on_bind_ok (h.back hcovers input), mapCode_other _ hinfo hsize hatom]
    rfl

end Relocated

theorem relocated {code : Bytes} (h : Instructions code) {n : ℕ} (hn : code.length ≤ n) :
    Relocated T n code := by
  induction h generalizing n with
  | nil => exact relocated_nil n
  | @cons op size fmt operands rest hinfo hsize hrest ih =>
    rw [List.length_cons, List.length_append] at hn
    obtain ⟨n, rfl⟩ := Nat.exists_eq_succ_of_ne_zero (show n ≠ 0 by omega)
    cases hatom : fmt.hasAtom with
    | true => exact relocated_atom hinfo hsize hatom (ih (by omega))
    | false => exact relocated_other hinfo hsize hatom (ih (by omega))

/-- The same atoms leave the byte code as it is. -/
theorem mapCode_id {code : Bytes} (h : Instructions code) {n : ℕ} (hn : code.length ≤ n) :
    mapCode id n code = code := by
  induction h generalizing n with
  | nil => rw [mapCode, relocate_nil]; rfl
  | @cons op size fmt operands rest hinfo hsize hrest ih =>
    rw [List.length_cons, List.length_append] at hn
    obtain ⟨n, rfl⟩ := Nat.exists_eq_succ_of_ne_zero (show n ≠ 0 by omega)
    have hsame := ih (show rest.length ≤ n by omega)
    cases hatom : fmt.hasAtom with
    | true =>
      have hfour : (operands.take 4).length = 4 := by
        have := four_le_length hinfo hsize hatom
        rw [List.length_take]
        omega
      have hbytes : LittleEndian.bytes 4 (operandAtom operands).toNat = operands.take 4 := by
        have hlt := LittleEndian.value_lt (operands.take 4)
        have hback := LittleEndian.bytes_value (operands.take 4)
        rw [hfour] at hlt hback
        rw [operandAtom, BitVec.toNat_ofNat,
          Nat.mod_eq_of_lt (Nat.lt_of_lt_of_eq hlt (by decide)), hback]
      rw [mapCode_atom _ hinfo hsize hatom, hsame, id, hbytes, List.take_append_drop]
    | false => rw [mapCode_other _ hinfo hsize hatom, hsame]

theorem carries_bytecode {code : Bytes} (h : Instructions code) :
    Carries T.format (jsWriteFunctionBytecode code) (jsReadFunctionBytecode code.length)
      (codeAtoms code.length code) (mapCode T.atom code.length code) := by
  have hmoved := relocated (T := T) h (Nat.le_refl _)
  refine .putOf hmoved.silent hmoved.notes (fun {s d} hcovers rest => ?_)
    fun {s d} _ part hpart hne => ?_
  · refine (Decoder.on_bind_ok (on_getBuf_append (hmoved.length d) s rest)).trans ?_
    rw [hmoved.length]
    exact hmoved.back hcovers rest
  · exact Decoder.on_bind_error (on_getBuf_cut (hmoved.length d) s hpart hne)

end QuickJsKmp.ObjectFormat
