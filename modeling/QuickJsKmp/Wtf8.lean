import QuickJsKmp.Value
import QuickJsKmp.Lib.CodePoints
import Mathlib.Data.Nat.Bits
import Mathlib.Algebra.Group.Nat.Defs
import Mathlib.Algebra.Group.Int.Defs

/-!
# The WTF-8 codec

`Wtf8.kt`. Array sizes are not bounded here: where `text.length * 3` leaves
`Int`, no array of that size can be had.
-/

namespace QuickJsKmp

open CodePoints

/-- A Kotlin `String`: any sequence of UTF-16 units. -/
abbrev Text := List UInt16

/-- Kotlin's own UTF-8 codec. `replacement` stands for a lone surrogate and is a
question mark or U+FFFD, as the platform has it; what malformed bytes decode to
is left open. -/
structure Utf8Codec where
  replacement : CodePoint
  scalar : ¬ Surrogate replacement.val
  decodeToString : Bytes → Text
  decode_bytes : ∀ cps, Scalar cps → decodeToString (bytes cps) = units cps

def Utf8Codec.replace (codec : Utf8Codec) (cp : CodePoint) : CodePoint :=
  if Surrogate cp.val then codec.replacement else cp

def Utf8Codec.encodeToByteArray (codec : Utf8Codec) (text : Text) : Bytes :=
  bytes ((codePoints text).map codec.replace)

namespace Wtf8

/-- `out[n++] = b.toByte()` in an array of `size` bytes, `out` being the first
`n`; `none` is a write past its end. -/
def put (size : ℕ) (out : Bytes) (b : ℕ) : Option Bytes :=
  if out.length < size then some (out ++ [b.toUInt8]) else none

def putCodePoint (size : ℕ) (out : Bytes) (cp : ℕ) : Option Bytes :=
  if cp < 0x80 then put size out cp
  else if cp < 0x800 then do
    let out ← put size out (0xC0 ||| (cp >>> 6))
    put size out (0x80 ||| (cp &&& 0x3F))
  else if cp < 0x10000 then do
    let out ← put size out (0xE0 ||| (cp >>> 12))
    let out ← put size out (0x80 ||| ((cp >>> 6) &&& 0x3F))
    put size out (0x80 ||| (cp &&& 0x3F))
  else do
    let out ← put size out (0xF0 ||| (cp >>> 18))
    let out ← put size out (0x80 ||| ((cp >>> 12) &&& 0x3F))
    let out ← put size out (0x80 ||| ((cp >>> 6) &&& 0x3F))
    put size out (0x80 ||| (cp &&& 0x3F))

def encodeLoop (size : ℕ) : Text → Bytes → Option Bytes
  | [], out => some out
  | [c], out => putCodePoint size out c.toNat
  | c :: d :: rest, out =>
    if High c.toNat ∧ Low d.toNat then do
      let cp := 0x10000 + ((c.toNat - 0xD800) <<< 10) + (d.toNat - 0xDC00)
      let out ← putCodePoint size out cp
      encodeLoop size rest out
    else do
      let out ← putCodePoint size out c.toNat
      encodeLoop size (d :: rest) out

def encode (codec : Utf8Codec) (text : Text) : Option Bytes :=
  if text.all fun c => ¬ Surrogate c.toNat then some (codec.encodeToByteArray text)
  else encodeLoop (text.length * 3) text []

def cont (b : UInt8) : ℕ := b.toNat &&& 0x3F

/-- `Int.toChar`: the low sixteen bits. -/
def toChar (n : ℤ) : UInt16 := (n % 0x10000).toNat.toUInt16

/-- The branches of the `when`, in its order: the guard on the leading byte and
the bytes that have to be there. -/
def decodeLoop : Bytes → Text
  | [] => []
  | b :: rest =>
    let b0 := b.toNat
    if b0 < 0x80 then toChar b0 :: decodeLoop rest
    else
      match decide (b0 &&& 0xE0 = 0xC0), decide (b0 &&& 0xF0 = 0xE0), decide (b0 &&& 0xF8 = 0xF0),
        rest with
      | true, _, _, b1 :: rest => toChar (((b0 &&& 0x1F) <<< 6) ||| cont b1 : ℕ) :: decodeLoop rest
      | _, true, _, b1 :: b2 :: rest =>
        toChar (((b0 &&& 0x0F) <<< 12) ||| (cont b1 <<< 6) ||| cont b2 : ℕ) :: decodeLoop rest
      | _, _, true, b1 :: b2 :: b3 :: rest =>
        let cp : ℕ := ((b0 &&& 0x07) <<< 18) ||| (cont b1 <<< 12) ||| (cont b2 <<< 6) ||| cont b3
        -- below zero for an overlong sequence, so `shr` and `and` are those of a signed integer
        let v : ℤ := cp - 0x10000
        toChar (0xD800 + v / 2 ^ 10) :: toChar (0xDC00 + v % 2 ^ 10) :: decodeLoop rest
      | _, _, _, rest => 0xFFFD :: decodeLoop rest

def decode (codec : Utf8Codec) (b : Bytes) : Text :=
  if b.all fun x => x ≠ 0xED then codec.decodeToString b else decodeLoop b

/-- Generalized UTF-8 in which no encoded high surrogate stands right before an
encoded low one. -/
def WellFormed (b : Bytes) : Prop := ∃ cps, Unpaired cps ∧ b = bytes cps

-- ---------------------------------------------------------------------------
-- Bits
-- ---------------------------------------------------------------------------

theorem or_eq_add (i a : ℕ) (h : n < 2 ^ i) : 2 ^ i * a ||| n = 2 ^ i * a + n :=
  (Nat.two_pow_add_eq_or_of_lt h a).symm

theorem shift_or (i n : ℕ) (h : m < 2 ^ i) : (n <<< i) ||| m = n * 2 ^ i + m := by
  rw [Nat.shiftLeft_eq, Nat.mul_comm, or_eq_add i n h]

theorem lead_two (h : n < 32) : 0xC0 ||| n = 0xC0 + n := or_eq_add 6 3 (by omega)

theorem lead_three (h : n < 16) : 0xE0 ||| n = 0xE0 + n := or_eq_add 5 7 (by omega)

theorem lead_four (h : n < 16) : 0xF0 ||| n = 0xF0 + n := or_eq_add 4 15 (by omega)

theorem and_tail (n : ℕ) : n &&& 0x3F = n % 64 := Nat.and_two_pow_sub_one_eq_mod n 6

theorem tail_byte (n : ℕ) : 0x80 ||| (n &&& 0x3F) = 0x80 + n % 64 := by
  rw [and_tail]
  exact or_eq_add 6 2 (by omega)

theorem cont_tail (n : ℕ) : cont (0x80 + n % 64).toUInt8 = n % 64 := by
  rw [cont, toNat_toUInt8 (by omega), and_tail]
  omega

theorem toChar_unit {n : ℕ} (h : n < 0x10000) : toChar (n : ℤ) = n.toUInt16 := by
  rw [toChar, Int.emod_eq_of_lt (by omega) (by omega), Int.toNat_natCast]

-- ---------------------------------------------------------------------------
-- Encoding
-- ---------------------------------------------------------------------------

theorem put_of_lt (h : out.length < size) : put size out b = some (out ++ [b.toUInt8]) := if_pos h

/-- Where there is room for them, the bytes of a code point are appended. -/
theorem putCodePoint_eq (cp : CodePoint) (h : out.length + (utf8 cp).length ≤ size) :
    putCodePoint size out cp.val = some (out ++ utf8 cp) := by
  have hcp := cp.isLt
  unfold utf8 at h ⊢
  unfold putCodePoint
  split
  · rw [if_pos ‹_›] at h
    exact put_of_lt h
  rw [if_neg ‹_›] at h
  split
  · rw [if_pos ‹_›] at h
    simp only [List.length_cons, List.length_nil] at h
    have hlead : 0xC0 ||| (cp.val >>> 6) = 0xC0 + cp.val / 64 := by
      rw [Nat.shiftRight_eq_div_pow, lead_two (by omega)]
    rw [put_of_lt (by omega), Option.bind_eq_bind, Option.bind_some, put_of_lt (by simp; omega),
      hlead, tail_byte]
    simp
  rw [if_neg ‹_›] at h
  split
  · rw [if_pos ‹_›] at h
    simp only [List.length_cons, List.length_nil] at h
    have hlead : 0xE0 ||| (cp.val >>> 12) = 0xE0 + cp.val / 4096 := by
      rw [Nat.shiftRight_eq_div_pow, lead_three (by omega)]
    simp only [Option.bind_eq_bind]
    rw [put_of_lt (by omega), Option.bind_some, put_of_lt (by simp; omega), Option.bind_some,
      put_of_lt (by simp; omega), hlead, tail_byte, tail_byte, Nat.shiftRight_eq_div_pow]
    simp
  · rw [if_neg ‹_›] at h
    simp only [List.length_cons, List.length_nil] at h
    have hlead : 0xF0 ||| (cp.val >>> 18) = 0xF0 + cp.val / 262144 := by
      rw [Nat.shiftRight_eq_div_pow, lead_four (by omega)]
    simp only [Option.bind_eq_bind]
    rw [put_of_lt (by omega), Option.bind_some, put_of_lt (by simp; omega), Option.bind_some,
      put_of_lt (by simp; omega), Option.bind_some, put_of_lt (by simp; omega), hlead, tail_byte,
      tail_byte, tail_byte, Nat.shiftRight_eq_div_pow, Nat.shiftRight_eq_div_pow]
    simp

theorem utf8_length_le (cp : CodePoint) : (utf8 cp).length ≤ 4 := by
  unfold utf8
  repeat' split
  all_goals simp

theorem utf8_length_ofUnit (u : UInt16) : (utf8 (ofUnit u)).length ≤ 3 := by
  have hlt : (ofUnit u).val < 0x10000 := u.toNat_lt
  unfold utf8
  repeat' split
  all_goals simp

/-- Three bytes a unit are enough for what is left. -/
theorem encodeLoop_eq (h : out.length + 3 * text.length ≤ size) :
    encodeLoop size text out = some (out ++ bytes (codePoints text)) := by
  induction text using codePoints.induct generalizing out with
  | case1 => simp [encodeLoop, codePoints]
  | case2 u =>
    have hlen := utf8_length_ofUnit u
    simp only [List.length_singleton] at h
    rw [encodeLoop, codePoints]
    rw [show u.toNat = (ofUnit u).val from rfl, putCodePoint_eq _ (by omega)]
    simp
  | case3 u v rest hp ih =>
    have hlen := utf8_length_le (ofPair u v hp)
    simp only [List.length_cons] at h
    have hcp : 0x10000 + ((u.toNat - 0xD800) <<< 10) + (v.toNat - 0xDC00)
        = (ofPair u v hp).val := by
      rw [ofPair_val, Nat.shiftLeft_eq]
    rw [encodeLoop, if_pos hp, codePoints, dif_pos hp]
    simp only [hcp, Option.bind_eq_bind]
    rw [putCodePoint_eq _ (by omega), Option.bind_some, ih (by rw [List.length_append]; omega)]
    simp
  | case4 u v rest hp ih =>
    have hlen := utf8_length_ofUnit u
    simp only [List.length_cons] at h
    rw [encodeLoop, if_neg hp, codePoints, dif_neg hp, show u.toNat = (ofUnit u).val from rfl,
      putCodePoint_eq _ (by omega), Option.bind_eq_bind, Option.bind_some,
      ih (by rw [List.length_append, List.length_cons]; omega)]
    simp

/-- A text without surrogates has none among its code points. -/
theorem codePoints_scalar (h : ∀ u ∈ text, ¬ Surrogate u.toNat) : Scalar (codePoints text) := by
  induction text using codePoints.induct with
  | case1 => simp [codePoints, Scalar]
  | case2 u => simpa [codePoints, Scalar, ofUnit] using h
  | case3 u v rest hp ih => exact absurd hp.1.surrogate (h u List.mem_cons_self)
  | case4 u v rest hp ih =>
    rw [codePoints, dif_neg hp]
    rintro cp hcp
    rcases List.mem_cons.mp hcp with rfl | hmem
    · exact h u List.mem_cons_self
    · exact ih (fun w hw => h w (List.mem_cons_of_mem _ hw)) cp hmem

theorem replace_scalar (codec : Utf8Codec) (h : Scalar cps) : cps.map codec.replace = cps := by
  calc cps.map codec.replace = cps.map id :=
        List.map_congr_left fun cp hcp => if_neg (h cp hcp)
    _ = cps := List.map_id cps

theorem encode_eq (codec : Utf8Codec) (text : Text) :
    encode codec text = some (bytes (codePoints text)) := by
  unfold encode
  split
  next h =>
    have hscalar : Scalar (codePoints text) := codePoints_scalar (by simpa using h)
    rw [Utf8Codec.encodeToByteArray, replace_scalar codec hscalar]
  next =>
    have hroom : ([] : Bytes).length + 3 * text.length ≤ text.length * 3 := by
      rw [List.length_nil]
      omega
    exact encodeLoop_eq hroom

-- ---------------------------------------------------------------------------
-- Decoding
-- ---------------------------------------------------------------------------

theorem two_mask : ∀ n < 256, 0xC0 ≤ n → n < 0xE0 → n &&& 0xE0 = 0xC0 := by decide +kernel

theorem three_mask : ∀ n < 256, 0xE0 ≤ n → n < 0xF0 → n &&& 0xE0 ≠ 0xC0 ∧ n &&& 0xF0 = 0xE0 := by
  decide +kernel

theorem four_mask : ∀ n < 256, 0xF0 ≤ n → n < 0xF8 →
    n &&& 0xE0 ≠ 0xC0 ∧ n &&& 0xF0 ≠ 0xE0 ∧ n &&& 0xF8 = 0xF0 := by
  decide +kernel

theorem decodeLoop_one (h : b.toNat < 0x80) :
    decodeLoop (b :: rest) = toChar b.toNat :: decodeLoop rest := by
  rw [decodeLoop.eq_def]
  simp only [h, if_true]

theorem decodeLoop_two (hge : 0xC0 ≤ b.toNat) (hlt : b.toNat < 0xE0) :
    decodeLoop (b :: b1 :: rest)
      = toChar (((b.toNat &&& 0x1F) <<< 6) ||| cont b1 : ℕ) :: decodeLoop rest := by
  have hmask := two_mask _ b.toNat_lt hge hlt
  rw [decodeLoop.eq_def]
  simp only [show ¬ b.toNat < 0x80 by omega, if_false, hmask, decide_true]

theorem decodeLoop_three (hge : 0xE0 ≤ b.toNat) (hlt : b.toNat < 0xF0) :
    decodeLoop (b :: b1 :: b2 :: rest)
      = toChar (((b.toNat &&& 0x0F) <<< 12) ||| (cont b1 <<< 6) ||| cont b2 : ℕ)
        :: decodeLoop rest := by
  obtain ⟨htwo, hmask⟩ := three_mask _ b.toNat_lt hge hlt
  rw [decodeLoop.eq_def]
  simp only [show ¬ b.toNat < 0x80 by omega, if_false, htwo, hmask, decide_true, decide_false]

theorem decodeLoop_four (hge : 0xF0 ≤ b.toNat) (hlt : b.toNat < 0xF8)
    (hcp : ((b.toNat &&& 0x07) <<< 18) ||| (cont b1 <<< 12) ||| (cont b2 <<< 6) ||| cont b3 = cp) :
    decodeLoop (b :: b1 :: b2 :: b3 :: rest)
      = toChar (0xD800 + ((cp : ℤ) - 0x10000) / 2 ^ 10)
        :: toChar (0xDC00 + ((cp : ℤ) - 0x10000) % 2 ^ 10) :: decodeLoop rest := by
  obtain ⟨htwo, hthree, hmask⟩ := four_mask _ b.toNat_lt hge hlt
  subst hcp
  rw [decodeLoop.eq_def]
  simp only [show ¬ b.toNat < 0x80 by omega, if_false, htwo, hthree, hmask, decide_true,
    decide_false]

theorem and_low (i n : ℕ) (a : ℕ) (h : n < 2 ^ i) : (2 ^ i * a + n) &&& (2 ^ i - 1) = n := by
  rw [Nat.and_two_pow_sub_one_eq_mod, Nat.mul_add_mod, Nat.mod_eq_of_lt h]

/-- One encoded code point is read back as its units. -/
theorem decodeLoop_append (cp : CodePoint) (rest : Bytes) :
    decodeLoop (utf8 cp ++ rest) = utf16 cp ++ decodeLoop rest := by
  have hcp := cp.isLt
  unfold utf8
  split
  next h =>
    have hb : cp.val.toUInt8.toNat = cp.val := toNat_toUInt8 (by omega)
    rw [utf16, if_pos (by omega), List.singleton_append, decodeLoop_one (by omega), hb,
      toChar_unit (by omega), List.singleton_append]
  next h =>
  split
  next h2 =>
    have hb : (0xC0 + cp.val / 64).toUInt8.toNat = 0xC0 + cp.val / 64 := toNat_toUInt8 (by omega)
    have hlow : (0xC0 + cp.val / 64) &&& 0x1F = cp.val / 64 := and_low 5 _ 6 (by omega)
    have hsum : cp.val / 64 * 2 ^ 6 + cp.val % 64 = cp.val := by omega
    rw [utf16, if_pos (by omega), List.cons_append, List.singleton_append,
      decodeLoop_two (by omega) (by omega), hb, hlow, cont_tail, shift_or 6 _ (by omega), hsum,
      toChar_unit (by omega), List.singleton_append]
  next h2 =>
  split
  next h3 =>
    have hb : (0xE0 + cp.val / 4096).toUInt8.toNat = 0xE0 + cp.val / 4096 :=
      toNat_toUInt8 (by omega)
    have hlow : (0xE0 + cp.val / 4096) &&& 0x0F = cp.val / 4096 := and_low 4 _ 14 (by omega)
    have hsum : ((cp.val / 4096) <<< 12) ||| ((cp.val / 64 % 64) <<< 6) ||| (cp.val % 64)
        = cp.val := by
      rw [Nat.or_assoc, shift_or 6 _ (by omega), shift_or 12 _ (by omega)]
      omega
    rw [utf16, if_pos (by omega), List.cons_append, List.cons_append, List.singleton_append,
      decodeLoop_three (by omega) (by omega), hb, hlow, cont_tail, cont_tail, hsum,
      toChar_unit (by omega), List.singleton_append]
  next h3 =>
    have hb : (0xF0 + cp.val / 262144).toUInt8.toNat = 0xF0 + cp.val / 262144 :=
      toNat_toUInt8 (by omega)
    have hlow : (0xF0 + cp.val / 262144) &&& 0x07 = cp.val / 262144 := and_low 3 _ 30 (by omega)
    have hsum : ((cp.val / 262144) <<< 18) ||| ((cp.val / 4096 % 64) <<< 12)
        ||| ((cp.val / 64 % 64) <<< 6) ||| (cp.val % 64) = cp.val := by
      rw [Nat.or_assoc, Nat.or_assoc, shift_or 6 _ (by omega), shift_or 12 _ (by omega),
        shift_or 18 _ (by omega)]
      omega
    have hhi : (0xD800 + ((cp.val : ℤ) - 0x10000) / 2 ^ 10)
        = ((0xD800 + (cp.val - 0x10000) / 1024 : ℕ) : ℤ) := by omega
    have hlo : (0xDC00 + ((cp.val : ℤ) - 0x10000) % 2 ^ 10)
        = ((0xDC00 + (cp.val - 0x10000) % 1024 : ℕ) : ℤ) := by omega
    rw [utf16, if_neg (by omega), List.cons_append, List.cons_append, List.cons_append,
      List.singleton_append, decodeLoop_four (by omega) (by omega)
        (by rw [hb, hlow, cont_tail, cont_tail, cont_tail, hsum]),
      hhi, hlo, toChar_unit (by omega), toChar_unit (by omega), List.cons_append,
      List.singleton_append]

theorem decodeLoop_bytes (cps : List CodePoint) : decodeLoop (bytes cps) = units cps := by
  induction cps with
  | nil => rfl
  | cons cp rest ih => rw [bytes_cons, units_cons, decodeLoop_append, ih]

/-- Every encoded surrogate starts with `0xED`. -/
theorem surrogate_lead (h : Surrogate cp.val) : 0xED ∈ utf8 cp := by
  obtain ⟨hge, hlt⟩ := h
  have hdiv : cp.val / 4096 = 13 := by omega
  rw [utf8, if_neg (by omega), if_neg (by omega), if_pos (by omega), hdiv]
  exact List.mem_cons_self

theorem decode_bytes (codec : Utf8Codec) (cps : List CodePoint) :
    decode codec (bytes cps) = units cps := by
  unfold decode
  split
  next h =>
    refine codec.decode_bytes cps fun cp hcp hs => ?_
    have hmem : 0xED ∈ bytes cps := List.mem_flatMap.mpr ⟨cp, hcp, surrogate_lead hs⟩
    simpa using List.all_eq_true.mp h _ hmem
  next => exact decodeLoop_bytes cps

/-- The codec of a platform that replaces a lone surrogate with a question mark. -/
def jvmCodec : Utf8Codec where
  replacement := ⟨0x3F, by decide⟩
  scalar := by decide
  decodeToString := decodeLoop
  decode_bytes := fun cps _ => decodeLoop_bytes cps

end Wtf8

open Wtf8 in
/-- Every text is encoded within the buffer to well-formed WTF-8 and read back,
and every well-formed sequence is what its text encodes to. -/
theorem wtf8_round_trip (codec : Utf8Codec) :
    (∀ text, ∃ b, encode codec text = some b ∧ WellFormed b ∧ decode codec b = text) ∧
      ∀ b, WellFormed b → encode codec (decode codec b) = some b := by
  constructor
  · intro text
    refine ⟨bytes (codePoints text), encode_eq codec text,
      ⟨codePoints text, codePoints_unpaired text, rfl⟩, ?_⟩
    rw [decode_bytes, units_codePoints]
  · rintro b ⟨cps, hcps, rfl⟩
    rw [decode_bytes, encode_eq, codePoints_units hcps]

open Wtf8 in
theorem wtf8_round_trip_lone :
    WellFormed [0xED, 0xA0, 0x80] ∧
      encode jvmCodec (decode jvmCodec [0xED, 0xA0, 0x80]) = some [0xED, 0xA0, 0x80] := by
  have h : WellFormed [0xED, 0xA0, 0x80] := ⟨[⟨0xD800, by decide⟩], .singleton _, by decide⟩
  exact ⟨h, (wtf8_round_trip jvmCodec).2 _ h⟩

end QuickJsKmp
