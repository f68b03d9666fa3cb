import Mathlib.Algebra.Group.Nat.Defs
import Mathlib.Data.List.Basic
import Mathlib.Data.Nat.Basic
import Mathlib.Data.Nat.Bitwise

/-!
# Numbers made of parts, the lowest first

A number as its bytes, and the numbers that bytes stand for, without a sign and in two's
complement; and values of given widths side by side in one number, the first one in the lowest
bits.
-/

namespace LittleEndian

/-- The `n` lowest bytes of a number. -/
def bytes : ℕ → ℕ → List UInt8
  | 0, _ => []
  | n + 1, v => v.toUInt8 :: bytes n (v / 256)

def value : List UInt8 → ℕ
  | [] => 0
  | b :: bs => b.toNat + 256 * value bs

/-- In two's complement. -/
def signed (bs : List UInt8) : ℤ := (value bs : ℤ).bmod (256 ^ bs.length)

@[simp] theorem length_bytes (n v : ℕ) : (bytes n v).length = n := by
  induction n generalizing v with
  | zero => rfl
  | succ n ih => simp [bytes, ih]

theorem value_bytes (n v : ℕ) : value (bytes n v) = v % 256 ^ n := by
  induction n generalizing v with
  | zero => simp [bytes, value, Nat.mod_one]
  | succ n ih =>
    have hbyte : v.toUInt8.toNat = v % 256 := by simp
    rw [bytes, value, ih, hbyte, Nat.pow_succ, Nat.mul_comm (256 ^ n), Nat.mod_mul]

theorem value_bytes_of_lt {n v : ℕ} (h : v < 256 ^ n) : value (bytes n v) = v := by
  rw [value_bytes, Nat.mod_eq_of_lt h]

theorem value_lt (bs : List UInt8) : value bs < 256 ^ bs.length := by
  induction bs with
  | nil => simp [value]
  | cons b bs ih =>
    have hb := b.toNat_lt
    rw [value, List.length_cons, Nat.pow_succ]
    omega

theorem bytes_value (bs : List UInt8) : bytes bs.length (value bs) = bs := by
  induction bs with
  | nil => rfl
  | cons b bs ih =>
    have hb := b.toNat_lt
    have hhead : (b.toNat + 256 * value bs).toUInt8 = b := by
      apply UInt8.toNat_inj.mp
      simp
    have htail : (b.toNat + 256 * value bs) / 256 = value bs := by omega
    rw [value, List.length_cons, bytes, hhead, htail, ih]

theorem value_append (bs cs : List UInt8) :
    value (bs ++ cs) = value bs + 256 ^ bs.length * value cs := by
  induction bs with
  | nil => simp [value]
  | cons b bs ih =>
    have hpow : 256 ^ (b :: bs).length = 256 * 256 ^ bs.length := by
      rw [List.length_cons, Nat.pow_succ, Nat.mul_comm]
    rw [List.cons_append, value, ih, value, hpow, Nat.mul_add, Nat.mul_assoc, Nat.add_assoc]

theorem even_pow {n : ℕ} (hn : 0 < n) : ∃ h, 256 ^ n = 2 * h := by
  obtain ⟨n, rfl⟩ := Nat.exists_eq_succ_of_ne_zero (Nat.ne_of_gt hn)
  exact ⟨256 ^ n * 128, by rw [Nat.pow_succ]; omega⟩

theorem signed_eq (bs : List UInt8) :
    signed bs = if 2 * value bs < 256 ^ bs.length then (value bs : ℤ)
      else value bs - (256 ^ bs.length : ℕ) := by
  have hlt := value_lt bs
  rw [signed, Int.bmod_def, ← Int.natCast_emod, Nat.mod_eq_of_lt hlt]
  rcases Nat.eq_zero_or_pos bs.length with hnil | hpos
  · simp [List.eq_nil_of_length_eq_zero hnil, value]
  · obtain ⟨h, hh⟩ := even_pow hpos
    rw [hh]
    by_cases hsmall : 2 * value bs < 2 * h
    · rw [if_pos hsmall, if_pos (by omega)]
    · rw [if_neg hsmall, if_neg (by omega)]

theorem signed_injective {bs cs : List UInt8} (hlen : bs.length = cs.length)
    (h : signed bs = signed cs) : bs = cs := by
  have hbs := value_lt bs
  have hcs := value_lt cs
  have hvalue : value bs = value cs := by
    rw [signed_eq, signed_eq, hlen] at h
    rw [hlen] at hbs
    split at h <;> split at h <;> omega
  rw [← bytes_value bs, ← bytes_value cs, hlen, hvalue]

/-- Bytes in front of the others do not change their sign. -/
theorem signed_append {bs cs : List UInt8} (hcs : cs ≠ []) :
    signed (bs ++ cs) = value bs + (256 ^ bs.length : ℕ) * signed cs := by
  have hx := value_lt bs
  obtain ⟨h, hh⟩ := even_pow (List.length_pos_iff.mpr hcs)
  have hall : 256 ^ (bs ++ cs).length = 256 ^ bs.length * 256 ^ cs.length := by
    rw [List.length_append, Nat.pow_add]
  rw [signed_eq, signed_eq, value_append, hall, hh]
  generalize 256 ^ bs.length = m at hx
  generalize value bs = x at hx
  generalize value cs = y
  by_cases hy : 2 * y < 2 * h
  · have hle : m * (y + 1) ≤ m * h := Nat.mul_le_mul_left m (by omega)
    have hmy : m * (2 * h) = 2 * (m * h) := Nat.mul_left_comm ..
    rw [Nat.mul_succ] at hle
    rw [if_pos hy, if_pos (by omega)]
    push_cast
    rfl
  · have hle : m * h ≤ m * y := Nat.mul_le_mul_left m (by omega)
    have hmy : m * (2 * h) = 2 * (m * h) := Nat.mul_left_comm ..
    rw [if_neg hy, if_neg (by omega)]
    push_cast
    rw [Int.mul_sub, Int.add_sub_assoc]

-- ---------------------------------------------------------------------------
-- How many bytes a number needs
-- ---------------------------------------------------------------------------

/-- `n` bytes are enough for the number in two's complement. -/
def Within (n : ℕ) (x : ℤ) : Prop := -(256 ^ n : ℕ) ≤ x * 2 ∧ x * 2 < (256 ^ n : ℕ)

theorem Within.mono {m n : ℕ} {x : ℤ} (h : Within m x) (hmn : m ≤ n) : Within n x := by
  have hpow : 256 ^ m ≤ 256 ^ n := Nat.pow_le_pow_right (by decide) hmn
  exact ⟨by have := h.1; omega, by have := h.2; omega⟩

theorem within_signed {bs : List UInt8} (hbs : bs ≠ []) : Within bs.length (signed bs) := by
  have hlt := value_lt bs
  obtain ⟨h, hh⟩ := even_pow (List.length_pos_iff.mpr hbs)
  rw [Within, signed_eq]
  split
  · omega
  · omega

/-- A number that fits into `n` bytes is found in its `n` lowest ones. -/
theorem signed_bytes {n v : ℕ} {x : ℤ} (hv : (v : ℤ) % (256 ^ n : ℕ) = x % (256 ^ n : ℕ))
    (hx : Within n x) : signed (bytes n v) = x := by
  rw [signed, length_bytes, value_bytes, Int.natCast_emod, Int.emod_bmod, ← Int.emod_bmod, hv,
    Int.emod_bmod]
  exact Int.bmod_eq_of_le_mul_two hx.1 hx.2

/-- Bytes in front of the others need only their own room. -/
theorem within_add {m n : ℕ} {v : ℕ} {x : ℤ} (hv : v < 256 ^ m) (hn : 0 < n) :
    Within (m + n) (v + (256 ^ m : ℕ) * x) ↔ Within n x := by
  obtain ⟨h, hh⟩ := even_pow hn
  have hall : 256 ^ (m + n) = 256 ^ m * (2 * h) := by rw [Nat.pow_add, hh]
  rw [Within, Within, hall, hh]
  generalize 256 ^ m = M at hv
  constructor
  · rintro ⟨hle, hlt⟩
    constructor
    · by_contra hx
      have hstep : (M : ℤ) * (x + 1) ≤ M * -h := Int.mul_le_mul_of_nonneg_left (by omega) (by omega)
      push_cast at hle
      rw [Int.mul_add, Int.mul_neg] at hstep
      have hM : (M : ℤ) * (2 * h) = 2 * (M * h) := by rw [Int.mul_left_comm]
      omega
    · by_contra hx
      have hstep : (M : ℤ) * h ≤ M * x := Int.mul_le_mul_of_nonneg_left (by omega) (by omega)
      push_cast at hlt
      have hM : (M : ℤ) * (2 * h) = 2 * (M * h) := by rw [Int.mul_left_comm]
      omega
  · rintro ⟨hle, hlt⟩
    constructor
    · have hstep : (M : ℤ) * -h ≤ M * x := Int.mul_le_mul_of_nonneg_left (by omega) (by omega)
      push_cast
      rw [Int.mul_neg] at hstep
      have hM : (M : ℤ) * (2 * h) = 2 * (M * h) := by rw [Int.mul_left_comm]
      omega
    · have hstep : (M : ℤ) * (x + 1) ≤ M * h := Int.mul_le_mul_of_nonneg_left (by omega) (by omega)
      push_cast
      rw [Int.mul_add] at hstep
      have hM : (M : ℤ) * (2 * h) = 2 * (M * h) := by rw [Int.mul_left_comm]
      omega

/-- The highest byte only repeats the sign of the others. -/
theorem within_pred (n v : ℕ) : Within n (signed (bytes (n + 1) v)) ↔
    v / 256 ^ n % 256 = 0 ∧ v % 256 ^ n * 2 < 256 ^ n ∨
      v / 256 ^ n % 256 = 255 ∧ 256 ^ n ≤ v % 256 ^ n * 2 := by
  have hpow : 256 ^ (n + 1) = 256 ^ n * 256 := Nat.pow_succ ..
  have hlo : v % 256 ^ n < 256 ^ n := Nat.mod_lt _ (Nat.pow_pos (by decide))
  have hb : v / 256 ^ n % 256 < 256 := Nat.mod_lt _ (by decide)
  rw [signed_eq, length_bytes, value_bytes, hpow, Nat.mod_mul, Within]
  generalize v % 256 ^ n = lo at hlo
  generalize v / 256 ^ n % 256 = b at hb
  generalize 256 ^ n = M at hlo
  rcases Nat.lt_trichotomy 0 b with hpos | rfl | hneg
  · have hge : M * 1 ≤ M * b := Nat.mul_le_mul_left _ hpos
    rcases Nat.lt_or_eq_of_le (Nat.le_of_lt_succ hb) with hmid | rfl
    · have hle : M * b ≤ M * 254 := Nat.mul_le_mul_left _ (by omega)
      split <;> omega
    · split <;> omega
  · split <;> omega
  · omega

/-- Zeros in front. -/
theorem value_zeros (n : ℕ) : value (List.replicate n 0) = 0 := by
  induction n with
  | zero => rfl
  | succ n ih => rw [List.replicate_succ, value, ih]; rfl

end LittleEndian

namespace BitFields

variable {fields : List (ℕ × ℕ)} {v n : ℕ}

/-- Every value, with its width. -/
def pack : List (ℕ × ℕ) → ℕ
  | [] => 0
  | (v, n) :: fields => v + 2 ^ n * pack fields

def width : List (ℕ × ℕ) → ℕ
  | [] => 0
  | (_, n) :: fields => n + width fields

def Fits (fields : List (ℕ × ℕ)) : Prop := ∀ field ∈ fields, field.1 < 2 ^ field.2

theorem Fits.head (h : Fits ((v, n) :: fields)) : v < 2 ^ n := h _ List.mem_cons_self

theorem Fits.tail (h : Fits ((v, n) :: fields)) : Fits fields := fun field hfield =>
  h field (List.mem_cons_of_mem _ hfield)

@[simp] theorem fits_nil : Fits [] := fun _ h => nomatch h

@[simp] theorem fits_cons : Fits ((v, n) :: fields) ↔ v < 2 ^ n ∧ Fits fields :=
  List.forall_mem_cons

@[simp] theorem toNat_fits (b : Bool) : b.toNat < 2 ^ 1 := b.toNat_lt

theorem pack_lt (h : Fits fields) : pack fields < 2 ^ width fields := by
  induction fields with
  | nil => exact Nat.one_pos
  | cons field fields ih =>
    obtain ⟨v, n⟩ := field
    have hv := h.head
    have hstep : 2 ^ n * (pack fields + 1) ≤ 2 ^ n * 2 ^ width fields :=
      Nat.mul_le_mul_left _ (ih h.tail)
    rw [pack, width, Nat.pow_add]
    rw [Nat.mul_succ] at hstep
    omega

theorem or_shift (h : Fits ((v, n) :: fields)) :
    v ||| pack fields <<< n = pack ((v, n) :: fields) := by
  rw [pack, Nat.shiftLeft_eq, Nat.or_comm, Nat.mul_comm, Nat.add_comm,
    Nat.two_pow_add_eq_or_of_lt h.head]

/-- Putting the fields one after the other. -/
theorem foldl_or (h : Fits fields) (acc pos : ℕ) :
    (fields.foldl (fun flags field => (flags.1 ||| field.1 <<< flags.2, flags.2 + field.2))
      (acc, pos)).1 = acc ||| pack fields <<< pos := by
  induction fields generalizing acc pos with
  | nil => simp [pack]
  | cons field fields ih =>
    obtain ⟨v, n⟩ := field
    rw [List.foldl_cons, ih h.tail, ← or_shift h, Nat.shiftLeft_or_distrib, ← Nat.shiftLeft_add,
      Nat.or_assoc, Nat.add_comm]

/-- Each field is found behind the ones in front of it. -/
theorem field_of_pack (h : Fits fields) {i : ℕ} (hi : fields[i]? = some (v, n)) :
    pack fields >>> width (fields.take i) &&& (1 <<< n - 1) = v := by
  induction fields generalizing i with
  | nil => cases hi
  | cons field fields ih =>
    obtain ⟨v', n'⟩ := field
    cases i with
    | zero =>
      obtain ⟨rfl, rfl⟩ : v' = v ∧ n' = n := by simpa using hi
      rw [List.take_zero, width, Nat.shiftRight_zero, pack, Nat.one_shiftLeft,
        Nat.and_two_pow_sub_one_eq_mod, Nat.add_mul_mod_self_left, Nat.mod_eq_of_lt h.head]
    | succ i =>
      have hrest : pack ((v', n') :: fields) >>> n' = pack fields := by
        rw [pack, Nat.shiftRight_eq_div_pow, Nat.add_mul_div_left _ _ (Nat.two_pow_pos n'),
          Nat.div_eq_of_lt h.head, Nat.zero_add]
      rw [List.take_succ_cons, width, Nat.shiftRight_add, hrest]
      exact ih h.tail hi

end BitFields
