import Mathlib.Data.Rat.Floor
import Mathlib.Data.Nat.Log
import Mathlib.Tactic.Linarith
import Mathlib.Tactic.Ring
import Mathlib.Tactic.NormNum

/-!
# Doubles and integers

A double is its 64 bits, and its number a rational, an infinity or none. An
integer becomes the double nearest to it, and the even one of two, so that it
keeps its 53 leading bits.
-/

namespace Binary64

def negative (d : UInt64) : Bool := 2 ^ 63 ≤ d.toNat

def exponent (d : UInt64) : ℕ := d.toNat / 2 ^ 52 % 2 ^ 11

def fraction (d : UInt64) : ℕ := d.toNat % 2 ^ 52

def significand (d : UInt64) : ℕ := if exponent d = 0 then fraction d else 2 ^ 52 + fraction d

def scale (d : UInt64) : ℤ := if exponent d = 0 then -1074 else exponent d - 1075

inductive Number
  | nan
  | infinity (negative : Bool)
  | finite (value : ℚ)
  deriving DecidableEq, Repr

def number (d : UInt64) : Number :=
  if exponent d = 2047 then if fraction d = 0 then .infinity (negative d) else .nan
  else .finite ((if negative d then -1 else 1) * (significand d * 2 ^ scale d))

-- ---------------------------------------------------------------------------
-- Comparisons
-- ---------------------------------------------------------------------------

namespace Number

def le : Number → Number → Bool
  | .nan, _ => false
  | _, .nan => false
  | .infinity true, _ => true
  | _, .infinity false => true
  | .infinity false, _ => false
  | _, .infinity true => false
  | .finite x, .finite y => x ≤ y

def lt (a b : Number) : Bool := a.le b && !b.le a

/-- Equality of doubles: not even reflexive, and the same for both zeros. -/
def eq (a b : Number) : Bool := a.le b && b.le a

@[simp] theorem le_finite (x y : ℚ) : (finite x).le (finite y) = decide (x ≤ y) := rfl

@[simp] theorem lt_finite (x y : ℚ) : (finite x).lt (finite y) = decide (x < y) := by
  rw [lt, le_finite, le_finite]
  by_cases h : x < y
  · simp [h, h.le, not_le.mpr h]
  · simp [h, not_lt.mp h]

@[simp] theorem eq_finite (x y : ℚ) : (finite x).eq (finite y) = decide (x = y) := by
  rw [eq, le_finite, le_finite, ← Bool.decide_and]
  exact decide_eq_decide.mpr le_antisymm_iff.symm

end Number

-- ---------------------------------------------------------------------------
-- Rounding
-- ---------------------------------------------------------------------------

/-- `a / 2 ^ s`, to the nearest and to the even one of two. -/
def roundHalfEven (a s : ℕ) : ℕ :=
  if 2 * (a % 2 ^ s) < 2 ^ s then a / 2 ^ s
  else if 2 ^ s < 2 * (a % 2 ^ s) then a / 2 ^ s + 1
  else a / 2 ^ s + a / 2 ^ s % 2

/-- The bits that are more than 53. -/
def excess (a : ℕ) : ℕ := a.log2 - 52

/-- `a` with a significand of 53 bits. -/
def round (a : ℕ) : ℕ := roundHalfEven a (excess a) * 2 ^ excess a

/-- A significand of 53 bits is enough for it. -/
def Representable (a : ℕ) : Prop := ∃ m k, m < 2 ^ 53 ∧ a = m * 2 ^ k

theorem roundHalfEven_bounds (a s : ℕ) :
    a / 2 ^ s ≤ roundHalfEven a s ∧ roundHalfEven a s ≤ a / 2 ^ s + 1 := by
  unfold roundHalfEven
  split
  · omega
  split <;> omega

theorem roundHalfEven_mul (q s : ℕ) : roundHalfEven (q * 2 ^ s) s = q := by
  have hpos : 0 < 2 ^ s := Nat.pow_pos (by decide)
  have hmod : q * 2 ^ s % 2 ^ s = 0 := Nat.mul_mod_left ..
  rw [roundHalfEven, hmod, if_pos (by omega), Nat.mul_div_cancel _ hpos]

theorem excess_of_lt (h : a < 2 ^ 53) : excess a = 0 := by
  rcases Nat.eq_zero_or_pos a with rfl | hpos
  · decide
  · have := (Nat.log2_lt hpos.ne').mpr h
    rw [excess]
    omega

theorem quotient_bounds (ha : a ≠ 0) (h : 52 ≤ a.log2) :
    2 ^ 52 ≤ a / 2 ^ excess a ∧ a / 2 ^ excess a < 2 ^ 53 := by
  have hlow := Nat.log2_self_le ha
  have hhigh := Nat.lt_log2_self (n := a)
  have hlog : a.log2 = 52 + excess a := by
    rw [excess]
    omega
  have hpos : 0 < 2 ^ excess a := Nat.pow_pos (by decide)
  refine ⟨(Nat.le_div_iff_mul_le hpos).mpr ?_, (Nat.div_lt_iff_lt_mul hpos).mpr ?_⟩
  · rwa [← pow_add, ← hlog]
  · rwa [← pow_add, show 53 + excess a = a.log2 + 1 by omega]

theorem round_of_lt (h : a < 2 ^ 53) : round a = a := by
  have h := roundHalfEven_mul a 0
  rw [pow_zero, mul_one] at h
  rw [round, excess_of_lt ‹_›, h, pow_zero, mul_one]

theorem representable_round (a : ℕ) : Representable (round a) := by
  by_cases hsmall : a < 2 ^ 53
  · rw [round_of_lt hsmall]
    exact ⟨a, 0, hsmall, by simp⟩
  · have ha : a ≠ 0 := by omega
    have hlog : 52 ≤ a.log2 := by
      have := (Nat.le_log2 ha).mpr (Nat.le_of_not_lt hsmall)
      omega
    have hquotient := quotient_bounds ha hlog
    have hround := roundHalfEven_bounds a (excess a)
    by_cases hcarry : roundHalfEven a (excess a) < 2 ^ 53
    · exact ⟨_, _, hcarry, rfl⟩
    · refine ⟨1, 53 + excess a, by decide, ?_⟩
      rw [round, show roundHalfEven a (excess a) = 2 ^ 53 by omega, pow_add, one_mul]

theorem excess_le (hm : m < 2 ^ 53) (ha : m * 2 ^ k ≠ 0) : excess (m * 2 ^ k) ≤ k := by
  have hlow := Nat.log2_self_le ha
  have hlt : m * 2 ^ k < 2 ^ (53 + k) := by
    rw [pow_add]
    exact Nat.mul_lt_mul_of_pos_right hm (Nat.pow_pos (by decide))
  have := (Nat.pow_lt_pow_iff_right (by decide)).mp (lt_of_le_of_lt hlow hlt)
  rw [excess]
  omega

theorem round_of_representable (h : Representable a) : round a = a := by
  by_cases hsmall : a < 2 ^ 53
  · exact round_of_lt hsmall
  · obtain ⟨m, k, hm, ha⟩ := h
    obtain ⟨j, hj⟩ := Nat.exists_eq_add_of_le (ha ▸ excess_le hm (by omega) : excess a ≤ k)
    have hsplit : a = m * 2 ^ j * 2 ^ excess a := by
      rw [mul_assoc, ← pow_add, Nat.add_comm j, ← hj, ← ha]
    rw [round]
    generalize excess a = s at hsplit
    rw [hsplit, roundHalfEven_mul]

theorem round_eq_self_iff : round a = a ↔ Representable a :=
  ⟨fun h => h ▸ representable_round a, round_of_representable⟩

theorem round_le_two_pow (h : a ≤ 2 ^ n) : round a ≤ 2 ^ n := by
  by_cases hsmall : a < 2 ^ 53
  · rwa [round_of_lt hsmall]
  rcases h.lt_or_eq with hlt | rfl
  · have ha : a ≠ 0 := by omega
    have hlog : a.log2 < n := (Nat.log2_lt ha).mpr hlt
    have hlog' : 52 ≤ a.log2 := by
      have := (Nat.le_log2 ha).mpr (Nat.le_of_not_lt hsmall)
      omega
    have hquotient := (quotient_bounds ha hlog').2
    have hround := (roundHalfEven_bounds a (excess a)).2
    calc round a ≤ 2 ^ 53 * 2 ^ excess a := Nat.mul_le_mul_right _ (by omega)
      _ = 2 ^ (53 + excess a) := (pow_add ..).symm
      _ ≤ 2 ^ n := Nat.pow_le_pow_right (by decide) (by rw [excess]; omega)
  · exact (round_of_representable ⟨1, n, by decide, (one_mul _).symm⟩).le

-- ---------------------------------------------------------------------------
-- Integers
-- ---------------------------------------------------------------------------

/-- The 53 bits of the significand, and 2⁵³ where rounding carries. -/
def leading (a : ℕ) : ℕ :=
  if a.log2 ≤ 52 then a * 2 ^ (52 - a.log2) else roundHalfEven a (a.log2 - 52)

/-- The exponent and the fraction. A carry goes into the exponent, and an exponent that is too
large makes an infinity. -/
def magnitude (a : ℕ) : ℕ :=
  if a = 0 then 0 else min ((a.log2 + 1023) * 2 ^ 52 + (leading a - 2 ^ 52)) (2047 * 2 ^ 52)

def ofInt (n : ℤ) : UInt64 := ((if n < 0 then 2 ^ 63 else 0) + magnitude n.natAbs).toUInt64

def roundInt (n : ℤ) : ℤ := if n < 0 then -(round n.natAbs : ℤ) else round n.natAbs

theorem leading_bounds (ha : a ≠ 0) : 2 ^ 52 ≤ leading a ∧ leading a ≤ 2 ^ 53 := by
  unfold leading
  split
  · rename_i hlog
    have hlow := Nat.log2_self_le ha
    have hhigh := Nat.lt_log2_self (n := a)
    constructor
    · calc 2 ^ 52 = 2 ^ a.log2 * 2 ^ (52 - a.log2) := by rw [← pow_add, Nat.add_sub_cancel' hlog]
        _ ≤ a * 2 ^ (52 - a.log2) := Nat.mul_le_mul_right _ hlow
    · calc a * 2 ^ (52 - a.log2) ≤ 2 ^ (a.log2 + 1) * 2 ^ (52 - a.log2) :=
            Nat.mul_le_mul_right _ hhigh.le
        _ = 2 ^ 53 := by rw [← pow_add]; congr 1; omega
  · have hquotient := quotient_bounds ha (by omega)
    have hround := roundHalfEven_bounds a (a.log2 - 52)
    rw [excess] at hquotient
    omega

theorem toNat_toUInt64 (h : n < 2 ^ 64) : n.toUInt64.toNat = n := by
  rw [Nat.toUInt64_eq, UInt64.toNat_ofNat_of_lt' h]

theorem number_normal {neg : Bool} {e f : ℕ} (he : 0 < e) (he' : e < 2047) (hf : f < 2 ^ 52) :
    number ((if neg then 2 ^ 63 else 0) + (e * 2 ^ 52 + f)).toUInt64 =
      .finite ((if neg then -1 else 1) * ((2 ^ 52 + f : ℕ) * 2 ^ ((e : ℤ) - 1075))) := by
  have hnat := toNat_toUInt64 (n := (if neg then 2 ^ 63 else 0) + (e * 2 ^ 52 + f))
    (by split <;> omega)
  generalize ((if neg then 2 ^ 63 else 0) + (e * 2 ^ 52 + f)).toUInt64 = d at hnat
  have hexponent : exponent d = e := by
    rw [exponent, hnat]
    split <;> omega
  have hfraction : fraction d = f := by
    rw [fraction, hnat]
    split <;> omega
  have hnegative : negative d = neg := by
    rw [negative, hnat]
    cases neg
    · exact decide_eq_false (by simp only [Bool.false_eq_true, if_false]; omega)
    · exact decide_eq_true (by simp only [if_true]; omega)
  have hne : ¬ e = 0 := by omega
  have hlast : ¬ e = 2047 := by omega
  rw [number, significand, scale, hexponent, hfraction, hnegative, if_neg hlast, if_neg hne,
    if_neg hne]

/-- The number of a significand and an exponent, carry or not. -/
theorem number_fields (neg : Bool) {e m : ℕ} (he : 0 < e) (he' : e < 2046) (hm : 2 ^ 52 ≤ m)
    (hm' : m ≤ 2 ^ 53) :
    number ((if neg then 2 ^ 63 else 0) + (e * 2 ^ 52 + (m - 2 ^ 52))).toUInt64 =
      .finite ((if neg then -1 else 1) * (m * 2 ^ ((e : ℤ) - 1075))) := by
  rcases hm'.lt_or_eq with hlt | rfl
  · rw [number_normal he (by omega) (by omega), Nat.add_sub_cancel' hm]
  · have hcarry : e * 2 ^ 52 + (2 ^ 53 - 2 ^ 52) = (e + 1) * 2 ^ 52 + 0 := by omega
    have hscale : ((e + 1 : ℕ) : ℤ) - 1075 = (e : ℤ) - 1075 + 1 := by omega
    rw [hcarry, number_normal (by omega) (by omega) (by decide), hscale, zpow_add_one₀ (by norm_num)]
    congr 1
    push_cast
    ring

theorem leading_value (ha : a ≠ 0) :
    (leading a : ℚ) * 2 ^ (((a.log2 + 1023 : ℕ) : ℤ) - 1075) = round a := by
  have hscale : ((a.log2 + 1023 : ℕ) : ℤ) - 1075 = (a.log2 : ℤ) - 52 := by omega
  rw [hscale, leading]
  split
  · rename_i hlog
    have hsmall : a < 2 ^ 53 := (Nat.log2_lt ha).mp (by omega)
    have hneg : (a.log2 : ℤ) - 52 = -((52 - a.log2 : ℕ) : ℤ) := by omega
    rw [round_of_lt hsmall, hneg, zpow_neg, zpow_natCast, Nat.cast_mul, Nat.cast_pow, Nat.cast_ofNat,
      mul_assoc, mul_inv_cancel₀ (by positivity), mul_one]
  · have hpos : (a.log2 : ℤ) - 52 = ((a.log2 - 52 : ℕ) : ℤ) := by omega
    rw [hpos, zpow_natCast, round, excess, Nat.cast_mul, Nat.cast_pow, Nat.cast_ofNat]

/-- The double of an integer is the integer rounded. -/
theorem number_ofInt (h : n.natAbs.log2 < 1023) : number (ofInt n) = .finite (roundInt n) := by
  rcases Nat.eq_zero_or_pos n.natAbs with hzero | hpos
  · obtain rfl := Int.natAbs_eq_zero.mp hzero
    have hfields : exponent (ofInt 0) = 0 ∧ fraction (ofInt 0) = 0 := by decide
    rw [number, significand, hfields.1, hfields.2]
    simp [roundInt, round_of_lt]
  · have ha : n.natAbs ≠ 0 := hpos.ne'
    obtain ⟨hlow, hhigh⟩ := leading_bounds ha
    have hmagnitude : magnitude n.natAbs =
        (n.natAbs.log2 + 1023) * 2 ^ 52 + (leading n.natAbs - 2 ^ 52) := by
      rw [magnitude, if_neg ha]
      omega
    have hnumber := number_fields (decide (n < 0)) (e := n.natAbs.log2 + 1023) (by omega)
      (by omega) hlow hhigh
    rw [leading_value ha] at hnumber
    rw [ofInt, hmagnitude, roundInt]
    simp only [decide_eq_true_eq] at hnumber
    rw [hnumber]
    split <;> simp

theorem roundInt_eq_self_iff : roundInt n = n ↔ Representable n.natAbs := by
  rw [← round_eq_self_iff, roundInt]
  split <;> omega

theorem natAbs_roundInt (n : ℤ) : (roundInt n).natAbs = round n.natAbs := by
  unfold roundInt
  split <;> omega

theorem roundInt_roundInt (n : ℤ) : roundInt (roundInt n) = roundInt n := by
  rw [roundInt_eq_self_iff, natAbs_roundInt]
  exact representable_round n.natAbs

theorem roundInt_bounds (h : n.natAbs ≤ 2 ^ k) : -2 ^ k ≤ roundInt n ∧ roundInt n ≤ 2 ^ k := by
  have hround : ((roundInt n).natAbs : ℤ) ≤ 2 ^ k := by
    rw [natAbs_roundInt]
    exact_mod_cast round_le_two_pow h
  omega

-- ---------------------------------------------------------------------------
-- Back to integers
-- ---------------------------------------------------------------------------

/-- Toward zero. -/
def truncate (x : ℚ) : ℤ := if 0 ≤ x then ⌊x⌋ else ⌈x⌉

/-- Toward zero into 64 bits, the nearest bound for what is outside, and zero for no number. -/
def Number.toLong : Number → ℤ
  | .nan => 0
  | .infinity negative => if negative then -2 ^ 63 else 2 ^ 63 - 1
  | .finite x => max (-2 ^ 63) (min (2 ^ 63 - 1) (truncate x))

theorem truncate_intCast (n : ℤ) : truncate n = n := by
  unfold truncate
  split
  · exact Int.floor_intCast n
  · exact Int.ceil_intCast n

theorem toLong_intCast {n : ℤ} (hge : -2 ^ 63 ≤ n) (hlt : n < 2 ^ 63) :
    (Number.finite n).toLong = n := by
  rw [Number.toLong, truncate_intCast]
  omega

end Binary64
