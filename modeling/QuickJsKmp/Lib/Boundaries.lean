import Mathlib.Algebra.BigOperators.Group.List.Basic
import Mathlib.Algebra.GroupWithZero.Nat
import QuickJsKmp.Lib.CodePoints

/-!
# Where a text may be cut

The bytes of a code point are a leading byte, which tells how many there are, and the bytes
that continue it. What is left of a text that is cut before such a byte is no text any more.
-/

namespace CodePoints

-- ---------------------------------------------------------------------------
-- Leading and continuing bytes
-- ---------------------------------------------------------------------------

def Continuing (b : UInt8) : Prop := 0x80 ≤ b.toNat ∧ b.toNat < 0xC0

instance (b : UInt8) : Decidable (Continuing b) := inferInstanceAs (Decidable (_ ∧ _))

/-- The length that a leading byte tells. -/
def weight (b : UInt8) : ℕ :=
  if b.toNat < 0x80 then 1
  else if b.toNat < 0xC0 then 0
  else if b.toNat < 0xE0 then 2
  else if b.toNat < 0xF0 then 3
  else 4

theorem weight_continuing (h : Continuing b) : weight b = 0 := by
  rw [weight, if_neg (by have := h.1; omega), if_pos h.2]

theorem continuing_tail (n : ℕ) : Continuing (0x80 + n % 64).toUInt8 := by
  unfold Continuing
  rw [toNat_toUInt8 (by omega)]
  omega

theorem weight_two (h : n < 32) : weight (0xC0 + n).toUInt8 = 2 := by
  rw [weight, toNat_toUInt8 (by omega), if_neg (by omega), if_neg (by omega), if_pos (by omega)]

theorem weight_three (h : n < 16) : weight (0xE0 + n).toUInt8 = 3 := by
  rw [weight, toNat_toUInt8 (by omega), if_neg (by omega), if_neg (by omega), if_neg (by omega),
    if_pos (by omega)]

theorem weight_four (h : n < 8) : weight (0xF0 + n).toUInt8 = 4 := by
  rw [weight, toNat_toUInt8 (by omega), if_neg (by omega), if_neg (by omega), if_neg (by omega),
    if_neg (by omega)]

theorem utf8_shape (cp : CodePoint) :
    ∃ b tail, utf8 cp = b :: tail ∧ weight b = tail.length + 1 ∧ ∀ c ∈ tail, Continuing c := by
  have hcp := cp.isLt
  unfold utf8
  split
  · refine ⟨_, _, rfl, ?_, by simp⟩
    rw [weight, toNat_toUInt8 (by omega), if_pos (by omega)]
    rfl
  split
  · refine ⟨_, _, rfl, weight_two (by omega), ?_⟩
    exact List.forall_mem_singleton.mpr (continuing_tail _)
  split
  · refine ⟨_, _, rfl, weight_three (by omega), ?_⟩
    exact List.forall_mem_cons.mpr
      ⟨continuing_tail _, List.forall_mem_singleton.mpr (continuing_tail _)⟩
  · refine ⟨_, _, rfl, weight_four (by omega), ?_⟩
    exact List.forall_mem_cons.mpr ⟨continuing_tail _, List.forall_mem_cons.mpr
      ⟨continuing_tail _, List.forall_mem_singleton.mpr (continuing_tail _)⟩⟩

theorem ascii_utf8 (h : utf8 cp = [b]) : b.toNat < 0x80 ∧ b.toNat = cp.val := by
  have hcp := cp.isLt
  unfold utf8 at h
  split at h
  · obtain ⟨rfl, -⟩ := List.cons.inj h
    rw [toNat_toUInt8 (by omega)]
    exact ⟨‹_›, rfl⟩
  all_goals
    repeat' split at h
    all_goals cases h

theorem utf8_weight (cp : CodePoint) : ((utf8 cp).map weight).sum = (utf8 cp).length := by
  obtain ⟨b, tail, hutf8, hweight, htail⟩ := utf8_shape cp
  have hzero : (tail.map weight).sum = 0 :=
    List.sum_eq_zero fun w hw => by
      obtain ⟨c, hc, rfl⟩ := List.mem_map.mp hw
      exact weight_continuing (htail c hc)
  rw [hutf8, List.map_cons, List.sum_cons, hzero, hweight]
  rfl

theorem bytes_weight (cps : List CodePoint) :
    ((bytes cps).map weight).sum = (bytes cps).length := by
  induction cps with
  | nil => rfl
  | cons cp cps ih =>
    rw [bytes_cons, List.map_append, List.sum_append, ih, utf8_weight, List.length_append]

theorem bytes_append (a b : List CodePoint) : bytes (a ++ b) = bytes a ++ bytes b :=
  List.flatMap_append

theorem units_append (a b : List CodePoint) : units (a ++ b) = units a ++ units b :=
  List.flatMap_append

-- ---------------------------------------------------------------------------
-- Cuts
-- ---------------------------------------------------------------------------

/-- The bytes can be cut after `n`. -/
def Whole (n : ℕ) (b : List UInt8) : Prop := ∀ c ∈ b[n]?, ¬ Continuing c

instance (n : ℕ) (b : List UInt8) : Decidable (Whole n b) :=
  decidable_of_iff (b[n]?.all fun c => ¬ Continuing c) (by rw [Whole]; cases b[n]? <;> simp)

/-- A cut leaves whole code points, and perhaps the front part of another one. -/
theorem take_cases (cps : List CodePoint) (n : ℕ) :
    (∃ first rest, cps = first ++ rest ∧ (bytes cps).take n = bytes first) ∨
      ∃ first cp rest k, cps = first ++ cp :: rest ∧ 0 < k ∧ k < (utf8 cp).length ∧
        n = (bytes first).length + k ∧ (bytes cps).take n = bytes first ++ (utf8 cp).take k := by
  induction cps generalizing n with
  | nil => exact .inl ⟨[], [], rfl, by simp⟩
  | cons cp cps ih =>
    rcases Nat.eq_zero_or_pos n with rfl | hpos
    · exact .inl ⟨[], cp :: cps, rfl, by simp⟩
    by_cases hlt : n < (utf8 cp).length
    · refine .inr ⟨[], cp, cps, n, rfl, hpos, hlt, by simp, ?_⟩
      rw [bytes_cons, List.take_append_of_le_length hlt.le, bytes_nil, List.nil_append]
    · have hn : n = (utf8 cp).length + (n - (utf8 cp).length) := by omega
      have htake :
          (bytes (cp :: cps)).take n = utf8 cp ++ (bytes cps).take (n - (utf8 cp).length) := by
        rw [bytes_cons, List.take_append, List.take_of_length_le (by omega)]
      rcases ih (n - (utf8 cp).length) with ⟨first, rest, rfl, hfirst⟩ | ⟨first, c, rest, k, rfl,
        hk, hlt', hn', hfirst⟩
      · exact .inl ⟨cp :: first, rest, rfl, by rw [htake, hfirst, bytes_cons]⟩
      · refine .inr ⟨cp :: first, c, rest, k, rfl, hk, hlt', ?_, ?_⟩
        · rw [bytes_cons, List.length_append]
          omega
        · rw [htake, hfirst, bytes_cons, List.append_assoc]

/-- After whole code points comes a leading byte, or nothing. -/
theorem whole_bytes (first rest : List CodePoint) :
    Whole (bytes first).length (bytes (first ++ rest)) := by
  intro c hc
  rw [bytes_append, List.getElem?_append_right (Nat.le_refl _), Nat.sub_self] at hc
  cases rest with
  | nil => cases hc
  | cons cp rest =>
    obtain ⟨b, tail, hutf8, hweight, -⟩ := utf8_shape cp
    rw [bytes_cons, hutf8] at hc
    cases hc
    intro hcontinuing
    rw [weight_continuing hcontinuing] at hweight
    omega

theorem getElem?_inside (first rest : List CodePoint) (cp : CodePoint) (hk : 0 < k)
    (hlt : k < (utf8 cp).length) :
    ∃ c, (bytes (first ++ cp :: rest))[(bytes first).length + k]? = some c ∧ Continuing c := by
  obtain ⟨b, tail, hutf8, -, htail⟩ := utf8_shape cp
  obtain ⟨k, rfl⟩ := Nat.exists_eq_succ_of_ne_zero hk.ne'
  rw [hutf8] at hlt
  have hlt' : k < tail.length := Nat.lt_of_succ_lt_succ hlt
  refine ⟨tail[k], ?_, htail _ (List.getElem_mem hlt')⟩
  rw [bytes_append, List.getElem?_append_right (Nat.le_add_right _ _), Nat.add_sub_cancel_left,
    bytes_cons, hutf8, List.cons_append, List.getElem?_cons_succ, List.getElem?_append_left hlt',
    List.getElem?_eq_getElem hlt']

theorem not_whole_inside (first rest : List CodePoint) (cp : CodePoint) (hk : 0 < k)
    (hlt : k < (utf8 cp).length) : ¬ Whole ((bytes first).length + k)
    (bytes (first ++ cp :: rest)) := by
  obtain ⟨c, hc, hcontinuing⟩ := getElem?_inside first rest cp hk hlt
  exact fun h => h c hc hcontinuing

/-- The encoding of some code points. -/
def Encoded (b : List UInt8) : Prop := ∃ cps, b = bytes cps

/-- The weights of a text that is cut inside of a code point are too large for it. -/
theorem not_encoded_inside (first : List CodePoint) (cp : CodePoint) (hk : 0 < k)
    (hlt : k < (utf8 cp).length) : ¬ Encoded (bytes first ++ (utf8 cp).take k) := by
  rintro ⟨cps, hcps⟩
  have hsum := bytes_weight cps
  obtain ⟨b, tail, hutf8, hweight, -⟩ := utf8_shape cp
  obtain ⟨k, rfl⟩ := Nat.exists_eq_succ_of_ne_zero hk.ne'
  rw [hutf8] at hcps hlt
  rw [← hcps, List.map_append, List.sum_append, bytes_weight, List.take_succ_cons, List.map_cons,
    List.sum_cons, hweight, List.length_append, List.length_cons, List.length_take] at hsum
  simp only [List.length_cons] at hlt
  omega

/-- Where a text can be cut, whole code points are left. -/
theorem whole_iff (cps : List CodePoint) (n : ℕ) :
    Whole n (bytes cps) ↔ ∃ first rest, cps = first ++ rest ∧ (bytes cps).take n = bytes first := by
  constructor
  · intro h
    rcases take_cases cps n with hleft | ⟨first, cp, rest, k, rfl, hk, hlt, rfl, -⟩
    · exact hleft
    · exact absurd h (not_whole_inside first rest cp hk hlt)
  · rintro ⟨first, rest, rfl, htake⟩
    by_cases hn : n < (bytes (first ++ rest)).length
    · have hlength : n = (bytes first).length := by
        rw [← htake, List.length_take]
        omega
      rw [hlength]
      exact whole_bytes first rest
    · intro c hc
      rw [List.getElem?_eq_none (by omega)] at hc
      cases hc

theorem encoded_take_iff (cps : List CodePoint) (n : ℕ) :
    Encoded ((bytes cps).take n) ↔ Whole n (bytes cps) := by
  rw [whole_iff]
  constructor
  · intro hencoded
    rcases take_cases cps n with hleft | ⟨first, cp, rest, k, -, hk, hlt, -, htake⟩
    · exact hleft
    · rw [htake] at hencoded
      exact absurd hencoded (not_encoded_inside first cp hk hlt)
  · rintro ⟨first, rest, -, htake⟩
    exact ⟨first, htake⟩

-- ---------------------------------------------------------------------------
-- One encoding, one text
-- ---------------------------------------------------------------------------

theorem byte_injective (hm : m < 0x100) (hn : n < 0x100) (h : m.toUInt8 = n.toUInt8) : m = n := by
  rw [← toNat_toUInt8 hm, ← toNat_toUInt8 hn, h]

theorem utf8_injective {a b : CodePoint} (h : utf8 a = utf8 b) : a = b := by
  have ha := a.isLt
  have hb := b.isLt
  refine CodePoint.ext ?_
  unfold utf8 at h
  repeat' split at h
  -- encodings of different lengths differ
  all_goals simp only [List.cons.injEq, reduceCtorEq, and_false, and_true] at h
  · exact byte_injective (by omega) (by omega) h
  · have h₁ := byte_injective (by omega) (by omega) h.1
    have h₂ := byte_injective (by omega) (by omega) h.2
    omega
  · have h₁ := byte_injective (by omega) (by omega) h.1
    have h₂ := byte_injective (by omega) (by omega) h.2.1
    have h₃ := byte_injective (by omega) (by omega) h.2.2
    omega
  · have h₁ := byte_injective (by omega) (by omega) h.1
    have h₂ := byte_injective (by omega) (by omega) h.2.1
    have h₃ := byte_injective (by omega) (by omega) h.2.2.1
    have h₄ := byte_injective (by omega) (by omega) h.2.2.2
    omega

theorem bytes_injective {a b : List CodePoint} (h : bytes a = bytes b) : a = b := by
  induction a generalizing b with
  | nil =>
    cases b with
    | nil => rfl
    | cons cp b =>
      obtain ⟨c, tail, hutf8, -⟩ := utf8_shape cp
      rw [bytes_nil, bytes_cons, hutf8] at h
      cases h
  | cons cp a ih =>
    cases b with
    | nil =>
      obtain ⟨c, tail, hutf8, -⟩ := utf8_shape cp
      rw [bytes_nil, bytes_cons, hutf8] at h
      cases h
    | cons cp' b =>
      obtain ⟨c, tail, hutf8, hweight, -⟩ := utf8_shape cp
      obtain ⟨c', tail', hutf8', hweight', -⟩ := utf8_shape cp'
      rw [bytes_cons, bytes_cons] at h
      have hlength : (utf8 cp).length = (utf8 cp').length := by
        rw [hutf8, hutf8'] at h ⊢
        obtain ⟨rfl, -⟩ := List.cons.inj h
        rw [List.length_cons, List.length_cons, ← hweight, ← hweight']
      obtain ⟨hhead, htail⟩ := List.append_inj h hlength
      rw [utf8_injective hhead, ih htail]

/-- A front part that ends where a code point ends. -/
def TextPrefix (p q : List UInt8) : Prop :=
  ∃ first rest, q = bytes (first ++ rest) ∧ p = bytes first

theorem textPrefix_take_iff (cps : List CodePoint) (n : ℕ) :
    TextPrefix ((bytes cps).take n) (bytes cps) ↔ Whole n (bytes cps) := by
  constructor
  · rintro ⟨first, rest, -, htake⟩
    exact (encoded_take_iff cps n).mp ⟨first, htake⟩
  · intro h
    obtain ⟨first, rest, rfl, htake⟩ := (whole_iff cps n).mp h
    exact ⟨first, rest, rfl, htake⟩

/-- With another code point in the place of the next one. -/
theorem textPrefix_next_iff (first rest : List CodePoint) (cp other : CodePoint) :
    TextPrefix (bytes (first ++ [other])) (bytes (first ++ cp :: rest)) ↔ other = cp := by
  constructor
  · rintro ⟨front, back, hbytes, hfront⟩
    have hfront' := bytes_injective hfront
    have hall := bytes_injective hbytes
    rw [← hfront', List.append_assoc] at hall
    have hnext := List.append_cancel_left hall
    exact (List.cons.inj hnext).1.symm
  · rintro rfl
    exact ⟨first ++ [other], rest, by simp, rfl⟩

/-- The first `n` bytes of the text end inside of a `c`. -/
def EndsInside (c : CodePoint) (n : ℕ) (b : List UInt8) : Prop :=
  ∃ first rest, b = bytes (first ++ c :: rest) ∧ (bytes first).length < n ∧
    n < (bytes first).length + (utf8 c).length

/-- There is only one code point that a cut is inside of. -/
theorem endsInside_iff (first rest : List CodePoint) (cp c : CodePoint) (hk : 0 < k)
    (hlt : k < (utf8 cp).length) :
    EndsInside c ((bytes first).length + k) (bytes (first ++ cp :: rest)) ↔ cp = c := by
  constructor
  · rintro ⟨first', rest', hbytes, hlo, hhi⟩
    rcases List.append_eq_append_iff.mp (bytes_injective hbytes) with ⟨d, rfl, hd⟩ | ⟨d, rfl, hd⟩
    · cases d with
      | nil => exact (List.cons.inj hd).1
      | cons x d =>
        -- then the other one begins too late
        obtain ⟨rfl, -⟩ := List.cons.inj hd
        rw [bytes_append, bytes_cons, List.length_append, List.length_append] at hlo
        omega
    · cases d with
      | nil => exact (List.cons.inj hd).1.symm
      | cons x d =>
        -- then the other one ends too early
        obtain ⟨rfl, -⟩ := List.cons.inj hd
        rw [bytes_append, bytes_cons, List.length_append, List.length_append] at hhi
        omega
  · rintro rfl
    exact ⟨first, rest, rfl, by omega, by omega⟩

end CodePoints
