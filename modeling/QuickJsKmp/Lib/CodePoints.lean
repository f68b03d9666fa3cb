import Mathlib.Data.List.Chain
import Mathlib.Tactic.Common

/-!
# Code points, UTF-16 units and generalized UTF-8

A text is any sequence of 16-bit units. Reading it pairs a high surrogate with
the low one right after it, and leaves every other surrogate a code point of
its own; generalized UTF-8 encodes a surrogate like any other code point.
-/

namespace CodePoints

@[ext]
structure CodePoint where
  val : ℕ
  isLt : val < 0x110000
  deriving DecidableEq, Repr

def High (n : ℕ) : Prop := 0xD800 ≤ n ∧ n < 0xDC00

def Low (n : ℕ) : Prop := 0xDC00 ≤ n ∧ n < 0xE000

def Surrogate (n : ℕ) : Prop := 0xD800 ≤ n ∧ n < 0xE000

instance (n : ℕ) : Decidable (High n) := inferInstanceAs (Decidable (_ ∧ _))
instance (n : ℕ) : Decidable (Low n) := inferInstanceAs (Decidable (_ ∧ _))
instance (n : ℕ) : Decidable (Surrogate n) := inferInstanceAs (Decidable (_ ∧ _))

theorem High.surrogate (h : High n) : Surrogate n := ⟨h.1, by have := h.2; omega⟩

/-- The bytes of one code point: the leading byte tells the length, and every
later one carries six bits. -/
def utf8 (cp : CodePoint) : List UInt8 :=
  if cp.val < 0x80 then [cp.val.toUInt8]
  else if cp.val < 0x800 then [(0xC0 + cp.val / 64).toUInt8, (0x80 + cp.val % 64).toUInt8]
  else if cp.val < 0x10000 then
    [(0xE0 + cp.val / 4096).toUInt8, (0x80 + cp.val / 64 % 64).toUInt8,
      (0x80 + cp.val % 64).toUInt8]
  else
    [(0xF0 + cp.val / 262144).toUInt8, (0x80 + cp.val / 4096 % 64).toUInt8,
      (0x80 + cp.val / 64 % 64).toUInt8, (0x80 + cp.val % 64).toUInt8]

def utf16 (cp : CodePoint) : List UInt16 :=
  if cp.val < 0x10000 then [cp.val.toUInt16]
  else
    [(0xD800 + (cp.val - 0x10000) / 1024).toUInt16,
      (0xDC00 + (cp.val - 0x10000) % 1024).toUInt16]

def bytes (cps : List CodePoint) : List UInt8 := cps.flatMap utf8

def units (cps : List CodePoint) : List UInt16 := cps.flatMap utf16

@[simp] theorem bytes_nil : bytes [] = [] := rfl

@[simp] theorem bytes_cons (cp : CodePoint) (cps : List CodePoint) :
    bytes (cp :: cps) = utf8 cp ++ bytes cps := rfl

@[simp] theorem units_nil : units [] = [] := rfl

@[simp] theorem units_cons (cp : CodePoint) (cps : List CodePoint) :
    units (cp :: cps) = utf16 cp ++ units cps := rfl

theorem toNat_toUInt8 (h : n < 0x100) : n.toUInt8.toNat = n := by
  rw [Nat.toUInt8_eq, UInt8.toNat_ofNat_of_lt' h]

theorem toNat_toUInt16 (h : n < 0x10000) : n.toUInt16.toNat = n := by
  rw [Nat.toUInt16_eq, UInt16.toNat_ofNat_of_lt' h]

def ofUnit (u : UInt16) : CodePoint := ⟨u.toNat, by have := u.toNat_lt; omega⟩

/-- The code point of a high and a low surrogate. -/
def ofPair (hi lo : UInt16) (h : High hi.toNat ∧ Low lo.toNat) : CodePoint :=
  ⟨0x10000 + (hi.toNat - 0xD800) * 1024 + (lo.toNat - 0xDC00), by
    obtain ⟨⟨_, _⟩, _, _⟩ := h
    omega⟩

theorem ofPair_val (h : High hi.toNat ∧ Low lo.toNat) :
    (ofPair hi lo h).val = 0x10000 + (hi.toNat - 0xD800) * 1024 + (lo.toNat - 0xDC00) := rfl

def codePoints : List UInt16 → List CodePoint
  | [] => []
  | [u] => [ofUnit u]
  | u :: v :: rest =>
    if h : High u.toNat ∧ Low v.toNat then ofPair u v h :: codePoints rest
    else ofUnit u :: codePoints (v :: rest)

/-- No high surrogate stands right before a low one. -/
def Unpaired (cps : List CodePoint) : Prop :=
  cps.IsChain fun a b => ¬ (High a.val ∧ Low b.val)

def Scalar (cps : List CodePoint) : Prop := ∀ cp ∈ cps, ¬ Surrogate cp.val

instance (cps : List CodePoint) : Decidable (Scalar cps) :=
  inferInstanceAs (Decidable (∀ cp ∈ cps, ¬ Surrogate cp.val))

theorem Scalar.unpaired (h : Scalar cps) : Unpaired cps := by
  induction cps with
  | nil => exact .nil
  | cons a rest ih =>
    have hrest : Unpaired rest := ih fun cp hcp => h cp (List.mem_cons_of_mem _ hcp)
    refine List.IsChain.cons hrest ?_
    rintro b - ⟨hhigh, -⟩
    exact h a List.mem_cons_self hhigh.surrogate

-- ---------------------------------------------------------------------------
-- Units and code points
-- ---------------------------------------------------------------------------

theorem utf16_ofUnit (u : UInt16) : utf16 (ofUnit u) = [u] := by
  have hlt : u.toNat < 0x10000 := u.toNat_lt
  simp [utf16, ofUnit, hlt]

theorem utf16_ofPair (h : High hi.toNat ∧ Low lo.toNat) : utf16 (ofPair hi lo h) = [hi, lo] := by
  have ⟨⟨hh₁, hh₂⟩, hl₁, hl₂⟩ := h
  have hge : ¬ (ofPair hi lo h).val < 0x10000 := by rw [ofPair_val]; omega
  have hsub : (ofPair hi lo h).val - 0x10000
      = (hi.toNat - 0xD800) * 1024 + (lo.toNat - 0xDC00) := by rw [ofPair_val]; omega
  have hhi : 0xD800 + ((hi.toNat - 0xD800) * 1024 + (lo.toNat - 0xDC00)) / 1024 = hi.toNat := by
    omega
  have hlo : 0xDC00 + ((hi.toNat - 0xD800) * 1024 + (lo.toNat - 0xDC00)) % 1024 = lo.toNat := by
    omega
  rw [utf16, if_neg hge, hsub, hhi, hlo]
  simp

theorem units_codePoints (text : List UInt16) : units (codePoints text) = text := by
  induction text using codePoints.induct with
  | case1 => rfl
  | case2 u => simp [codePoints, utf16_ofUnit]
  | case3 u v rest h ih => simp [codePoints, h, utf16_ofPair, ih]
  | case4 u v rest h ih => simp [codePoints, h, utf16_ofUnit, ih]

theorem codePoints_head_low (h : cp ∈ (codePoints text).head?) (hlow : Low cp.val) :
    ∃ u, u ∈ text.head? ∧ Low u.toNat := by
  obtain ⟨hlow₁, hlow₂⟩ := hlow
  induction text using codePoints.induct with
  | case1 => cases h
  | case2 u =>
    cases h
    exact ⟨u, rfl, hlow₁, hlow₂⟩
  | case3 u v rest hp ih =>
    simp only [codePoints, hp, and_self, dite_true, List.head?_cons, Option.mem_some] at h
    subst h
    rw [ofPair_val] at hlow₂
    omega
  | case4 u v rest hp ih =>
    simp only [codePoints, hp, dite_false, List.head?_cons, Option.mem_some] at h
    subst h
    exact ⟨u, rfl, hlow₁, hlow₂⟩

theorem codePoints_unpaired (text : List UInt16) : Unpaired (codePoints text) := by
  induction text using codePoints.induct with
  | case1 => exact .nil
  | case2 u => exact .singleton _
  | case3 u v rest h ih =>
    rw [codePoints, dif_pos h]
    refine List.IsChain.cons ih ?_
    rintro b - ⟨hhigh, -⟩
    have := hhigh.2
    rw [ofPair_val] at this
    omega
  | case4 u v rest h ih =>
    rw [codePoints, dif_neg h]
    refine List.IsChain.cons ih ?_
    rintro b hb ⟨hhigh, hlow⟩
    obtain ⟨w, hw, hwlow⟩ := codePoints_head_low hb hlow
    cases hw
    exact h ⟨hhigh, hwlow⟩

/-- The first unit of a code point is a low surrogate only when it is one. -/
theorem utf16_head_low (h : u ∈ (utf16 cp).head?) (hlow : Low u.toNat) : Low cp.val := by
  have hcp := cp.isLt
  obtain ⟨hlow₁, hlow₂⟩ := hlow
  unfold utf16 at h
  split at h
  · cases h
    rw [toNat_toUInt16 (by omega)] at hlow₁ hlow₂
    exact ⟨hlow₁, hlow₂⟩
  · cases h
    rw [toNat_toUInt16 (by omega)] at hlow₁ hlow₂
    omega

theorem utf16_ne_nil (cp : CodePoint) : utf16 cp ≠ [] := by
  unfold utf16
  split <;> simp

theorem units_head (cp : CodePoint) (cps : List CodePoint) :
    (units (cp :: cps)).head? = (utf16 cp).head? := by
  rw [units_cons, List.head?_append_of_ne_nil _ (utf16_ne_nil cp)]

/-- Reading the units of a code point gives it back, unless it is a high
surrogate and a low one follows. -/
theorem codePoints_append (cp : CodePoint) (text : List UInt16)
    (h : High cp.val → ∀ u ∈ text.head?, ¬ Low u.toNat) :
    codePoints (utf16 cp ++ text) = cp :: codePoints text := by
  have hcp := cp.isLt
  unfold utf16
  split
  next hlt =>
    have hval : cp.val.toUInt16.toNat = cp.val := by
      rw [toNat_toUInt16 (by omega)]
    have hof : ofUnit cp.val.toUInt16 = cp := CodePoint.ext hval
    cases text with
    | nil => simp [codePoints, hof]
    | cons v rest =>
      have hno : ¬ (High cp.val.toUInt16.toNat ∧ Low v.toNat) := by
        rw [hval]
        exact fun hp => h hp.1 v rfl hp.2
      simp only [List.cons_append, List.nil_append, codePoints, hno, dite_false, hof]
  next hge =>
    have hhi : (0xD800 + (cp.val - 0x10000) / 1024).toUInt16.toNat
        = 0xD800 + (cp.val - 0x10000) / 1024 := by
      rw [toNat_toUInt16 (by omega)]
    have hlo : (0xDC00 + (cp.val - 0x10000) % 1024).toUInt16.toNat
        = 0xDC00 + (cp.val - 0x10000) % 1024 := by
      rw [toNat_toUInt16 (by omega)]
    have hpair : High (0xD800 + (cp.val - 0x10000) / 1024).toUInt16.toNat ∧
        Low (0xDC00 + (cp.val - 0x10000) % 1024).toUInt16.toNat := by
      rw [hhi, hlo]
      exact ⟨⟨by omega, by omega⟩, by omega, by omega⟩
    have hof : ofPair _ _ hpair = cp := by
      apply CodePoint.ext
      rw [ofPair_val, hhi, hlo]
      omega
    simp only [List.cons_append, List.nil_append, codePoints, hpair, and_self, dite_true, hof]

theorem codePoints_units (h : Unpaired cps) : codePoints (units cps) = cps := by
  induction cps with
  | nil => rfl
  | cons cp rest ih =>
    obtain ⟨hnext, hrest⟩ := List.isChain_cons.mp h
    rw [units_cons, codePoints_append, ih hrest]
    intro hhigh u hu hlow
    cases rest with
    | nil => cases hu
    | cons next tail =>
      rw [units_head] at hu
      exact hnext next rfl ⟨hhigh, utf16_head_low hu hlow⟩

-- ---------------------------------------------------------------------------
-- Units that are a pair
-- ---------------------------------------------------------------------------

/-- The one text ends with a high surrogate, and the other begins with a low one. -/
def Halves (first rest : List UInt16) : Prop :=
  (∃ u ∈ first.getLast?, High u.toNat) ∧ ∃ v ∈ rest.head?, Low v.toNat

theorem not_halves_nil (rest : List UInt16) : ¬ Halves [] rest := by
  rintro ⟨⟨u, hu, -⟩, -⟩
  cases hu

theorem Halves.longer (h : Halves first rest) (hrest : rest <+: rest') : Halves first rest' := by
  obtain ⟨hhigh, v, hv, hlow⟩ := h
  obtain ⟨back, rfl⟩ := List.head?_eq_some_iff.mp hv
  obtain ⟨more, rfl⟩ := hrest
  exact ⟨hhigh, v, rfl, hlow⟩

/-- A code point that is last and is a high surrogate is the last unit. -/
theorem codePoints_last_high (h : cp ∈ (codePoints text).getLast?) (hhigh : High cp.val) :
    ∃ u ∈ text.getLast?, High u.toNat := by
  induction text using codePoints.induct with
  | case1 => cases h
  | case2 u =>
    cases h
    exact ⟨u, rfl, hhigh⟩
  | case3 u v rest hp ih =>
    rw [codePoints, dif_pos hp, List.getLast?_cons] at h
    cases hlast : (codePoints rest).getLast? with
    | none =>
      rw [hlast, Option.getD_none, Option.mem_some_iff] at h
      subst h
      have hval := hhigh.2
      rw [ofPair_val] at hval
      omega
    | some last =>
      rw [hlast] at h
      cases h
      obtain ⟨w, hw, hwhigh⟩ := ih hlast
      refine ⟨w, ?_, hwhigh⟩
      rw [List.getLast?_cons, List.getLast?_cons, hw]
      rfl
  | case4 u v rest hp ih =>
    rw [codePoints, dif_neg hp, List.getLast?_cons] at h
    cases hlast : (codePoints (v :: rest)).getLast? with
    | none =>
      have hnil := List.getLast?_eq_none_iff.mp hlast
      have hunits := units_codePoints (v :: rest)
      rw [hnil] at hunits
      cases hunits
    | some last =>
      rw [hlast] at h
      cases h
      obtain ⟨w, hw, hwhigh⟩ := ih hlast
      refine ⟨w, ?_, hwhigh⟩
      rw [List.getLast?_cons, hw]
      rfl

/-- Texts that do not divide a pair are read one after the other. -/
theorem codePoints_append_of (h : ¬ Halves first rest) :
    codePoints (first ++ rest) = codePoints first ++ codePoints rest := by
  have hunpaired : Unpaired (codePoints first ++ codePoints rest) := by
    refine List.isChain_append.mpr ⟨codePoints_unpaired first, codePoints_unpaired rest, ?_⟩
    rintro x hx y hy ⟨hhigh, hlow⟩
    exact h ⟨codePoints_last_high hx hhigh, codePoints_head_low hy hlow⟩
  have hunits : units (codePoints first ++ codePoints rest) = first ++ rest := by
    rw [units, List.flatMap_append]
    exact congrArg₂ _ (units_codePoints first) (units_codePoints rest)
  rw [← hunits, codePoints_units hunpaired]

/-- A front part of the units is one of the code points unless it ends inside of a pair. -/
theorem codePoints_prefix_iff :
    codePoints first <+: codePoints text ↔
      first <+: text ∧ ¬ Halves first (text.drop first.length) := by
  constructor
  · rintro ⟨cps, hcps⟩
    have hunits : first ++ units cps = text := by
      have h := congrArg units hcps
      rw [units, List.flatMap_append] at h
      exact (congrArg (· ++ units cps) (units_codePoints first)).symm.trans
        (h.trans (units_codePoints text))
    refine ⟨⟨units cps, hunits⟩, ?_⟩
    rw [← hunits, List.drop_left]
    rintro ⟨⟨u, hu, hhigh⟩, v, hv, hlow⟩
    -- the pair is one code point of the text, and its high surrogate another one
    obtain ⟨front, rfl⟩ := List.getLast?_eq_some_iff.mp hu
    obtain ⟨back, hback⟩ := List.head?_eq_some_iff.mp hv
    have hfront (rest : List UInt16) (hrest : ∀ w ∈ rest.head?, w = u) :
        codePoints (front ++ rest) = codePoints front ++ codePoints rest := by
      refine codePoints_append_of ?_
      rintro ⟨-, w, hw, hwlow⟩
      rw [hrest w hw] at hwlow
      have := hwlow.1
      have := hhigh.2
      omega
    have hpair : codePoints (u :: v :: back) = ofPair u v ⟨hhigh, hlow⟩ :: codePoints back := by
      rw [codePoints, dif_pos ⟨hhigh, hlow⟩]
    rw [← hunits, hback, List.append_assoc, List.singleton_append,
      hfront [u] (by simp), hfront (u :: v :: back) (by simp), List.append_assoc, hpair] at hcps
    obtain ⟨hhead, -⟩ := List.cons.inj (List.append_cancel_left hcps)
    have hval := congrArg CodePoint.val hhead
    have hu := u.toNat_lt
    rw [ofPair_val] at hval
    simp only [ofUnit] at hval
    omega
  · rintro ⟨⟨rest, rfl⟩, hhalves⟩
    rw [List.drop_left] at hhalves
    rw [codePoints_append_of hhalves]
    exact List.prefix_append ..

end CodePoints
