import Mathlib.Algebra.Group.Nat.Defs
import QuickJsKmp.Lib.CodePoints
import QuickJsKmp.Lib.Piecewise

/-!
# The replacing UTF-8 decoder

UTF-8 is decoded sequence by sequence. Where the bytes are not well formed, the
longest run of them that a code point begins with, or else a single byte, is
replaced by U+FFFD.
-/

namespace CodePoints

open Piecewise

/-- For a leading byte, how many bytes follow it and the bounds of the first of these. Surrogates,
overlong forms and what is above U+10FFFF are excluded by these bounds. -/
def lead (b : ℕ) : Option (ℕ × ℕ × ℕ) :=
  if b < 0xC2 then none
  else if b < 0xE0 then some (1, 0x80, 0xBF)
  else if b = 0xE0 then some (2, 0xA0, 0xBF)
  else if b = 0xED then some (2, 0x80, 0x9F)
  else if b < 0xF0 then some (2, 0x80, 0xBF)
  else if b = 0xF0 then some (3, 0x90, 0xBF)
  else if b < 0xF4 then some (3, 0x80, 0xBF)
  else if b = 0xF4 then some (3, 0x80, 0x8F)
  else none

/-- How many of at most `n` bytes are there and continue the sequence. -/
def tails : ℕ → ℕ → ℕ → List UInt8 → ℕ
  | 0, _, _, _ => 0
  | _ + 1, _, _, [] => 0
  | n + 1, lo, hi, b :: rest =>
    if lo ≤ b.toNat ∧ b.toNat ≤ hi then 1 + tails n 0x80 0xBF rest else 0

/-- The number in a leading byte and the six bits of each byte after it. -/
def number (b : ℕ) (rest : List UInt8) : ℕ :=
  rest.foldl (fun v x => v * 64 + x.toNat % 64) (b % 2 ^ (6 - rest.length))

def unitsOf (n : ℕ) : List UInt16 :=
  if n < 0x10000 then [n.toUInt16]
  else [(0xD800 + (n - 0x10000) / 1024).toUInt16, (0xDC00 + (n - 0x10000) % 1024).toUInt16]

/-- The units of the first piece, and the bytes that it takes after its first. -/
def readUtf8 : Reader UInt8 UInt16 := fun b rest =>
  if b.toNat < 0x80 then ([b.toNat.toUInt16], 0)
  else
    match lead b.toNat with
    | none => ([0xFFFD], 0)
    | some (n, lo, hi) =>
      if tails n lo hi rest = n then (unitsOf (number b.toNat (rest.take n)), n)
      else ([0xFFFD], tails n lo hi rest)

def decodeUtf8 : List UInt8 → List UInt16 := run readUtf8

-- ---------------------------------------------------------------------------
-- The reader takes no more than it looks at
-- ---------------------------------------------------------------------------

theorem tails_le_min (n lo hi : ℕ) (rest : List UInt8) :
    tails n lo hi rest ≤ min n rest.length := by
  induction n generalizing lo hi rest with
  | zero => simp [tails]
  | succ n ih =>
    cases rest with
    | nil => simp [tails]
    | cons b rest =>
      rw [tails, List.length_cons]
      have := ih 0x80 0xBF rest
      split <;> omega

theorem tails_le (n lo hi : ℕ) (rest : List UInt8) : tails n lo hi rest ≤ n :=
  (tails_le_min ..).trans (Nat.min_le_left ..)

theorem tails_le_length (n lo hi : ℕ) (rest : List UInt8) : tails n lo hi rest ≤ rest.length :=
  (tails_le_min ..).trans (Nat.min_le_right ..)

theorem tails_take (h : tails n lo hi rest ≤ m) :
    tails n lo hi (rest.take m) = tails n lo hi rest := by
  induction n generalizing lo hi rest m with
  | zero => simp [tails]
  | succ n ih =>
    cases rest with
    | nil => simp
    | cons b rest =>
      rw [tails] at h
      cases m with
      | zero =>
        rw [List.take_zero, tails, tails]
        split at h
        · omega
        · rw [if_neg ‹_›]
      | succ m =>
        rw [List.take_succ_cons, tails, tails]
        split at h
        · rw [if_pos ‹_›, if_pos ‹_›, ih (by omega)]
        · rw [if_neg ‹_›, if_neg ‹_›]

theorem local_readUtf8 : Local readUtf8 where
  within := by
    intro b rest
    unfold readUtf8
    split
    · exact Nat.zero_le _
    · split
      · exact Nat.zero_le _
      · rename_i n lo hi _
        have := tails_le_length n lo hi rest
        split
        · rename_i h
          exact h ▸ this
        · exact this
  take := by
    intro b rest m h
    unfold readUtf8 at h ⊢
    split
    · rfl
    · rw [if_neg ‹_›] at h
      split at h
      · rfl
      · rename_i n lo hi _
        split at h
        · rename_i hfull
          have hle : tails n lo hi rest ≤ m := hfull.trans_le h
          rw [tails_take hle, List.take_take, Nat.min_eq_left (hfull ▸ hle)]
        · rw [tails_take h]
          rename_i hcut
          rw [if_neg hcut, if_neg hcut]

-- ---------------------------------------------------------------------------
-- Well-formed sequences
-- ---------------------------------------------------------------------------

/-- The second byte of a sequence that begins with this one. -/
def Second (b x : ℕ) : Prop :=
  0x80 ≤ x ∧ x ≤ 0xBF ∧ (b = 0xE0 → 0xA0 ≤ x) ∧ (b = 0xED → x ≤ 0x9F) ∧ (b = 0xF0 → 0x90 ≤ x) ∧
    (b = 0xF4 → x ≤ 0x8F)

def following (b : ℕ) : ℕ := if b < 0xE0 then 1 else if b < 0xF0 then 2 else 3

theorem lead_eq_some (hge : 0xC2 ≤ b) (hlt : b < 0xF5) :
    ∃ lo hi, lead b = some (following b, lo, hi) ∧ ∀ x, lo ≤ x ∧ x ≤ hi ↔ Second b x := by
  unfold lead following Second
  repeat' split
  all_goals first | omega | exact ⟨_, _, rfl, fun x => by omega⟩

theorem lead_eq_none (h : b < 0xC2 ∨ 0xF5 ≤ b) : lead b = none := by
  unfold lead
  repeat' split
  all_goals first | rfl | omega

theorem tails_cons (hb : lo ≤ b.toNat ∧ b.toNat ≤ hi) :
    tails (n + 1) lo hi (b :: rest) = 1 + tails n 0x80 0xBF rest := by
  rw [tails, if_pos hb]

theorem tails_pos : 0 < tails n lo hi rest ↔
    0 < n ∧ ∃ b ∈ rest.head?, lo ≤ b.toNat ∧ b.toNat ≤ hi := by
  cases n with
  | zero => simp [tails]
  | succ n =>
    cases rest with
    | nil => simp [tails]
    | cons b rest =>
      rw [tails]
      split
      · simp [*, Nat.add_comm 1]
      · simp [*]

theorem toUInt8_eq {b : UInt8} (h : n = b.toNat) : n.toUInt8 = b := by
  subst h
  exact UInt8.ofNat_toNat

def Tail (x : ℕ) : Prop := 0x80 ≤ x ∧ x ≤ 0xBF

/-- The bytes that one code point is encoded as, a surrogate never being one. -/
inductive Sequence (cp : CodePoint) (b : UInt8) : List UInt8 → Prop
  | one (hb : b.toNat < 0x80) (val : cp.val = b.toNat) : Sequence cp b []
  | two (hge : 0xC2 ≤ b.toNat) (hlt : b.toNat < 0xE0) (h₁ : Second b.toNat b₁.toNat)
      (val : cp.val = b.toNat % 32 * 64 + b₁.toNat % 64) : Sequence cp b [b₁]
  | three (hge : 0xE0 ≤ b.toNat) (hlt : b.toNat < 0xF0) (h₁ : Second b.toNat b₁.toNat)
      (h₂ : Tail b₂.toNat)
      (val : cp.val = (b.toNat % 16 * 64 + b₁.toNat % 64) * 64 + b₂.toNat % 64) :
      Sequence cp b [b₁, b₂]
  | four (hge : 0xF0 ≤ b.toNat) (hlt : b.toNat < 0xF5) (h₁ : Second b.toNat b₁.toNat)
      (h₂ : Tail b₂.toNat) (h₃ : Tail b₃.toNat)
      (val : cp.val =
        ((b.toNat % 8 * 64 + b₁.toNat % 64) * 64 + b₂.toNat % 64) * 64 + b₃.toNat % 64) :
      Sequence cp b [b₁, b₂, b₃]

theorem Sequence.utf8 (h : Sequence cp b tail) : utf8 cp = b :: tail ∧ ¬ Surrogate cp.val := by
  cases h with
  | one hb val =>
    refine ⟨?_, fun ⟨_, _⟩ => by omega⟩
    rw [CodePoints.utf8, if_pos (by omega), toUInt8_eq val]
  | @two b₁ hge hlt h₁ val =>
    obtain ⟨hlow, hhigh, -⟩ := h₁
    refine ⟨?_, fun ⟨_, _⟩ => by omega⟩
    rw [CodePoints.utf8, if_neg (by omega), if_pos (by omega),
      toUInt8_eq (show 0xC0 + cp.val / 64 = b.toNat by omega),
      toUInt8_eq (show 0x80 + cp.val % 64 = b₁.toNat by omega)]
  | @three b₁ b₂ hge hlt h₁ h₂ val =>
    obtain ⟨hlow, hhigh, hshort, hsurrogate, -⟩ := h₁
    obtain ⟨hlow₂, hhigh₂⟩ := h₂
    refine ⟨?_, fun ⟨_, _⟩ => by omega⟩
    rw [CodePoints.utf8, if_neg (by omega), if_neg (by omega), if_pos (by omega),
      toUInt8_eq (show 0xE0 + cp.val / 4096 = b.toNat by omega),
      toUInt8_eq (show 0x80 + cp.val / 64 % 64 = b₁.toNat by omega),
      toUInt8_eq (show 0x80 + cp.val % 64 = b₂.toNat by omega)]
  | @four b₁ b₂ b₃ hge hlt h₁ h₂ h₃ val =>
    obtain ⟨hlow, hhigh, -, -, hshort, hlarge⟩ := h₁
    obtain ⟨hlow₂, hhigh₂⟩ := h₂
    obtain ⟨hlow₃, hhigh₃⟩ := h₃
    refine ⟨?_, fun ⟨_, _⟩ => by omega⟩
    rw [CodePoints.utf8, if_neg (by omega), if_neg (by omega), if_neg (by omega),
      toUInt8_eq (show 0xF0 + cp.val / 262144 = b.toNat by omega),
      toUInt8_eq (show 0x80 + cp.val / 4096 % 64 = b₁.toNat by omega),
      toUInt8_eq (show 0x80 + cp.val / 64 % 64 = b₂.toNat by omega),
      toUInt8_eq (show 0x80 + cp.val % 64 = b₃.toNat by omega)]

theorem sequence_of_utf8 (h : utf8 cp = b :: tail) (hs : ¬ Surrogate cp.val) :
    Sequence cp b tail := by
  have hcp := cp.isLt
  have hs' : ¬ (0xD800 ≤ cp.val ∧ cp.val < 0xE000) := hs
  unfold utf8 at h
  split at h
  · obtain ⟨rfl, rfl⟩ := List.cons_eq_cons.mp h
    have hb := toNat_toUInt8 (n := cp.val) (by omega)
    exact .one (by omega) hb.symm
  split at h
  · obtain ⟨rfl, rfl⟩ := List.cons_eq_cons.mp h
    have hb := toNat_toUInt8 (n := 0xC0 + cp.val / 64) (by omega)
    have h₁ := toNat_toUInt8 (n := 0x80 + cp.val % 64) (by omega)
    refine .two (by omega) (by omega) ?_ (by omega)
    unfold Second
    omega
  split at h
  · obtain ⟨rfl, rfl⟩ := List.cons_eq_cons.mp h
    have hb := toNat_toUInt8 (n := 0xE0 + cp.val / 4096) (by omega)
    have h₁ := toNat_toUInt8 (n := 0x80 + cp.val / 64 % 64) (by omega)
    have h₂ := toNat_toUInt8 (n := 0x80 + cp.val % 64) (by omega)
    refine .three (by omega) (by omega) ?_ ?_ (by omega)
    · unfold Second
      omega
    · unfold Tail
      omega
  · obtain ⟨rfl, rfl⟩ := List.cons_eq_cons.mp h
    have hb := toNat_toUInt8 (n := 0xF0 + cp.val / 262144) (by omega)
    have h₁ := toNat_toUInt8 (n := 0x80 + cp.val / 4096 % 64) (by omega)
    have h₂ := toNat_toUInt8 (n := 0x80 + cp.val / 64 % 64) (by omega)
    have h₃ := toNat_toUInt8 (n := 0x80 + cp.val % 64) (by omega)
    refine .four (by omega) (by omega) ?_ ?_ ?_ (by omega)
    · unfold Second
      omega
    · unfold Tail
      omega
    · unfold Tail
      omega

-- ---------------------------------------------------------------------------
-- Pieces
-- ---------------------------------------------------------------------------

/-- A sequence is one piece, and is read as its units. -/
theorem readUtf8_sequence (h : Sequence cp b tail) (rest : List UInt8) :
    readUtf8 b (tail ++ rest) = (utf16 cp, tail.length) := by
  have hunits : unitsOf cp.val = utf16 cp := rfl
  cases h with
  | one hb val =>
    rw [readUtf8, if_pos hb, utf16, if_pos (by omega), val]
    rfl
  | @two b₁ hge hlt h₁ val =>
    obtain ⟨lo, hi, hlead, hsecond⟩ := lead_eq_some hge (by omega)
    rw [following, if_pos hlt] at hlead
    have htails : tails 1 lo hi ([b₁] ++ rest) = 1 := by
      rw [List.singleton_append, tails_cons ((hsecond _).mpr h₁), tails]
    have hnumber : number b.toNat (([b₁] ++ rest).take 1) = cp.val := by
      rw [val]
      rfl
    rw [readUtf8, if_neg (by omega), hlead]
    simp only [htails, if_true, hnumber, hunits, List.length_singleton]
  | @three b₁ b₂ hge hlt h₁ h₂ val =>
    obtain ⟨lo, hi, hlead, hsecond⟩ := lead_eq_some (b := b.toNat) (by omega) (by omega)
    rw [following, if_neg (by omega), if_pos hlt] at hlead
    have htails : tails 2 lo hi ([b₁, b₂] ++ rest) = 2 := by
      rw [List.cons_append, tails_cons ((hsecond _).mpr h₁), List.singleton_append,
        tails_cons h₂, tails]
    have hnumber : number b.toNat (([b₁, b₂] ++ rest).take 2) = cp.val := by
      rw [val]
      rfl
    rw [readUtf8, if_neg (by omega), hlead]
    simp only [htails, if_true, hnumber, hunits, List.length_cons, List.length_nil]
  | @four b₁ b₂ b₃ hge hlt h₁ h₂ h₃ val =>
    obtain ⟨lo, hi, hlead, hsecond⟩ := lead_eq_some (b := b.toNat) (by omega) hlt
    rw [following, if_neg (by omega), if_neg (by omega)] at hlead
    have htails : tails 3 lo hi ([b₁, b₂, b₃] ++ rest) = 3 := by
      rw [List.cons_append, tails_cons ((hsecond _).mpr h₁), List.cons_append, tails_cons h₂,
        List.singleton_append, tails_cons h₃, tails]
    have hnumber : number b.toNat (([b₁, b₂, b₃] ++ rest).take 3) = cp.val := by
      rw [val]
      rfl
    rw [readUtf8, if_neg (by omega), hlead]
    simp only [htails, if_true, hnumber, hunits, List.length_cons, List.length_nil]

theorem tails_full (h : tails (n + 1) lo hi rest = n + 1) :
    ∃ b rest', rest = b :: rest' ∧ (lo ≤ b.toNat ∧ b.toNat ≤ hi) ∧ tails n 0x80 0xBF rest' = n := by
  cases rest with
  | nil => simp [tails] at h
  | cons b rest' =>
    rw [tails] at h
    split at h
    · exact ⟨b, rest', rfl, ‹_›, by omega⟩
    · cases h

/-- What is not replaced is a sequence. -/
theorem sequence_of_tails (hlead : lead b.toNat = some (n, lo, hi)) (h : tails n lo hi rest = n) :
    ∃ cp, Sequence cp b (rest.take n) := by
  have hrange : 0xC2 ≤ b.toNat ∧ b.toNat < 0xF5 := by
    by_contra hout
    rw [lead_eq_none (by omega)] at hlead
    cases hlead
  obtain ⟨lo', hi', hlead', hsecond⟩ := lead_eq_some hrange.1 hrange.2
  rw [hlead, Option.some.injEq, Prod.mk.injEq, Prod.mk.injEq] at hlead'
  obtain ⟨hn, rfl, rfl⟩ := hlead'
  unfold following at hn
  split at hn
  · subst hn
    obtain ⟨b₁, rest, rfl, h₁, -⟩ := tails_full h
    have h₁' := (hsecond _).mp h₁
    exact ⟨⟨b.toNat % 32 * 64 + b₁.toNat % 64, by omega⟩, .two hrange.1 ‹_› h₁' rfl⟩
  split at hn
  · subst hn
    obtain ⟨b₁, rest, rfl, h₁, h⟩ := tails_full h
    obtain ⟨b₂, rest, rfl, h₂, -⟩ := tails_full h
    have h₁' := (hsecond _).mp h₁
    exact ⟨⟨(b.toNat % 16 * 64 + b₁.toNat % 64) * 64 + b₂.toNat % 64, by omega⟩,
      .three (by omega) ‹_› h₁' h₂ rfl⟩
  · subst hn
    obtain ⟨b₁, rest, rfl, h₁, h⟩ := tails_full h
    obtain ⟨b₂, rest, rfl, h₂, h⟩ := tails_full h
    obtain ⟨b₃, rest, rfl, h₃, -⟩ := tails_full h
    have h₁' := (hsecond _).mp h₁
    have hlt : ((b.toNat % 8 * 64 + b₁.toNat % 64) * 64 + b₂.toNat % 64) * 64 + b₃.toNat % 64
        < 0x110000 := by
      obtain ⟨hlow, hhigh, -, -, -, hlarge⟩ := h₁'
      omega
    exact ⟨⟨_, hlt⟩, .four (by omega) hrange.2 h₁' h₂ h₃ rfl⟩

/-- A byte that may follow a leading one does so in some sequence. -/
theorem sequence_begins (hge : 0xC2 ≤ b.toNat) (hlt : b.toNat < 0xF5)
    (h : Second b.toNat b₁.toNat) : ∃ cp tail, Sequence cp b (b₁ :: tail) := by
  have hlead := lead_eq_some hge hlt
  obtain ⟨lo, hi, hlead, hsecond⟩ := hlead
  obtain ⟨cp, hseq⟩ : ∃ cp, Sequence cp b ([b₁, 0x80, 0x80].take (following b.toNat)) := by
    refine sequence_of_tails hlead ?_
    have htail : 0x80 ≤ (0x80 : UInt8).toNat ∧ (0x80 : UInt8).toNat ≤ 0xBF := by decide
    unfold following
    split
    · rw [tails_cons ((hsecond _).mpr h), tails]
    split
    · rw [tails_cons ((hsecond _).mpr h), tails_cons htail, tails]
    · rw [tails_cons ((hsecond _).mpr h), tails_cons htail, tails_cons htail, tails]
  unfold following at hseq
  split at hseq
  · exact ⟨cp, _, hseq⟩
  split at hseq
  · exact ⟨cp, _, hseq⟩
  · exact ⟨cp, _, hseq⟩

theorem Sequence.second (h : Sequence cp b (b₁ :: tail)) :
    0xC2 ≤ b.toNat ∧ b.toNat < 0xF5 ∧ Second b.toNat b₁.toNat := by
  cases h with
  | two hge hlt h₁ => exact ⟨hge, by omega, h₁⟩
  | three hge hlt h₁ => exact ⟨by omega, by omega, h₁⟩
  | four hge hlt h₁ => exact ⟨by omega, hlt, h₁⟩

/-- What comes of a byte beyond ASCII: a sequence, or a replacement that takes as many bytes as
continue it and are fewer than it needs. -/
theorem readUtf8_cases (hb : ¬ b.toNat < 0x80) (rest : List UInt8) :
    (∃ n cp, Sequence cp b (rest.take n) ∧ readUtf8 b rest = (utf16 cp, n) ∧ n ≤ rest.length) ∨
      (readUtf8 b rest).1 = [0xFFFD] ∧
        ((readUtf8 b rest).2 = 0 ∨ (readUtf8 b rest).2 < following b.toNat) ∧
        (0 < (readUtf8 b rest).2 ↔ ∃ cp b₁ tail, b₁ ∈ rest.head? ∧ Sequence cp b (b₁ :: tail)) := by
  by_cases hrange : 0xC2 ≤ b.toNat ∧ b.toNat < 0xF5
  · obtain ⟨lo, hi, hlead, hsecond⟩ := lead_eq_some hrange.1 hrange.2
    by_cases hfull : tails (following b.toNat) lo hi rest = following b.toNat
    · obtain ⟨cp, hseq⟩ := sequence_of_tails hlead hfull
      have hle : following b.toNat ≤ rest.length := hfull ▸ tails_le_length ..
      have hread := readUtf8_sequence hseq (rest.drop (following b.toNat))
      rw [List.take_append_drop, List.length_take_of_le hle] at hread
      exact .inl ⟨_, cp, hseq, hread, hle⟩
    · have hread : readUtf8 b rest = ([0xFFFD], tails (following b.toNat) lo hi rest) := by
        rw [readUtf8, if_neg hb, hlead]
        exact if_neg hfull
      have hle := tails_le (following b.toNat) lo hi rest
      refine .inr ⟨by rw [hread], by rw [hread]; exact .inr (by omega), ?_⟩
      rw [hread]
      refine tails_pos.trans ⟨?_, ?_⟩
      · rintro ⟨-, b₁, hhead, hb₁⟩
        obtain ⟨cp, tail, hseq⟩ := sequence_begins hrange.1 hrange.2 ((hsecond _).mp hb₁)
        exact ⟨cp, b₁, tail, hhead, hseq⟩
      · rintro ⟨cp, b₁, tail, hhead, hseq⟩
        refine ⟨?_, b₁, hhead, (hsecond _).mpr hseq.second.2.2⟩
        unfold following
        repeat' split
        all_goals decide
  · have hread : readUtf8 b rest = ([0xFFFD], 0) := by
      rw [readUtf8, if_neg hb, lead_eq_none (by omega)]
    refine .inr ⟨by rw [hread], .inl (by rw [hread]), ?_⟩
    rw [hread]
    refine ⟨fun h => absurd h (by decide), ?_⟩
    rintro ⟨cp, b₁, tail, -, hseq⟩
    exact absurd ⟨hseq.second.1, hseq.second.2.1⟩ hrange

theorem decodeUtf8_bytes (h : Scalar cps) : decodeUtf8 (bytes cps) = units cps := by
  induction cps with
  | nil => rfl
  | cons cp rest ih =>
    obtain ⟨b, tail, hutf8⟩ : ∃ b tail, utf8 cp = b :: tail := by
      unfold utf8
      repeat' split
      all_goals exact ⟨_, _, rfl⟩
    have hseq := sequence_of_utf8 hutf8 (h cp List.mem_cons_self)
    have hread := readUtf8_sequence hseq (bytes rest)
    rw [bytes_cons, units_cons, hutf8, List.cons_append, decodeUtf8, run_cons, hread,
      List.drop_left]
    exact congrArg _ (ih fun cp' hcp' => h cp' (List.mem_cons_of_mem _ hcp'))

end CodePoints
