import QuickJsKmp.Value
import QuickJsKmp.Lib.Machine
import Mathlib.Data.BitVec

/-!
# The growable buffer, with the widths of its fields

`kmp_buf` keeps its length and its capacity in an `int32_t` and computes with
them in a `size_t` of `w` bits. A capacity doubles from 64, so it is a power of
two, and 2³¹ is the first one that the field cannot hold.
-/

namespace QuickJsKmp

open Machine (Along along_congr)

/-- A block of the C heap. `none` is a byte never written, and NULL is the
block of no bytes. -/
abbrev Allocation := List (Option UInt8)

structure KmpBuf where
  data : Allocation
  len : BitVec 32
  cap : BitVec 32
  deriving DecidableEq, Repr

/-- As `memset` leaves it. -/
def KmpBuf.zero : KmpBuf := ⟨[], 0, 0⟩

def KmpBuf.reset (b : KmpBuf) : KmpBuf := { b with len := 0 }

def KmpBuf.free (_ : KmpBuf) : KmpBuf := .zero

/-- An `int32_t` where a `size_t` is expected. -/
def toSize (w : ℕ) (x : BitVec 32) : BitVec w := x.signExtend w

/-- `while (cap - b->len < n) cap *= 2;`. After `w` rounds the capacity is zero
and stays zero, so a loop that has not ended by then does not end. -/
def doubling {w : ℕ} (len n : BitVec w) : ℕ → BitVec w → Option (BitVec w)
  | 0, cap => if cap - len < n then none else some cap
  | fuel + 1, cap => if cap - len < n then doubling len n fuel (cap * 2) else some cap

def realloc (data : Allocation) (size : ℕ) : Allocation :=
  data.take size ++ List.replicate (size - data.length) none

/-- `memcpy(data + offset, p, n)`, and `none` when it leaves the block. -/
def memcpy (data : Allocation) (offset : ℤ) (p : Bytes) : Option Allocation :=
  if 0 ≤ offset ∧ offset + p.length ≤ data.length then
    some (data.take offset.toNat ++ p.map some ++ data.drop (offset.toNat + p.length))
  else none

/-- How `buf_append` ends: it returns 0 or -1, writes outside the block, or does
not return. -/
inductive Appended
  | done (b : KmpBuf)
  | refused (b : KmpBuf)
  | outside
  | forever
  deriving DecidableEq, Repr

namespace KmpBuf

/-- `(size_t)b->cap - b->len < n`. -/
def short (w : ℕ) (b : KmpBuf) (p : Bytes) : Bool :=
  toSize w b.cap - toSize w b.len < BitVec.ofNat w p.length

/-- `b->cap ? b->cap : 64`. -/
def start (w : ℕ) (b : KmpBuf) : BitVec w := if b.cap ≠ 0 then toSize w b.cap else 64

def grown (w : ℕ) (b : KmpBuf) (p : Bytes) : Option (BitVec w) :=
  doubling (toSize w b.len) (.ofNat w p.length) w (b.start w)

def store (w : ℕ) (b : KmpBuf) (p : Bytes) : Appended :=
  match memcpy b.data b.len.toInt p with
  | none => .outside
  | some data => .done { b with data, len := b.len + (BitVec.ofNat w p.length).setWidth 32 }

/-- `buf_append`; `granted` says whether `realloc` succeeds. -/
def append (w : ℕ) (b : KmpBuf) (p : Bytes) (granted : Bool) : Appended :=
  if b.short w p then
    match b.grown w p with
    | none => .forever
    | some cap =>
      if granted then
        store w { b with data := realloc b.data cap.toNat, cap := cap.setWidth 32 } p
      else .refused b
  else b.store w p

/-- The pointer and the length that `publish` stores: `""` for NULL is a block of no
bytes as well. -/
def publish (b : KmpBuf) : Allocation × BitVec 32 := (b.data, b.len)

end KmpBuf

-- ---------------------------------------------------------------------------
-- Runs
-- ---------------------------------------------------------------------------

inductive BufOp
  | reset
  | append (p : Bytes) (granted : Bool)
  | free
  deriving DecidableEq, Repr

/-- A buffer, and the chunks that calls have reported as appended since the last
reset. -/
structure Filled where
  buf : KmpBuf
  contents : Bytes
  deriving DecidableEq, Repr

def Filled.init : Filled := ⟨.zero, []⟩

def Filled.step (w : ℕ) (s : Filled) : BufOp → Option Filled
  | .reset => some ⟨s.buf.reset, []⟩
  | .free => some ⟨s.buf.free, []⟩
  | .append p granted =>
    match s.buf.append w p granted with
    | .done b => some ⟨b, s.contents ++ p⟩
    | .refused b => some { s with buf := b }
    | .outside => none
    | .forever => none

/-- The bytes appended since the last reset total at most `INT32_MAX`. -/
def Filled.Total (s : Filled) : BufOp → Prop
  | .append p _ => s.contents.length + p.length ≤ 2 ^ 31 - 1
  | _ => True

theorem Filled.Total.lt {s : Filled} {p : List UInt8} (h : s.Total (.append p granted)) :
    s.contents.length + p.length < 2 ^ 31 :=
  Nat.lt_of_le_pred (by decide) h

/-- What is appended does not take the length past 2³⁰. -/
def Filled.Within (s : Filled) : BufOp → Prop
  | .append p granted => granted → s.contents.length + p.length ≤ 2 ^ 30
  | _ => True

/-- The fields, the allocation and the contents are as they should be. -/
structure Filled.Faithful (s : Filled) : Prop where
  nonneg : 0 ≤ s.buf.len.toInt
  len_le : s.buf.len.toInt ≤ s.buf.cap.toInt
  cap : s.buf.cap.toInt = s.buf.data.length
  len : s.buf.len.toInt = s.contents.length
  contents : s.buf.data.take s.contents.length = s.contents.map some

/-- The loop ends, on a product that is not reduced. -/
def KmpBuf.Doubles (w : ℕ) (b : KmpBuf) (p : Bytes) : Prop :=
  ∃ k cap, b.grown w p = some cap ∧ cap.toNat = (b.start w).toNat * 2 ^ k

/-- An operation runs inside the allocation to its end and leaves the buffer faithful; an append
that fails leaves it as it was. -/
structure Filled.Serves (w : ℕ) (s : Filled) (op : BufOp) : Prop where
  after : ∃ t, s.step w op = some t ∧ t.Faithful
  failed : ∀ p granted b, op = .append p granted → s.buf.append w p granted = .refused b → b = s.buf
  ends : ∀ p granted, op = .append p granted → s.buf.short w p → s.buf.Doubles w p

-- ---------------------------------------------------------------------------
-- The loop
-- ---------------------------------------------------------------------------

theorem toNat_toSize (hw : 32 ≤ w) (hn : n < 2 ^ 31) : (toSize w (.ofNat 32 n)).toNat = n := by
  have hnat : (BitVec.ofNat 32 n).toNat = n := BitVec.toNat_ofNat n 32 ▸ Nat.mod_eq_of_lt (by omega)
  have hmsb : (BitVec.ofNat 32 n).msb = false := by
    rw [BitVec.msb_eq_decide, hnat]
    exact decide_eq_false (by omega)
  have hle : 2 ^ 32 ≤ 2 ^ w := Nat.pow_le_pow_right (by decide) hw
  rw [toSize, BitVec.signExtend_eq_setWidth_of_msb_false hmsb, BitVec.toNat_setWidth, hnat]
  exact Nat.mod_eq_of_lt (by omega)

/-- A loop that begins on a power of two ends on the first one with room for everything. -/
theorem doubling_spec {cap : BitVec w} (fuel : ℕ) (len n : BitVec w) (hw : 32 ≤ w)
    (hcap : cap.toNat = 2 ^ j)
    (hlen : len.toNat ≤ 2 ^ j) (htotal : len.toNat + n.toNat ≤ 2 ^ 31) (hj : j ≤ 31)
    (hfuel : 31 ≤ j + fuel) :
    ∃ k cap', doubling len n fuel cap = some cap' ∧ cap'.toNat = 2 ^ (j + k) ∧ j + k ≤ 31 ∧
      len.toNat + n.toNat ≤ 2 ^ (j + k) ∧
      (0 < k → 2 ^ (j + k) < 2 * (len.toNat + n.toNat)) := by
  have hcond : cap - len < n ↔ 2 ^ j < len.toNat + n.toNat := by
    rw [BitVec.lt_def, BitVec.toNat_sub_of_le (BitVec.le_def.mpr (by omega)), hcap]
    omega
  induction fuel generalizing j cap with
  | zero =>
    obtain rfl : j = 31 := by omega
    have hstop : ¬ cap - len < n := fun h => by
      have := hcond.mp h
      omega
    exact ⟨0, cap, if_neg hstop, hcap, le_refl _, htotal, fun h => absurd h (by decide)⟩
  | succ fuel ih =>
    by_cases h : cap - len < n
    · have hmore := hcond.mp h
      have hlt : j < 31 := by
        by_contra hge
        obtain rfl : j = 31 := by omega
        omega
      have hdouble : (cap * 2).toNat = 2 ^ (j + 1) := by
        have hpow : 2 ^ (j + 1) < 2 ^ w := Nat.pow_lt_pow_right (by decide) (by omega)
        have htwo : (2 : BitVec w).toNat = 2 := by
          have hlarge : 2 ^ 2 ≤ 2 ^ w := Nat.pow_le_pow_right (by decide) (by omega)
          exact (BitVec.toNat_ofNat 2 w).trans (Nat.mod_eq_of_lt (by omega))
        rw [BitVec.toNat_mul, hcap, htwo, ← Nat.pow_succ, Nat.mod_eq_of_lt hpow]
      have hle : len.toNat ≤ 2 ^ (j + 1) :=
        le_trans hlen (Nat.pow_le_pow_right (by decide) (by omega))
      have hcond' : cap * 2 - len < n ↔ 2 ^ (j + 1) < len.toNat + n.toNat := by
        rw [BitVec.lt_def, BitVec.toNat_sub_of_le (BitVec.le_def.mpr (by omega)), hdouble]
        omega
      obtain ⟨k, cap', hrun, hcap', hk, hroom, hleast⟩ :=
        ih hdouble hle hlt (by omega) hcond'
      refine ⟨k + 1, cap', ?_, ?_, by omega, ?_, fun _ => ?_⟩
      · rw [doubling, if_pos h, hrun]
      · rw [hcap', Nat.add_right_comm, Nat.add_assoc]
      · rwa [← Nat.add_assoc, Nat.add_right_comm]
      · rw [← Nat.add_assoc, Nat.add_right_comm]
        rcases Nat.eq_zero_or_pos k with rfl | hpos
        · rw [Nat.add_zero, Nat.pow_succ]
          omega
        · exact hleast hpos
    · refine ⟨0, cap, by rw [doubling, if_neg h], hcap, hj, ?_, fun h => absurd h (by decide)⟩
      exact Nat.le_of_not_lt fun hlt => h (hcond.mpr hlt)

-- ---------------------------------------------------------------------------
-- The copy
-- ---------------------------------------------------------------------------

theorem length_realloc (h : data.length ≤ size) : (realloc data size).length = size := by
  simp [realloc, List.take_of_length_le h, h]

theorem take_realloc (h : data.length ≤ size) (hn : n ≤ data.length) :
    (realloc data size).take n = data.take n := by
  rw [realloc, List.take_of_length_le h, List.take_append_of_le_length hn]

/-- A buffer whose fields are as its allocation and its contents are, up to the width of
a field. -/
structure Filled.Sized (s : Filled) : Prop where
  len : s.buf.len = .ofNat 32 s.contents.length
  cap : s.buf.cap = .ofNat 32 s.buf.data.length
  fits : s.contents.length ≤ s.buf.data.length
  bound : s.contents.length < 2 ^ 31
  contents : s.buf.data.take s.contents.length = s.contents.map some

theorem toInt_ofNat (h : n < 2 ^ 31) : (BitVec.ofNat 32 n).toInt = n := by
  have hnat : (BitVec.ofNat 32 n).toNat = n := BitVec.toNat_ofNat n 32 ▸ Nat.mod_eq_of_lt (by omega)
  rw [BitVec.toInt_eq_toNat_of_lt (by omega), hnat]

theorem KmpBuf.store_spec (hw : 32 ≤ w) (h : Filled.Sized ⟨b, contents⟩)
    (hroom : contents.length + p.length ≤ b.data.length)
    (htotal : contents.length + p.length < 2 ^ 31) :
    ∃ b', b.store w p = .done b' ∧ Filled.Sized ⟨b', contents ++ p⟩ ∧
      b'.data.length = b.data.length := by
  have hlen : b.len.toInt = contents.length := by rw [h.len, toInt_ofNat h.bound]
  have hinside : 0 ≤ (contents.length : ℤ) ∧ (contents.length : ℤ) + p.length ≤ b.data.length := by
    omega
  have hfits : contents.length ≤ b.data.length := h.fits
  have hsum : b.len + (BitVec.ofNat w p.length).setWidth 32 =
      .ofNat 32 (contents.length + p.length) := by
    rw [h.len, BitVec.setWidth_ofNat_of_le hw, BitVec.ofNat_add]
  let data := b.data.take contents.length ++ p.map some ++
    b.data.drop (contents.length + p.length)
  have hlength : data.length = b.data.length := by
    simp only [data, List.length_append, List.length_take, List.length_map, List.length_drop]
    omega
  refine ⟨{ b with data, len := .ofNat 32 (contents.length + p.length) }, ?_, ?_, hlength⟩
  · simp only [store, memcpy, hlen, hsum, Int.toNat_natCast, if_pos hinside, data]
  · exact {
      len := by simp only [List.length_append]
      cap := by simp only [hlength, ← h.cap]
      fits := by simpa only [List.length_append, hlength] using hroom
      bound := by simpa only [List.length_append] using htotal
      contents := by
        have hfront : b.data.take contents.length = contents.map some := h.contents
        simp only [data, hfront, ← List.map_append]
        exact List.take_left' (by simp) }

-- ---------------------------------------------------------------------------
-- One append
-- ---------------------------------------------------------------------------

/-- The capacity is none, or a power of two that its field holds. -/
structure Filled.Good (s : Filled) : Prop extends s.Sized where
  size : s.buf.data.length = 0 ∨ ∃ j, 6 ≤ j ∧ j ≤ 30 ∧ s.buf.data.length = 2 ^ j

variable {s t : Filled}

theorem Filled.Good.small (h : s.Good) : s.buf.data.length ≤ 2 ^ 30 := by
  rcases h.size with hzero | ⟨j, -, hj, hsize⟩
  · omega
  · rw [hsize]
    exact Nat.pow_le_pow_right (by decide) hj

theorem Filled.Good.faithful (h : s.Good) : s.Faithful := by
  have hsmall := h.small
  have hlen : s.buf.len.toInt = s.contents.length := by rw [h.len, toInt_ofNat h.bound]
  have hcap : s.buf.cap.toInt = s.buf.data.length := by rw [h.cap, toInt_ofNat (by omega)]
  have hfits := h.fits
  exact ⟨by omega, by omega, hcap, hlen, h.contents⟩

theorem short_iff (hw : 32 ≤ w) (h : s.Good) (htotal : s.contents.length + p.length < 2 ^ 31) :
    s.buf.short w p ↔ s.buf.data.length < s.contents.length + p.length := by
  have hle : 2 ^ 32 ≤ 2 ^ w := Nat.pow_le_pow_right (by decide) hw
  have hsmall := h.small
  have hfits := h.fits
  have hcap : (toSize w s.buf.cap).toNat = s.buf.data.length := by
    rw [h.cap, toNat_toSize hw (by omega)]
  have hlen : (toSize w s.buf.len).toNat = s.contents.length := by
    rw [h.len, toNat_toSize hw h.bound]
  have hn : (BitVec.ofNat w p.length).toNat = p.length :=
    (BitVec.toNat_ofNat ..).trans (Nat.mod_eq_of_lt (by omega))
  rw [KmpBuf.short, decide_eq_true_eq, BitVec.lt_def,
    BitVec.toNat_sub_of_le (BitVec.le_def.mpr (by omega)), hcap, hlen, hn]
  omega

theorem start_spec (hw : 32 ≤ w) (h : s.Good) :
    ∃ j, 6 ≤ j ∧ j ≤ 30 ∧ (s.buf.start w).toNat = 2 ^ j ∧ s.buf.data.length ≤ 2 ^ j := by
  rcases h.size with hzero | ⟨j, hj, hj', hsize⟩
  · have hcap : s.buf.cap = 0 := by rw [h.cap, hzero]; rfl
    have hlarge : 2 ^ 32 ≤ 2 ^ w := Nat.pow_le_pow_right (by decide) hw
    refine ⟨6, le_refl _, by decide, ?_, by omega⟩
    rw [KmpBuf.start, if_neg (not_not_intro hcap)]
    exact (BitVec.toNat_ofNat 64 w).trans (Nat.mod_eq_of_lt (by omega))
  · have hsmall := h.small
    have hpos : 0 < 2 ^ j := Nat.pow_pos (by decide)
    have hcap : s.buf.cap ≠ 0 := by
      intro hzero
      have hnat := congrArg BitVec.toNat (h.cap.symm.trans hzero)
      rw [BitVec.toNat_ofNat, Nat.mod_eq_of_lt (by omega)] at hnat
      simp only [BitVec.ofNat_eq_ofNat, BitVec.toNat_zero] at hnat
      omega
    refine ⟨j, hj, hj', ?_, by omega⟩
    rw [KmpBuf.start, if_pos hcap, h.cap, toNat_toSize hw (by omega), hsize]

/-- What the loop comes to, and when that is more than the field can hold. -/
theorem grown_spec (hw : 32 ≤ w) (h : s.Good) (htotal : s.contents.length + p.length < 2 ^ 31)
    (hshort : s.buf.data.length < s.contents.length + p.length) :
    s.buf.Doubles w p ∧ ∃ cap j, s.buf.grown w p = some cap ∧ cap.toNat = 2 ^ j ∧ 6 ≤ j ∧
      s.contents.length + p.length ≤ 2 ^ j ∧ s.buf.data.length ≤ 2 ^ j ∧
      (j ≤ 30 ∨ j = 31 ∧ 2 ^ 30 < s.contents.length + p.length) := by
  have hle : 2 ^ 32 ≤ 2 ^ w := Nat.pow_le_pow_right (by decide) hw
  have hlen : (toSize w s.buf.len).toNat = s.contents.length := by
    rw [h.len, toNat_toSize hw h.bound]
  have hn : (BitVec.ofNat w p.length).toNat = p.length :=
    (BitVec.toNat_ofNat ..).trans (Nat.mod_eq_of_lt (by omega))
  obtain ⟨j, hj, hj', hstart, hdata⟩ := start_spec hw h
  have hfits := h.fits
  obtain ⟨k, cap, hrun, hcap, hk, hroom, hleast⟩ :=
    doubling_spec w (toSize w s.buf.len) (.ofNat w p.length) hw hstart (by omega) (by omega)
      (by omega) (by omega)
  rw [hlen, hn] at hroom hleast
  have hgrow : (2 : ℕ) ^ j ≤ 2 ^ (j + k) := Nat.pow_le_pow_right (by decide) (by omega)
  refine ⟨⟨k, cap, hrun, by rw [hcap, hstart, Nat.pow_add]⟩, cap, j + k, hrun, hcap, by omega, hroom,
    by omega, ?_⟩
  by_cases hfield : j + k ≤ 30
  · exact .inl hfield
  · have hlast : j + k = 31 := by omega
    have hmore := hleast (by omega)
    rw [hlast] at hmore
    exact .inr ⟨hlast, by omega⟩

/-- A granted append leaves the contents, in a block of its new capacity. -/
theorem append_granted (hw : 32 ≤ w) (h : s.Good)
    (htotal : s.contents.length + p.length < 2 ^ 31) :
    ∃ b, s.buf.append w p true = .done b ∧ Filled.Sized ⟨b, s.contents ++ p⟩ ∧
      (b.data.length = s.buf.data.length ∨ ∃ j, 6 ≤ j ∧ b.data.length = 2 ^ j ∧
        (j ≤ 30 ∨ j = 31 ∧ 2 ^ 30 < s.contents.length + p.length)) := by
  have hfits := h.fits
  by_cases hshort : s.buf.data.length < s.contents.length + p.length
  · obtain ⟨-, cap, j, hgrown, hcap, hj, hroom, hdata, hfield⟩ := grown_spec hw h htotal hshort
    have hlength : (realloc s.buf.data (2 ^ j)).length = 2 ^ j := length_realloc hdata
    have hsized : Filled.Sized
        ⟨⟨realloc s.buf.data (2 ^ j), s.buf.len, .ofNat 32 (2 ^ j)⟩, s.contents⟩ :=
      { len := h.len
        cap := by rw [hlength]
        fits := hfits.trans (hdata.trans hlength.ge)
        bound := h.bound
        contents := by rw [take_realloc hdata hfits, h.contents] }
    obtain ⟨b, hstore, hstored, hsize⟩ :=
      KmpBuf.store_spec hw hsized (by rwa [hlength]) htotal
    refine ⟨b, ?_, hstored, .inr ⟨j, hj, hsize.trans hlength, hfield⟩⟩
    have hwidth : cap.setWidth 32 = .ofNat 32 (2 ^ j) := by
      rw [← BitVec.ofNat_toNat, hcap]
    rw [KmpBuf.append, if_pos ((short_iff hw h htotal).mpr hshort), hgrown]
    simp only [if_true, hcap, hwidth]
    exact hstore
  · obtain ⟨b, hstore, hstored, hsize⟩ :=
      KmpBuf.store_spec hw h.toSized (Nat.le_of_not_lt hshort) htotal
    refine ⟨b, ?_, hstored, .inl hsize⟩
    rw [KmpBuf.append, if_neg fun hs => hshort ((short_iff hw h htotal).mp hs)]
    exact hstore

/-- An append that is not granted its memory either needs none, or is refused. -/
theorem append_not_granted (hw : 32 ≤ w) (h : s.Good)
    (htotal : s.contents.length + p.length < 2 ^ 31) :
    s.buf.append w p false = .refused s.buf ∨
      s.contents.length + p.length ≤ s.buf.data.length ∧
        s.buf.append w p false = s.buf.append w p true := by
  by_cases hshort : s.buf.data.length < s.contents.length + p.length
  · obtain ⟨-, cap, j, hgrown, -⟩ := grown_spec hw h htotal hshort
    left
    rw [KmpBuf.append, if_pos ((short_iff hw h htotal).mpr hshort), hgrown]
    rfl
  · right
    refine ⟨Nat.le_of_not_lt hshort, ?_⟩
    have hnot : ¬ s.buf.short w p := fun hs => hshort ((short_iff hw h htotal).mp hs)
    rw [KmpBuf.append, KmpBuf.append, if_neg hnot, if_neg hnot]

-- ---------------------------------------------------------------------------
-- Every run
-- ---------------------------------------------------------------------------

theorem Filled.Good.reset (h : s.Good) : Filled.Good ⟨s.buf.reset, []⟩ where
  len := rfl
  cap := h.cap
  fits := Nat.zero_le _
  bound := Nat.pow_pos (by decide)
  contents := rfl
  size := h.size

theorem good_init : Filled.init.Good where
  len := rfl
  cap := rfl
  fits := le_refl _
  bound := by decide
  contents := rfl
  size := .inl rfl

/-- A chunk that is stored without going past the first capacity out of range. -/
theorem good_of_append (h : s.Good) (hsized : Filled.Sized ⟨b, s.contents ++ p⟩)
    (hsize : b.data.length = s.buf.data.length ∨
      ∃ j, 6 ≤ j ∧ b.data.length = 2 ^ j ∧ (j ≤ 30 ∨ j = 31 ∧ 2 ^ 30 < s.contents.length + p.length))
    (hwithin : s.contents.length + p.length ≤ 2 ^ 30) : Filled.Good ⟨b, s.contents ++ p⟩ := by
  refine ⟨hsized, ?_⟩
  rcases hsize with hsame | ⟨j, hj, hsize, hfield⟩
  · simpa only [hsame] using h.size
  · exact .inr ⟨j, hj, by omega, hsize⟩

theorem append_good (hw : 32 ≤ w) (h : s.Good) (htotal : s.Total (.append p granted))
    (hwithin : s.Within (.append p granted)) :
    ∃ t, s.step w (.append p granted) = some t ∧ t.Good := by
  have hbound := htotal.lt
  obtain ⟨b, hdone, hsized, hsize⟩ := append_granted hw h hbound
  cases granted with
  | true =>
    refine ⟨⟨b, s.contents ++ p⟩, ?_, good_of_append h hsized hsize (hwithin rfl)⟩
    simp only [Filled.step, hdone]
  | false =>
    rcases append_not_granted hw h hbound with hrefused | ⟨hroom, hsame⟩
    · exact ⟨s, by simp only [Filled.step, hrefused], h⟩
    · refine ⟨⟨b, s.contents ++ p⟩, ?_, good_of_append h hsized hsize (hroom.trans h.small)⟩
      simp only [Filled.step, hsame, hdone]

theorem step_good (hw : 32 ≤ w) (h : s.Good) (htotal : s.Total op) (hwithin : s.Within op) :
    ∃ t, s.step w op = some t ∧ t.Good := by
  cases op with
  | reset => exact ⟨_, rfl, h.reset⟩
  | append p granted => exact append_good hw h htotal hwithin
  | free => exact ⟨_, rfl, good_init⟩

/-- A granted chunk past 2³⁰ leaves a capacity that is negative. -/
theorem not_faithful (hw : 32 ≤ w) (h : s.Good) (htotal : s.Total (.append p true))
    (hover : 2 ^ 30 < s.contents.length + p.length)
    (hstep : s.step w (.append p true) = some t) : ¬ t.Faithful := by
  have hbound := htotal.lt
  obtain ⟨b, hdone, hsized, hsize⟩ := append_granted hw h hbound
  simp only [Filled.step, hdone, Option.some.injEq] at hstep
  subst hstep
  have hfits : (s.contents ++ p).length ≤ b.data.length := hsized.fits
  rw [List.length_append] at hfits
  have hsmall := h.small
  obtain ⟨j, -, hlength, hfield⟩ := hsize.resolve_left (by omega)
  have hlast : j = 31 := by
    refine (hfield.resolve_left fun hj => ?_).1
    have : 2 ^ j ≤ 2 ^ 30 := Nat.pow_le_pow_right (by decide) hj
    omega
  intro hfaithful
  have hcap : b.cap.toInt = b.data.length := hfaithful.cap
  have hle := BitVec.toInt_lt (x := b.cap)
  rw [hcap, hlength, hlast] at hle
  exact absurd hle (by decide)

theorem serves_iff (hw : 32 ≤ w) (h : s.Good) (htotal : s.Total op) :
    s.Serves w op ↔ s.Within op := by
  constructor
  · intro hserves
    cases op with
    | append p granted =>
      intro hgranted
      obtain ⟨t, hstep, hfaithful⟩ := hserves.after
      subst hgranted
      by_contra hover
      exact not_faithful hw h htotal (Nat.lt_of_not_le hover) hstep hfaithful
    | _ => trivial
  · intro hwithin
    obtain ⟨t, hstep, hgood⟩ := step_good hw h htotal hwithin
    refine ⟨⟨t, hstep, hgood.faithful⟩, ?_, ?_⟩
    · rintro p granted b rfl hb
      simp only [KmpBuf.append, KmpBuf.store] at hb
      repeat' split at hb
      all_goals first | cases hb; done | exact (Appended.refused.inj hb).symm
    · rintro p granted rfl hshort
      have hbound := htotal.lt
      exact (grown_spec hw h hbound ((short_iff hw h hbound).mp hshort)).1

/-- In every run of a fresh buffer that appends at most `INT32_MAX` bytes between two resets, the
buffer is a faithful one throughout if and only if no chunk takes it past 2³⁰ bytes. -/
theorem buf_faithful_iff (hw : 32 ≤ w) (ops : List BufOp)
    (htotal : Along (Filled.step w) Filled.Total .init ops) :
    Along (Filled.step w) (Filled.Serves w) .init ops ↔
      Along (Filled.step w) Filled.Within .init ops := by
  refine along_congr (serves_iff hw) (fun {s op t} h ht hwithin hstep => ?_) good_init htotal
  obtain ⟨t', hstep', hgood⟩ := step_good hw h ht hwithin
  exact Option.some.inj (hstep'.symm.trans hstep) ▸ hgood

theorem buf_faithful_iff_two :
    Along (Filled.step 64) (Filled.Serves 64) .init [.append [104, 105] true, .reset] ↔
      Along (Filled.step 64) Filled.Within .init [.append [104, 105] true, .reset] :=
  buf_faithful_iff (by decide) [.append [104, 105] true, .reset]
    ⟨show 0 + 2 ≤ 2 ^ 31 - 1 by decide, fun _ _ => ⟨trivial, fun _ _ => trivial⟩⟩

/-- One chunk of 2³⁰ + 1 bytes. -/
theorem large_chunk_unfaithful :
    ¬ ∀ w, 32 ≤ w → ∀ ops, Along (Filled.step w) Filled.Total .init ops →
      Along (Filled.step w) (Filled.Serves w) .init ops := by
  intro h
  obtain ⟨p, hlength⟩ : ∃ p : Bytes, p.length = 2 ^ 30 + 1 :=
    ⟨List.replicate (2 ^ 30 + 1) 0, List.length_replicate⟩
  have htotal : Filled.init.Total (.append p true) := by
    show 0 + p.length ≤ 2 ^ 31 - 1
    omega
  have hserves := (h 64 (by decide) [.append p true] ⟨htotal, fun _ _ => trivial⟩).1
  obtain ⟨t, hstep, hfaithful⟩ := hserves.after
  refine not_faithful (by decide) good_init htotal ?_ hstep hfaithful
  show 2 ^ 30 < 0 + p.length
  omega

-- ---------------------------------------------------------------------------
-- Past the field
-- ---------------------------------------------------------------------------

/-- The capacity is none or a power of two, and its field may hold one that is negative. -/
structure Filled.Held (s : Filled) : Prop extends s.Sized where
  size : s.buf.data.length = 0 ∨ ∃ j, 6 ≤ j ∧ j ≤ 31 ∧ s.buf.data.length = 2 ^ j

theorem Filled.Held.cases (h : s.Held) : s.Good ∨ s.buf.data.length = 2 ^ 31 := by
  rcases h.size with hzero | ⟨j, hj, hj', hsize⟩
  · exact .inl ⟨h.toSized, .inl hzero⟩
  · by_cases hlast : j ≤ 30
    · exact .inl ⟨h.toSized, .inr ⟨j, hj, hlast, hsize⟩⟩
    · obtain rfl : j = 31 := by omega
      exact .inr hsize

/-- A negative capacity is a large number as a `size_t`, so nothing grows any more. -/
theorem not_short_of_full (hw : 32 ≤ w) (h : s.Sized) (hfull : s.buf.data.length = 2 ^ 31)
    (htotal : s.contents.length + p.length < 2 ^ 31) : ¬ s.buf.short w p := by
  have hle : 2 ^ 32 ≤ 2 ^ w := Nat.pow_le_pow_right (by decide) hw
  have hcap : (toSize w s.buf.cap).toNat = 2 ^ w - 2 ^ 31 := by
    have hmsb : (BitVec.ofNat 32 (2 ^ 31)).msb = true := by decide
    have hnat : (BitVec.ofNat 32 (2 ^ 31)).toNat = 2 ^ 31 := by decide
    rw [h.cap, hfull, toSize, BitVec.toNat_signExtend, hmsb, if_pos rfl,
      BitVec.toNat_setWidth, hnat, Nat.mod_eq_of_lt (by omega)]
    omega
  have hlen : (toSize w s.buf.len).toNat = s.contents.length := by
    rw [h.len, toNat_toSize hw h.bound]
  have hn : (BitVec.ofNat w p.length).toNat = p.length :=
    (BitVec.toNat_ofNat ..).trans (Nat.mod_eq_of_lt (by omega))
  have hbound := h.bound
  rw [KmpBuf.short, decide_eq_true_eq, BitVec.lt_def,
    BitVec.toNat_sub_of_le (BitVec.le_def.mpr (by omega)), hcap, hlen, hn]
  omega

/-- An append to a reachable buffer returns, and has done all of its work or nothing. -/
theorem append_held (hw : 32 ≤ w) (h : s.Held)
    (htotal : s.contents.length + p.length < 2 ^ 31) (granted : Bool) :
    (∃ b, s.buf.append w p granted = .done b ∧ Filled.Held ⟨b, s.contents ++ p⟩) ∨
      s.buf.append w p granted = .refused s.buf := by
  rcases h.cases with hgood | hfull
  · obtain ⟨b, hdone, hsized, hsize⟩ := append_granted hw hgood htotal
    have hheld : Filled.Held ⟨b, s.contents ++ p⟩ := by
      refine ⟨hsized, ?_⟩
      rcases hsize with hsame | ⟨j, hj, hsize, hfield⟩
      · simpa only [hsame] using h.size
      · exact .inr ⟨j, hj, by omega, hsize⟩
    cases granted with
    | true => exact .inl ⟨b, hdone, hheld⟩
    | false =>
      rcases append_not_granted hw hgood htotal with hrefused | ⟨-, hsame⟩
      · exact .inr hrefused
      · exact .inl ⟨b, hsame.trans hdone, hheld⟩
  · obtain ⟨b, hdone, hsized, hsize⟩ := KmpBuf.store_spec hw h.toSized (by omega) htotal
    refine .inl ⟨b, ?_, hsized, .inr ⟨31, by decide, le_refl _, hsize.trans hfull⟩⟩
    rw [KmpBuf.append, if_neg (not_short_of_full hw h.toSized hfull htotal)]
    exact hdone

theorem publish_contents (h : s.Sized) :
    s.buf.publish.1.take s.buf.publish.2.toNat = s.contents.map some := by
  have hbound := h.bound
  have hlen : s.buf.len.toNat = s.contents.length := by
    rw [h.len, BitVec.toNat_ofNat, Nat.mod_eq_of_lt (by omega)]
  simp only [KmpBuf.publish, hlen, h.contents]

end QuickJsKmp
