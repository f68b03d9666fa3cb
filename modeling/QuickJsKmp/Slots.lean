import Mathlib.Data.List.Basic
import Mathlib.Data.BitVec
import QuickJsKmp.Value
import QuickJsKmp.Lib.Lookups

/-!
# The ref table

One slot per live ref. Free slots are chained through `nextFree`, and a
handle packs the slot index with the slot's generation, so that a handle whose
slot was reused no longer matches. All counters have the widths of the source:
`gen` and `refcount` wrap.

`Inv` is what every run keeps: the chain visits exactly the slots with count
zero, and no generation passes `2 ^ 31`. The second half is not a check of the
source. A handle made from a generation of `2 ^ 31` is negative, `slot_get`
refuses it, and its slot is therefore never freed again.
-/

namespace QuickJsKmp

open Lookups (getElem?_set_cases getElem?_append_cases)

structure Slot where
  val : JSValue
  refcount : BitVec 32
  nextFree : Int
  gen : BitVec 32
  deriving DecidableEq, Repr

/-- `slots` has `slot_count` entries; `cap` is `slot_cap`. -/
structure SlotTable where
  slots : List Slot
  cap : ℕ
  freeHead : Int
  deriving DecidableEq, Repr

namespace SlotTable

def empty : SlotTable := { slots := [], cap := 0, freeHead := -1 }

def int32Max : ℕ := 2 ^ 31 - 1

-- ---------------------------------------------------------------------------
-- Handles
-- ---------------------------------------------------------------------------

def slotHandle (idx gen : BitVec 32) : Handle :=
  (gen.setWidth 64 <<< 32) ||| (idx + 1).setWidth 64

/-- As `int32_t`: read it with `toInt`. -/
def slotIndex (ref : Handle) : BitVec 32 := ref.setWidth 32 - 1

def slotGen (ref : Handle) : BitVec 32 := (ref >>> 32).setWidth 32

theorem slotIndex_slotHandle (i g : BitVec 32) : slotIndex (slotHandle i g) = i := by
  have low : (slotHandle i g).setWidth 32 = i + 1 := by
    simp only [slotHandle]
    ext k hk
    simp
  simp [slotIndex, low]

theorem slotGen_slotHandle (i g : BitVec 32) : slotGen (slotHandle i g) = g := by
  unfold slotGen slotHandle
  ext k hk
  have h : k < 64 := by omega
  have h' : 32 + k < 64 ∧ ¬ 32 + k < 32 := by omega
  simp [h, h', hk, ← BitVec.getLsbD_eq_getElem]

/-- Index and generation determine the handle. -/
theorem handle_ext (hi : slotIndex a = slotIndex b) (hg : slotGen a = slotGen b) : a = b := by
  have low : a.setWidth 32 = b.setWidth 32 := by
    have h := congrArg (· + 1) hi
    simpa [slotIndex] using h
  ext k hk
  by_cases h : k < 32
  · have := congrArg (fun x : BitVec 32 => x.getLsbD k) low
    simpa [h, hk] using this
  · have := congrArg (fun x : BitVec 32 => x.getLsbD (k - 32)) hg
    have h1 : k - 32 < 32 := by omega
    have h2 : 32 + (k - 32) = k := by omega
    simpa [slotGen, h1, h2, hk] using this

/-- A handle that passes the sign test has a generation below `2 ^ 31`. -/
theorem slotGen_lt_of_pos {ref : Handle} (h : 0 < ref.toInt) : (slotGen ref).toNat < 2 ^ 31 := by
  have hlt : ref.toNat < 2 ^ 63 := by
    by_contra hc
    rw [BitVec.toInt_eq_toNat_cond] at h
    split at h
    · omega
    · have := ref.isLt
      omega
  simp only [slotGen, BitVec.toNat_setWidth, BitVec.toNat_ushiftRight, Nat.shiftRight_eq_div_pow]
  have : ref.toNat / 2 ^ 32 < 2 ^ 31 := by omega
  omega

-- ---------------------------------------------------------------------------
-- Operations
-- ---------------------------------------------------------------------------

def slotGet (t : SlotTable) (ref : Handle) : Option Slot :=
  let idx := (slotIndex ref).toInt
  if ref.toInt ≤ 0 ∨ idx < 0 ∨ (t.slots.length : Int) ≤ idx then none
  else
    match t.slots[idx.toNat]? with
    | some s => if 0 < s.refcount.toInt ∧ s.gen = slotGen ref then some s else none
    | none => none

/-- The doubling of `slot_cap`; `grow` is `realloc`'s answer. Past `INT32_MAX`
the size handed to `realloc` is one that no allocator serves. -/
def reserve (t : SlotTable) (grow : Bool) : Option SlotTable :=
  if t.slots.length = t.cap then
    let cap := if t.cap = 0 then 16 else t.cap * 2
    if grow ∧ cap ≤ int32Max then some { t with cap := cap } else none
  else some t

/-- Handle 0 says that no slot could be allocated. -/
def slotNew (t : SlotTable) (v : JSValue) (grow : Bool) : SlotTable × Handle :=
  if 0 ≤ t.freeHead then
    let idx := t.freeHead.toNat
    match t.slots[idx]? with
    | some s =>
      ({ t with
          freeHead := s.nextFree
          slots := t.slots.set idx { s with val := v, refcount := 1, nextFree := -1 } },
        slotHandle (.ofNat 32 idx) s.gen)
    | none => (t, 0)
  else if t.slots.length = int32Max then (t, 0)
  else
    match t.reserve grow with
    | none => (t, 0)
    | some t =>
      ({ t with slots := t.slots ++ [{ val := v, refcount := 1, nextFree := -1, gen := 0 }] },
        slotHandle (.ofNat 32 t.slots.length) 0)

def slotFree (t : SlotTable) (ref : Handle) : SlotTable :=
  let idx := (slotIndex ref).toNat
  match t.slots[idx]? with
  | some s =>
    { t with
      slots := t.slots.set idx
        { val := .undefined, refcount := 0, gen := s.gen + 1, nextFree := t.freeHead }
      freeHead := idx }
  | none => t

def kmpjsRefRetain (t : SlotTable) (ref : Handle) : SlotTable :=
  match t.slotGet ref with
  | some s =>
    { t with slots := t.slots.set (slotIndex ref).toNat { s with refcount := s.refcount + 1 } }
  | none => t

def kmpjsRefRelease (t : SlotTable) (ref : Handle) : SlotTable :=
  match t.slotGet ref with
  | some s =>
    let t' := { t with
      slots := t.slots.set (slotIndex ref).toNat { s with refcount := s.refcount - 1 } }
    if s.refcount - 1 = 0 then t'.slotFree ref else t'
  | none => t

/-- What a run does to the table. `new` carries `realloc`'s answer. -/
inductive Op
  | new (v : JSValue) (grow : Bool)
  | retain (ref : Handle)
  | release (ref : Handle)
  deriving DecidableEq, Repr

def apply (t : SlotTable) : Op → SlotTable
  | .new v grow => (t.slotNew v grow).1
  | .retain ref => t.kmpjsRefRetain ref
  | .release ref => t.kmpjsRefRelease ref

def run (ops : List Op) : SlotTable := ops.foldl apply empty

/-- The handles that `slot_new` returned in a run, failures included. -/
def issued (t : SlotTable) : List Op → List Handle
  | [] => []
  | .new v grow :: ops => (t.slotNew v grow).2 :: issued (t.slotNew v grow).1 ops
  | op :: ops => issued (t.apply op) ops

-- ---------------------------------------------------------------------------
-- Reading through a handle
-- ---------------------------------------------------------------------------

/-- The slot a handle's index names, whatever its generation. -/
def slotAt (t : SlotTable) (ref : Handle) : Option Slot := t.slots[(slotIndex ref).toNat]?

theorem slotGet_eq_some {t : SlotTable} (h : t.slotGet ref = some s) :
    0 < ref.toInt ∧ t.slotAt ref = some s ∧ 0 < s.refcount.toInt ∧ s.gen = slotGen ref := by
  unfold slotGet at h
  simp only at h
  split at h
  · cases h
  · rename_i hc
    simp only [not_or, not_le, not_lt] at hc
    have hidx : (slotIndex ref).toInt.toNat = (slotIndex ref).toNat := by
      have hlt := (slotIndex ref).isLt
      have hint := BitVec.toInt_eq_toNat_cond (slotIndex ref)
      split at hint <;> omega
    rw [hidx] at h
    split at h
    · rename_i hs
      split at h
      · rename_i hg
        cases h
        exact ⟨hc.1, hs, hg⟩
      · cases h
    · cases h

/-- A slot that was freed since the handle was made refuses it. -/
def Spent (t : SlotTable) (ref : Handle) : Prop :=
  ∃ s, t.slotAt ref = some s ∧ (slotGen ref).toNat < s.gen.toNat

/-- The slot is held under exactly this handle. -/
def Held (t : SlotTable) (ref : Handle) : Prop :=
  ∃ s, t.slotAt ref = some s ∧ s.gen = slotGen ref ∧ s.refcount ≠ 0

theorem Spent.slotGet_none {t : SlotTable} (h : t.Spent ref) : t.slotGet ref = none := by
  obtain ⟨s, hs, hlt⟩ := h
  cases hg : t.slotGet ref with
  | none => rfl
  | some s' =>
    obtain ⟨-, hs', -, hgen⟩ := slotGet_eq_some hg
    rw [hs] at hs'
    cases hs'
    rw [hgen] at hlt
    exact absurd hlt (lt_irrefl _)

-- ---------------------------------------------------------------------------
-- The free chain
-- ---------------------------------------------------------------------------

/-- `l` lists the slots met when `next_free` is followed from `head`. -/
def Chain (ss : List Slot) : Int → List ℕ → Prop
  | head, [] => head = -1
  | head, i :: l => head = i ∧ ∃ s, ss[i]? = some s ∧ Chain ss s.nextFree l

theorem Chain.set_of_notMem {ss : List Slot} (h : Chain ss head l) (hi : i ∉ l) (s : Slot) :
    Chain (ss.set i s) head l := by
  induction l generalizing head with
  | nil => exact h
  | cons j l ih =>
    obtain ⟨hj, s', hs', hrest⟩ := h
    have hne : i ≠ j := fun he => hi (he ▸ List.mem_cons_self)
    refine ⟨hj, s', ?_, ih hrest fun hm => hi (List.mem_cons_of_mem _ hm)⟩
    rw [List.getElem?_set_ne hne, hs']

theorem Chain.append {ss : List Slot} (h : Chain ss head l) (more : List Slot) :
    Chain (ss ++ more) head l := by
  induction l generalizing head with
  | nil => exact h
  | cons j l ih =>
    obtain ⟨hj, s', hs', hrest⟩ := h
    refine ⟨hj, s', ?_, ih hrest⟩
    rw [List.getElem?_append_left (List.getElem?_eq_some_iff.mp hs').1, hs']

theorem Chain.lt_of_mem {ss : List Slot} (h : Chain ss head l) (hi : i ∈ l) : i < ss.length := by
  induction l generalizing head with
  | nil => cases hi
  | cons j l ih =>
    obtain ⟨-, s, hs, hrest⟩ := h
    rcases List.mem_cons.mp hi with rfl | hi
    · exact (List.getElem?_eq_some_iff.mp hs).1
    · exact ih hrest hi

/-- The table's invariant, with the chain from `free_head` written out. -/
structure Inv (t : SlotTable) (free : List ℕ) : Prop where
  count : t.slots.length ≤ int32Max
  gens : ∀ (i : ℕ) (s : Slot), t.slots[i]? = some s → s.gen.toNat ≤ 2 ^ 31
  chain : Chain t.slots t.freeHead free
  nodup : free.Nodup
  zero : ∀ (i : ℕ) (s : Slot), t.slots[i]? = some s → (i ∈ free ↔ s.refcount = 0)

theorem inv_empty : Inv empty [] where
  count := by decide
  gens := by simp [empty]
  chain := rfl
  nodup := List.nodup_nil
  zero := by simp [empty]

/-- What a slot may become in one operation. -/
structure Evolves (t t' : SlotTable) : Prop where
  slot : ∀ (i : ℕ) (s : Slot), t.slots[i]? = some s → ∃ s', t'.slots[i]? = some s' ∧
    ((s'.gen = s.gen ∧ (s.refcount ≠ 0 → s'.refcount ≠ 0)) ∨
      s'.gen.toNat = s.gen.toNat + 1)

theorem Evolves.refl (t : SlotTable) : Evolves t t := ⟨fun _ s hs => ⟨s, hs, .inl ⟨rfl, id⟩⟩⟩

/-- Rewriting one slot that keeps its generation and its being held. -/
theorem Evolves.set {t t' : SlotTable} (ht : t'.slots = t.slots.set i s')
    (hs : t.slots[i]? = some s)
    (h : (s'.gen = s.gen ∧ (s.refcount ≠ 0 → s'.refcount ≠ 0)) ∨
      s'.gen.toNat = s.gen.toNat + 1) : Evolves t t' := by
  refine ⟨fun j u hu => ?_⟩
  rw [ht]
  by_cases hij : i = j
  · subst hij
    rw [hs] at hu
    cases hu
    refine ⟨s', ?_, h⟩
    simp [(List.getElem?_eq_some_iff.mp hs).1]
  · exact ⟨u, by rw [List.getElem?_set_ne hij, hu], .inl ⟨rfl, id⟩⟩

theorem Evolves.spent {t t' : SlotTable} (h : Evolves t t') (hs : t.Spent ref) :
    t'.Spent ref := by
  obtain ⟨s, hs, hlt⟩ := hs
  obtain ⟨s', hs', hcase⟩ := h.slot _ s hs
  refine ⟨s', hs', ?_⟩
  rcases hcase with ⟨hg, -⟩ | hg
  · rw [hg]
    exact hlt
  · omega

theorem Evolves.held {t t' : SlotTable} (h : Evolves t t') (hs : t.Held ref) :
    t'.Spent ref ∨ t'.Held ref := by
  obtain ⟨s, hs, hg, hr⟩ := hs
  obtain ⟨s', hs', hcase⟩ := h.slot _ s hs
  rcases hcase with ⟨hg', hr'⟩ | hg'
  · exact .inr ⟨s', hs', hg'.trans hg, hr' hr⟩
  · refine .inl ⟨s', hs', ?_⟩
    rw [← hg]
    omega

-- ---------------------------------------------------------------------------
-- Every operation keeps the invariant
-- ---------------------------------------------------------------------------

theorem toInt_pos_ne_zero {c : BitVec 32} (h : 0 < c.toInt) : c ≠ 0 := by
  rintro rfl
  simp at h

/-- A positive count stays nonzero when it is incremented: at `INT32_MAX` it
wraps to the least `int32_t`. -/
theorem succ_ne_zero_of_pos {c : BitVec 32} (h : 0 < c.toInt) : c + 1 ≠ 0 := by
  intro he
  have hc : c = -1 := by bv_omega
  subst hc
  simp at h

theorem pred_ne_zero {c : BitVec 32} (h : c ≠ 1) : c - 1 ≠ 0 := by
  bv_omega

/-- Rewriting a held slot into a held slot of the same generation. -/
theorem Inv.setHeld {t : SlotTable} (h : Inv t free) (hs : t.slots[i]? = some s)
    (hr : s.refcount ≠ 0) (hr' : s'.refcount ≠ 0) (hg : s'.gen = s.gen) :
    Inv { t with slots := t.slots.set i s' } free := by
  have hi : i ∉ free := fun hm => hr ((h.zero i s hs).mp hm)
  refine ⟨by simpa using h.count, ?_, h.chain.set_of_notMem hi s', h.nodup, ?_⟩
  · intro j u hu
    rcases getElem?_set_cases hu with ⟨-, rfl⟩ | ⟨-, hu⟩
    · rw [hg]
      exact h.gens i s hs
    · exact h.gens j u hu
  · intro j u hu
    rcases getElem?_set_cases hu with ⟨rfl, rfl⟩ | ⟨-, hu⟩
    · exact iff_of_false hi hr'
    · exact h.zero j u hu

theorem kmpjsRefRetain_of_some {t : SlotTable} (hg : t.slotGet ref = some s) :
    t.kmpjsRefRetain ref = { t with
      slots := t.slots.set (slotIndex ref).toNat { s with refcount := s.refcount + 1 } } := by
  simp only [kmpjsRefRetain, hg]

theorem kmpjsRefRetain_spec {t : SlotTable} (h : Inv t free) :
    Inv (t.kmpjsRefRetain ref) free ∧ Evolves t (t.kmpjsRefRetain ref) := by
  unfold kmpjsRefRetain
  cases hg : t.slotGet ref with
  | none => exact ⟨h, .refl t⟩
  | some s =>
    obtain ⟨-, hs, hr, -⟩ := slotGet_eq_some hg
    have hne := succ_ne_zero_of_pos hr
    exact ⟨h.setHeld hs (toInt_pos_ne_zero hr) hne rfl, .set rfl hs (.inl ⟨rfl, fun _ => hne⟩)⟩

/-- Putting a held slot on the free chain. The generation moves on, and stays
within `2 ^ 31` because the handle that got here was positive. -/
theorem Inv.giveBack {t t' : SlotTable} (h : Inv t free) (hs : t.slots[i]? = some s)
    (hr : s.refcount ≠ 0) (hg : s.gen.toNat < 2 ^ 31)
    (ht : t' = { t with
      slots := t.slots.set i
        { val := .undefined, refcount := 0, gen := s.gen + 1, nextFree := t.freeHead }
      freeHead := i }) :
    Inv t' (i :: free) ∧ Evolves t t' := by
  subst ht
  have hi : i ∉ free := fun hm => hr ((h.zero i s hs).mp hm)
  have hlt := (List.getElem?_eq_some_iff.mp hs).1
  have hgen : (s.gen + 1).toNat = s.gen.toNat + 1 := by
    rw [BitVec.toNat_add]
    simp only [BitVec.ofNat_eq_ofNat, BitVec.toNat_ofNat]
    omega
  refine ⟨⟨by simpa using h.count, ?_, ?_, List.nodup_cons.mpr ⟨hi, h.nodup⟩, ?_⟩,
    .set rfl hs (.inr hgen)⟩
  · intro j u hu
    rcases getElem?_set_cases hu with ⟨-, rfl⟩ | ⟨-, hu⟩
    · show (s.gen + 1).toNat ≤ 2 ^ 31
      omega
    · exact h.gens j u hu
  · exact ⟨rfl, _, List.getElem?_set_self hlt, h.chain.set_of_notMem hi _⟩
  · intro j u hu
    rcases getElem?_set_cases hu with ⟨rfl, rfl⟩ | ⟨hij, hu⟩
    · simp
    · rw [List.mem_cons, or_iff_right (Ne.symm hij)]
      exact h.zero j u hu

theorem kmpjsRefRelease_of_last {t : SlotTable} (hg : t.slotGet ref = some s)
    (hr : s.refcount = 1) :
    t.kmpjsRefRelease ref = { t with
      slots := t.slots.set (slotIndex ref).toNat
        { val := .undefined, refcount := 0, gen := s.gen + 1, nextFree := t.freeHead }
      freeHead := (slotIndex ref).toNat } := by
  obtain ⟨-, hs, -, -⟩ := slotGet_eq_some hg
  have hlt := (List.getElem?_eq_some_iff.mp hs).1
  simp [kmpjsRefRelease, hg, hr, slotFree, List.getElem?_set_self hlt]

theorem kmpjsRefRelease_of_more {t : SlotTable} (hg : t.slotGet ref = some s)
    (hr : s.refcount ≠ 1) :
    t.kmpjsRefRelease ref = { t with
      slots := t.slots.set (slotIndex ref).toNat { s with refcount := s.refcount - 1 } } := by
  simp only [kmpjsRefRelease, hg, if_neg (pred_ne_zero hr)]

theorem kmpjsRefRelease_spec {t : SlotTable} (h : Inv t free) :
    ∃ free', Inv (t.kmpjsRefRelease ref) free' ∧ Evolves t (t.kmpjsRefRelease ref) := by
  cases hg : t.slotGet ref with
  | none => exact ⟨free, by simpa [kmpjsRefRelease, hg] using ⟨h, Evolves.refl t⟩⟩
  | some s =>
    obtain ⟨hpos, hs, hr, hgen⟩ := slotGet_eq_some hg
    by_cases hone : s.refcount = 1
    · have hlt : s.gen.toNat < 2 ^ 31 := hgen ▸ slotGen_lt_of_pos hpos
      exact ⟨_, h.giveBack hs (toInt_pos_ne_zero hr) hlt (kmpjsRefRelease_of_last hg hone)⟩
    · have hne := pred_ne_zero hone
      rw [kmpjsRefRelease_of_more hg hone]
      exact ⟨free, h.setHeld hs (toInt_pos_ne_zero hr) hne rfl,
        .set rfl hs (.inl ⟨rfl, fun _ => hne⟩)⟩

/-- Releasing the last count spends the handle. -/
theorem spent_of_last {t : SlotTable} (hg : t.slotGet ref = some s) (hr : s.refcount = 1) :
    (t.kmpjsRefRelease ref).Spent ref := by
  obtain ⟨hpos, hs, -, hgen⟩ := slotGet_eq_some hg
  have hlt := (List.getElem?_eq_some_iff.mp hs).1
  rw [kmpjsRefRelease_of_last hg hr]
  refine ⟨_, List.getElem?_set_self hlt, ?_⟩
  have := slotGen_lt_of_pos hpos
  rw [hgen, BitVec.toNat_add]
  simp only [BitVec.ofNat_eq_ofNat, BitVec.toNat_ofNat]
  omega

theorem slotAt_slotHandle {t : SlotTable} (hi : i < 2 ^ 32) (g : BitVec 32) :
    t.slotAt (slotHandle (.ofNat 32 i) g) = t.slots[i]? := by
  rw [slotAt, slotIndex_slotHandle, BitVec.toNat_ofNat, Nat.mod_eq_of_lt hi]

/-- The slot as `slot_new` leaves it. -/
def fresh (v : JSValue) (gen : BitVec 32) : Slot :=
  { val := v, refcount := 1, nextFree := -1, gen := gen }

theorem reserve_eq_some {t t' : SlotTable} (h : t.reserve grow = some t') :
    ∃ cap, t' = { t with cap := cap } := by
  simp only [reserve] at h
  repeat' split at h
  all_goals first | exact ⟨_, (Option.some.inj h).symm⟩ | cases h

/-- Everything `slot_new` can do: fail, take the head of the free chain, or
append a slot. -/
theorem slotNew_cases (t : SlotTable) (v : JSValue) (grow : Bool) :
    t.slotNew v grow = (t, 0) ∨
    (∃ (i : ℕ) (s : Slot), t.freeHead = i ∧ t.slots[i]? = some s ∧
      t.slotNew v grow =
        ({ t with freeHead := s.nextFree, slots := t.slots.set i (fresh v s.gen) },
          slotHandle (.ofNat 32 i) s.gen)) ∨
    (∃ cap, t.freeHead < 0 ∧ t.slots.length ≠ int32Max ∧
      t.slotNew v grow =
        ({ t with cap := cap, slots := t.slots ++ [fresh v 0] },
          slotHandle (.ofNat 32 t.slots.length) 0)) := by
  unfold slotNew
  split
  · rename_i hhead
    simp only
    split
    · rename_i s hs
      exact .inr (.inl ⟨_, s, (Int.toNat_of_nonneg hhead).symm, hs, rfl⟩)
    · exact .inl rfl
  · rename_i hhead
    split
    · exact .inl rfl
    · rename_i hfull
      split
      · exact .inl rfl
      · rename_i t' ht'
        obtain ⟨cap, rfl⟩ := reserve_eq_some ht'
        exact .inr (.inr ⟨cap, by omega, hfull, rfl⟩)

theorem Inv.take {t : SlotTable} (h : Inv t free) (hhead : t.freeHead = (i : ℕ))
    (hs : t.slots[i]? = some s) (v : JSValue) :
    s.refcount = 0 ∧ ∃ free',
      Inv { t with freeHead := s.nextFree, slots := t.slots.set i (fresh v s.gen) } free' := by
  cases free with
  | nil =>
    have hnil : t.freeHead = -1 := h.chain
    omega
  | cons j rest =>
    obtain ⟨hj, u, hu, hrest⟩ := h.chain
    obtain rfl : i = j := by omega
    rw [hs] at hu
    cases hu
    have hzero : s.refcount = 0 := (h.zero i s hs).mp List.mem_cons_self
    obtain ⟨hnotin, hnodup⟩ := List.nodup_cons.mp h.nodup
    refine ⟨hzero, rest, by simpa using h.count, ?_, hrest.set_of_notMem hnotin _, hnodup, ?_⟩
    · intro k u hu
      rcases getElem?_set_cases hu with ⟨-, rfl⟩ | ⟨-, hu⟩
      · exact h.gens i s hs
      · exact h.gens k u hu
    · intro k u hu
      rcases getElem?_set_cases hu with ⟨rfl, rfl⟩ | ⟨hik, hu⟩
      · exact iff_of_false hnotin (by simp [fresh])
      · rw [← h.zero k u hu, List.mem_cons, or_iff_right (Ne.symm hik)]

theorem Inv.grow {t : SlotTable} (h : Inv t free) (hfull : t.slots.length ≠ int32Max)
    (v : JSValue) (cap : ℕ) :
    Inv { t with cap := cap, slots := t.slots ++ [fresh v 0] } free := by
  have hcount := h.count
  refine ⟨?_, ?_, h.chain.append _, h.nodup, ?_⟩
  · simp only [List.length_append, List.length_singleton]
    omega
  · intro j u hu
    rcases getElem?_append_cases hu with hu | ⟨-, rfl⟩
    · exact h.gens j u hu
    · simp [fresh]
  · intro j u hu
    rcases getElem?_append_cases hu with hu | ⟨rfl, rfl⟩
    · exact h.zero j u hu
    · refine iff_of_false (fun hm => ?_) (by simp [fresh])
      exact absurd (h.chain.lt_of_mem hm) (lt_irrefl _)

theorem Evolves.append {t t' : SlotTable} (ht : t'.slots = t.slots ++ more) : Evolves t t' := by
  refine ⟨fun i s hs => ⟨s, ?_, .inl ⟨rfl, id⟩⟩⟩
  rw [ht, List.getElem?_append_left (List.getElem?_eq_some_iff.mp hs).1, hs]

theorem Inv.index_lt {t : SlotTable} (h : Inv t free) (hi : i ≤ t.slots.length) : i < 2 ^ 32 := by
  have := h.count
  simp only [int32Max] at this
  omega

/-- A handle `slot_new` just made: nobody had it before, and its slot now
holds the value once. -/
structure Made (t : SlotTable) (v : JSValue) (ref : Handle) (t' : SlotTable) : Prop where
  notSpent : ¬ t.Spent ref
  notHeld : ¬ t.Held ref
  slot : t'.slotAt ref = some (fresh v (slotGen ref))

theorem slotNew_spec {t : SlotTable} (h : Inv t free) (v : JSValue) (grow : Bool) :
    ∃ free', Inv (t.slotNew v grow).1 free' ∧ Evolves t (t.slotNew v grow).1 ∧
      ((t.slotNew v grow).2 ≠ 0 → Made t v (t.slotNew v grow).2 (t.slotNew v grow).1) := by
  rcases t.slotNew_cases v grow with he | ⟨i, s, hhead, hs, he⟩ | ⟨cap, -, hfull, he⟩
  · rw [he]
    exact ⟨free, h, .refl t, fun hne => absurd rfl hne⟩
  · rw [he]
    obtain ⟨hzero, free', hinv⟩ := h.take hhead hs v
    have hlt := (List.getElem?_eq_some_iff.mp hs).1
    have hat : ∀ u : SlotTable, u.slotAt (slotHandle (.ofNat 32 i) s.gen) = u.slots[i]? :=
      fun _ => slotAt_slotHandle (h.index_lt hlt.le) _
    refine ⟨free', hinv, .set rfl hs (.inl ⟨rfl, fun hr => absurd hzero hr⟩), fun _ => ⟨?_, ?_, ?_⟩⟩
    · rintro ⟨u, hu, hgen⟩
      rw [hat, hs] at hu
      cases hu
      rw [slotGen_slotHandle] at hgen
      exact lt_irrefl _ hgen
    · rintro ⟨u, hu, -, hr⟩
      rw [hat, hs] at hu
      cases hu
      exact hr hzero
    · rw [hat, slotGen_slotHandle]
      exact List.getElem?_set_self hlt
  · rw [he]
    have hat : ∀ u : SlotTable, u.slotAt (slotHandle (.ofNat 32 t.slots.length) 0) =
        u.slots[t.slots.length]? := fun _ => slotAt_slotHandle (h.index_lt le_rfl) _
    have hnone : t.slots[t.slots.length]? = none := by simp
    refine ⟨free, h.grow hfull v cap, .append rfl, fun _ => ⟨?_, ?_, ?_⟩⟩
    · rintro ⟨u, hu, -⟩
      rw [hat, hnone] at hu
      cases hu
    · rintro ⟨u, hu, -⟩
      rw [hat, hnone] at hu
      cases hu
    · rw [hat, slotGen_slotHandle]
      simp

theorem Made.held {t t' : SlotTable} (h : Made t v ref t') : t'.Held ref :=
  ⟨_, h.slot, rfl, by simp [fresh]⟩

theorem apply_spec {t : SlotTable} (h : Inv t free) (op : Op) :
    ∃ free', Inv (t.apply op) free' ∧ Evolves t (t.apply op) := by
  cases op with
  | new v grow =>
    obtain ⟨free', hinv, hev, -⟩ := slotNew_spec h v grow
    exact ⟨free', hinv, hev⟩
  | retain ref => exact ⟨free, kmpjsRefRetain_spec h⟩
  | release ref => exact kmpjsRefRelease_spec h

-- ---------------------------------------------------------------------------
-- Runs
-- ---------------------------------------------------------------------------

theorem foldl_inv {t : SlotTable} (h : Inv t free) (ops : List Op) :
    ∃ free', Inv (ops.foldl apply t) free' := by
  induction ops generalizing t free with
  | nil => exact ⟨free, h⟩
  | cons op ops ih =>
    obtain ⟨free', hinv, -⟩ := apply_spec h op
    exact ih hinv

theorem run_inv (ops : List Op) : ∃ free, Inv (run ops) free := foldl_inv inv_empty ops

theorem foldl_spent {t : SlotTable} (h : Inv t free) (hs : t.Spent ref) (ops : List Op) :
    (ops.foldl apply t).Spent ref := by
  induction ops generalizing t free with
  | nil => exact hs
  | cons op ops ih =>
    obtain ⟨free', hinv, hev⟩ := apply_spec h op
    exact ih hinv (hev.spent hs)

/-- No handle issued from here on was spent or held before. -/
theorem issued_fresh {t : SlotTable} (h : Inv t free) (hold : t.Spent ref ∨ t.Held ref)
    (hne : ref ≠ 0) (ops : List Op) : ref ∉ t.issued ops := by
  induction ops generalizing t free with
  | nil => simp [issued]
  | cons op ops ih =>
    obtain ⟨free', hinv, hev⟩ := apply_spec h op
    have hnext : (t.apply op).Spent ref ∨ (t.apply op).Held ref :=
      hold.elim (fun hs => .inl (hev.spent hs)) hev.held
    cases op with
    | new v grow =>
      obtain ⟨-, -, -, hmade⟩ := slotNew_spec h v grow
      simp only [issued, List.mem_cons, not_or]
      refine ⟨?_, ih hinv hnext⟩
      rintro rfl
      exact hold.elim (hmade hne).notSpent (hmade hne).notHeld
    | retain _ => exact ih hinv hnext
    | release _ => exact ih hinv hnext

theorem issued_nodup {t : SlotTable} (h : Inv t free) (ops : List Op) :
    ((t.issued ops).filter (· ≠ 0)).Nodup := by
  induction ops generalizing t free with
  | nil => simp [issued]
  | cons op ops ih =>
    obtain ⟨free', hinv, -⟩ := apply_spec h op
    cases op with
    | new v grow =>
      obtain ⟨-, -, -, hmade⟩ := slotNew_spec h v grow
      simp only [issued, List.filter_cons]
      split
      · rename_i hne
        have hne : (t.slotNew v grow).2 ≠ 0 := by simpa using hne
        refine List.nodup_cons.mpr ⟨fun hm => ?_, ih hinv⟩
        exact issued_fresh hinv (.inr (hmade hne).held) hne ops (List.mem_of_mem_filter hm)
      · exact ih hinv
    | retain _ => exact ih hinv
    | release _ => exact ih hinv

-- ---------------------------------------------------------------------------
-- One handle while others are used
-- ---------------------------------------------------------------------------

theorem slotGet_of_slotAt {t : SlotTable} (h : Inv t free) (hpos : 0 < ref.toInt)
    (hs : t.slotAt ref = some s) (hr : 0 < s.refcount.toInt) (hg : s.gen = slotGen ref) :
    t.slotGet ref = some s := by
  have hlt : (slotIndex ref).toNat < t.slots.length := (List.getElem?_eq_some_iff.mp hs).1
  have hint : (slotIndex ref).toInt = (slotIndex ref).toNat := by
    have hcount := h.count
    simp only [int32Max] at hcount
    rw [BitVec.toInt_eq_toNat_cond, if_pos (by omega)]
  unfold slotAt at hs
  simp only [slotGet, hint, Int.toNat_natCast, hs, hr, hg, and_self, ↓reduceIte]
  rw [if_neg (by omega)]

/-- Retaining or releasing rewrites at most the slot the handle names, and
only when the handle is current. -/
theorem apply_handle_cases {t : SlotTable} (hop : op = .retain ref ∨ op = .release ref) :
    t.apply op = t ∨ ∃ s u, t.slotGet ref = some s ∧
      (t.apply op).slots = t.slots.set (slotIndex ref).toNat u := by
  cases hg : t.slotGet ref with
  | none =>
    refine .inl ?_
    rcases hop with rfl | rfl
    · simp [apply, kmpjsRefRetain, hg]
    · simp [apply, kmpjsRefRelease, hg]
  | some s =>
    refine .inr ⟨s, ?_⟩
    rcases hop with rfl | rfl
    · exact ⟨_, rfl, congrArg SlotTable.slots (kmpjsRefRetain_of_some hg)⟩
    · by_cases hone : s.refcount = 1
      · exact ⟨_, rfl, congrArg SlotTable.slots (kmpjsRefRelease_of_last hg hone)⟩
      · exact ⟨_, rfl, congrArg SlotTable.slots (kmpjsRefRelease_of_more hg hone)⟩

/-- Frame: a held slot is changed through its own handle only. -/
theorem slotAt_apply {t : SlotTable} (h : Inv t free) (hs : t.slotAt ref = some s)
    (hr : s.refcount ≠ 0) (hg : s.gen = slotGen ref) (hret : op ≠ .retain ref)
    (hrel : op ≠ .release ref) : (t.apply op).slotAt ref = some s := by
  have other : ∀ r, r ≠ ref → op = .retain r ∨ op = .release r →
      (t.apply op).slotAt ref = some s := by
    intro r hne hop
    rcases apply_handle_cases hop with he | ⟨s', u, hget, he⟩
    · rw [he, hs]
    · obtain ⟨-, hs', -, hg'⟩ := slotGet_eq_some hget
      have hidx : (slotIndex r).toNat ≠ (slotIndex ref).toNat := by
        intro hidx
        have hat : t.slotAt r = t.slotAt ref := congrArg (t.slots[·]?) hidx
        rw [hat, hs] at hs'
        cases hs'
        exact hne (handle_ext (BitVec.eq_of_toNat_eq hidx) (hg'.symm.trans hg))
      rw [slotAt, he, List.getElem?_set_ne hidx]
      exact hs
  cases op with
  | new v grow =>
    simp only [apply]
    rcases t.slotNew_cases v grow with he | ⟨i, u, hhead, hu, he⟩ | ⟨cap, -, -, he⟩
    · rw [he]
      exact hs
    · have hidx : i ≠ (slotIndex ref).toNat := by
        rintro rfl
        have hzero := (h.take hhead hu v).1
        unfold slotAt at hs
        rw [hs] at hu
        cases hu
        exact hr hzero
      rw [he, slotAt]
      exact (List.getElem?_set_ne hidx).trans hs
    · rw [he, slotAt]
      exact (List.getElem?_append_left (List.getElem?_eq_some_iff.mp hs).1).trans hs
  | retain r => exact other r (fun he => hret (he ▸ rfl)) (.inl rfl)
  | release r => exact other r (fun he => hrel (he ▸ rfl)) (.inr rfl)

/-- The handle is of no use any more: its slot was freed, or its count ran
over `INT32_MAX`. -/
def Gone (t : SlotTable) (ref : Handle) : Prop :=
  t.Spent ref ∨ ∃ s, t.slotAt ref = some s ∧ s.gen = slotGen ref ∧ s.refcount.toInt < 0

theorem Gone.slotGet_none {t : SlotTable} (h : t.Gone ref) : t.slotGet ref = none := by
  rcases h with hs | ⟨s, hs, -, hr⟩
  · exact hs.slotGet_none
  · cases hg : t.slotGet ref with
    | none => rfl
    | some u =>
      obtain ⟨-, hu, hpos, -⟩ := slotGet_eq_some hg
      rw [hs] at hu
      cases hu
      omega

theorem Gone.apply {t : SlotTable} (h : Inv t free) (hgone : t.Gone ref) (op : Op) :
    (t.apply op).Gone ref := by
  have hnone := hgone.slotGet_none
  by_cases hop : op = .retain ref ∨ op = .release ref
  · rcases apply_handle_cases (t := t) hop with he | ⟨s, _, hget, -⟩
    · rw [he]
      exact hgone
    · rw [hnone] at hget
      cases hget
  · obtain ⟨hret, hrel⟩ := not_or.mp hop
    rcases hgone with hs | ⟨s, hs, hg, hr⟩
    · obtain ⟨free', -, hev⟩ := apply_spec h op
      exact .inl (hev.spent hs)
    · have hne : s.refcount ≠ 0 := by
        intro he
        rw [he] at hr
        simp at hr
      exact .inr ⟨s, slotAt_apply h hs hne hg hret hrel, hg, hr⟩

theorem toInt_of_pos {c : BitVec 32} (h : 0 < c.toInt) :
    c.toInt = c.toNat ∧ 0 < c.toNat ∧ c.toNat < 2 ^ 31 := by
  have hlt := c.isLt
  have hc := BitVec.toInt_eq_toNat_cond c
  split at hc <;> omega

theorem toInt_succ {c : BitVec 32} (h : 0 < c.toInt) :
    (c + 1).toInt = if c.toInt + 1 < 2 ^ 31 then c.toInt + 1 else -2 ^ 31 := by
  obtain ⟨hc, -, hlt⟩ := toInt_of_pos h
  have hnat : (c + 1).toNat = c.toNat + 1 := by
    rw [BitVec.toNat_add]
    simp only [BitVec.ofNat_eq_ofNat, BitVec.toNat_ofNat]
    omega
  rw [BitVec.toInt_eq_toNat_cond, hnat, hc]
  split <;> split <;> omega

theorem toInt_pred {c : BitVec 32} (h : 0 < c.toInt) : (c - 1).toInt = c.toInt - 1 := by
  obtain ⟨hc, hpos, hlt⟩ := toInt_of_pos h
  have hnat : (c - 1).toNat = c.toNat - 1 := by
    rw [BitVec.toNat_sub]
    simp only [BitVec.ofNat_eq_ofNat, BitVec.toNat_ofNat]
    omega
  rw [BitVec.toInt_eq_toNat_cond, hnat, hc]
  split <;> omega

/-- Rewriting the slot of a current handle, without freeing it. -/
theorem slotGet_set {t t' : SlotTable} (h : Inv t' free) (hget : t.slotGet ref = some s)
    (ht : t'.slots = t.slots.set (slotIndex ref).toNat u) (hg : u.gen = s.gen)
    (hr : 0 < u.refcount.toInt) : t'.slotGet ref = some u := by
  obtain ⟨hpos, hs, -, hgen⟩ := slotGet_eq_some hget
  have hlt : (slotIndex ref).toNat < t.slots.length := (List.getElem?_eq_some_iff.mp hs).1
  refine slotGet_of_slotAt h hpos ?_ hr (hg.trans hgen)
  rw [slotAt, ht, List.getElem?_set_self hlt]

theorem retain_current {t : SlotTable} (h : Inv t free) (hget : t.slotGet ref = some s) :
    if s.refcount.toInt + 1 < 2 ^ 31 then
      (t.kmpjsRefRetain ref).slotGet ref = some { s with refcount := s.refcount + 1 }
    else (t.kmpjsRefRetain ref).Gone ref := by
  obtain ⟨-, hs, hr, hgen⟩ := slotGet_eq_some hget
  have hlt := (List.getElem?_eq_some_iff.mp hs).1
  have hsucc := toInt_succ hr
  have hinv : Inv (t.kmpjsRefRetain ref) free := (kmpjsRefRetain_spec h).1
  have hslots := congrArg SlotTable.slots (kmpjsRefRetain_of_some hget)
  split
  · rename_i hc
    rw [if_pos hc] at hsucc
    refine slotGet_set hinv hget hslots rfl ?_
    show 0 < (s.refcount + 1).toInt
    omega
  · rename_i hc
    rw [if_neg hc] at hsucc
    refine .inr ⟨{ s with refcount := s.refcount + 1 }, ?_, hgen, ?_⟩
    · rw [slotAt, hslots, List.getElem?_set_self hlt]
    · show (s.refcount + 1).toInt < 0
      omega

theorem release_current {t : SlotTable} (h : Inv t free) (hget : t.slotGet ref = some s) :
    if 1 < s.refcount.toInt then
      (t.kmpjsRefRelease ref).slotGet ref = some { s with refcount := s.refcount - 1 }
    else (t.kmpjsRefRelease ref).Gone ref := by
  obtain ⟨-, -, hr, -⟩ := slotGet_eq_some hget
  split
  · rename_i hc
    have hone : s.refcount ≠ 1 := by
      intro he
      rw [he] at hc
      exact absurd hc (by decide)
    obtain ⟨free', hinv, -⟩ : ∃ free', Inv (t.kmpjsRefRelease ref) free' ∧ _ :=
      kmpjsRefRelease_spec h
    refine slotGet_set hinv hget (congrArg SlotTable.slots (kmpjsRefRelease_of_more hget hone)) rfl ?_
    show 0 < (s.refcount - 1).toInt
    rw [toInt_pred hr]
    omega
  · rename_i hc
    have hone : s.refcount = 1 := by
      have : s.refcount.toInt = (1 : BitVec 32).toInt := by
        have : (1 : BitVec 32).toInt = 1 := by decide
        omega
      exact BitVec.eq_of_toInt_eq this
    exact .inl (spent_of_last hget hone)

end SlotTable

end QuickJsKmp
