import QuickJsKmp.Slots

/-!
# The count of every handle

What an operation of the ref table does to the counts, handle by handle. The
numbers are those of the source as long as no count passes `INT32_MAX` and no generation
passes what a positive handle can carry.
-/

namespace QuickJsKmp.SlotTable

open Lookups (getElem?_set_cases getElem?_append_cases)

variable {t t' : SlotTable} {ref r : Handle} {s : Slot} {free : List ℕ}

/-- The refcount behind a current handle, and zero behind any other. -/
def count (t : SlotTable) (ref : Handle) : ℤ :=
  match t.slotGet ref with
  | some s => s.refcount.toInt
  | none => 0

/-- No slot in use is out of reach of its handle. -/
def Sound (t : SlotTable) : Prop :=
  ∀ (i : ℕ) (s : Slot), t.slots[i]? = some s → s.refcount ≠ 0 →
    0 < s.refcount.toInt ∧ s.gen.toNat < 2 ^ 31

/-- The slot that will be taken next has a generation that fits into a handle. -/
def nextFits (t : SlotTable) : Bool :=
  match t.slots[t.freeHead.toNat]? with
  | some s => t.freeHead < 0 || s.gen.toNat < 2 ^ 31
  | none => true

/-- One more retain of this handle stays within `INT32_MAX`. -/
def hasRoom (t : SlotTable) (ref : Handle) : Bool := t.count ref + 1 < 2 ^ 31

theorem count_of_slotGet (h : t.slotGet ref = some s) : t.count ref = s.refcount.toInt := by
  simp [count, h]

theorem count_of_none (h : t.slotGet ref = none) : t.count ref = 0 := by
  simp [count, h]

theorem slotGet_of_count (h : 0 < t.count ref) : ∃ s, t.slotGet ref = some s := by
  unfold count at h
  cases hget : t.slotGet ref with
  | none => simp [hget] at h
  | some s => exact ⟨s, rfl⟩

theorem toInt_slotHandle {i : ℕ} (hi : i < int32Max) (hg : g.toNat < 2 ^ 31) :
    0 < (slotHandle (.ofNat 32 i) g).toInt := by
  simp only [int32Max] at hi
  have hlow : (BitVec.ofNat 32 i + 1).toNat = i + 1 := by
    simp only [BitVec.toNat_add, BitVec.toNat_ofNat, BitVec.ofNat_eq_ofNat]
    omega
  have hnat : (slotHandle (.ofNat 32 i) g).toNat = g.toNat <<< 32 + (i + 1) := by
    rw [Nat.shiftLeft_add_eq_or_of_lt (by omega)]
    simp only [slotHandle, BitVec.toNat_or, BitVec.toNat_shiftLeft, BitVec.toNat_setWidth, hlow,
      Nat.shiftLeft_eq]
    congr 1 <;> omega
  rw [BitVec.toInt_eq_toNat_cond, hnat, Nat.shiftLeft_eq]
  split <;> omega

/-- What a slot contributes to the count of a handle with this generation. -/
def tally (g : BitVec 32) : Option Slot → ℤ
  | some s => if s.gen = g ∧ 0 < s.refcount.toInt then s.refcount.toInt else 0
  | none => 0

theorem count_eq (h : Inv t free) :
    t.count ref = if 0 < ref.toInt then tally (slotGen ref) (t.slotAt ref) else 0 := by
  cases hget : t.slotGet ref with
  | some s =>
    obtain ⟨hpos, hs, hr, hg⟩ := slotGet_eq_some hget
    simp [count_of_slotGet hget, hpos, hs, hr, hg, tally]
  | none =>
    rw [count_of_none hget]
    by_cases hpos : 0 < ref.toInt
    · rw [if_pos hpos]
      cases hs : t.slotAt ref with
      | none => rfl
      | some s =>
        refine (if_neg fun ⟨hg, hr⟩ => ?_).symm
        have hsome := slotGet_of_slotAt h hpos hs hr hg
        rw [hget] at hsome
        cases hsome
    · rw [if_neg hpos]

-- ---------------------------------------------------------------------------
-- One handle changes, the others stay
-- ---------------------------------------------------------------------------

/-- Only the slot of this handle is rewritten, and it is in use for no other. -/
structure Touches (t t' : SlotTable) (ref : Handle) : Prop where
  others : ∀ r, slotIndex r ≠ slotIndex ref → t'.slotAt r = t.slotAt r
  before : ∀ s, t.slotAt ref = some s → s.gen = slotGen ref ∨ s.refcount = 0
  after : ∀ s, t'.slotAt ref = some s → s.gen = slotGen ref ∨ s.refcount = 0

theorem tally_other {o : Option Slot} (h : ∀ s, o = some s → s.gen = g ∨ s.refcount = 0)
    (hne : g' ≠ g) :
    tally g' o = 0 := by
  cases o with
  | none => rfl
  | some s =>
    simp only [tally]
    refine if_neg fun ⟨hgen, hpos⟩ => ?_
    rcases h s rfl with hg | hzero
    · exact hne (hgen.symm.trans hg)
    · simp [hzero] at hpos

theorem Touches.count (h : Touches t t' ref) (hinv : Inv t free) (hinv' : Inv t' free')
    (hne : r ≠ ref) :
    t'.count r = t.count r := by
  rw [count_eq hinv, count_eq hinv']
  by_cases hidx : slotIndex r = slotIndex ref
  · have hgen : slotGen r ≠ slotGen ref := fun hg => hne (handle_ext hidx hg)
    have hat (u : SlotTable) : u.slotAt r = u.slotAt ref := by simp [slotAt, hidx]
    rw [hat, hat, tally_other h.before hgen, tally_other h.after hgen]
  · rw [h.others r hidx]

/-- A slot is rewritten. -/
theorem slotAt_set (hslots : t'.slots = t.slots.set (slotIndex ref).toNat u)
    (hlt : (slotIndex ref).toNat < t.slots.length) :
    t'.slotAt ref = some u ∧ ∀ r, slotIndex r ≠ slotIndex ref → t'.slotAt r = t.slotAt r := by
  refine ⟨by simp [slotAt, hslots, hlt], fun r hne => ?_⟩
  have hidx : (slotIndex ref).toNat ≠ (slotIndex r).toNat :=
    fun he => hne (BitVec.eq_of_toNat_eq he).symm
  simp [slotAt, hslots, List.getElem?_set_ne hidx]

/-- What an operation on a handle does. -/
structure Changes (t t' : SlotTable) (ref : Handle) (d : ℤ) : Prop where
  inv : ∃ free, Inv t' free
  sound : Sound t'
  here : t'.count ref = t.count ref + d
  others : ∀ r, r ≠ ref → t'.count r = t.count r

theorem Sound.set (h : Sound t) (hslots : t'.slots = t.slots.set i u)
    (hu : u.refcount ≠ 0 → 0 < u.refcount.toInt ∧ u.gen.toNat < 2 ^ 31) : Sound t' := by
  intro j s hs hr
  rw [hslots] at hs
  rcases getElem?_set_cases hs with ⟨-, rfl⟩ | ⟨-, hs⟩
  · exact hu hr
  · exact h j s hs hr

theorem retain_changes (hinv : Inv t free) (hsound : Sound t) (hget : t.slotGet ref = some s)
    (hroom : t.hasRoom ref) : Changes t (t.kmpjsRefRetain ref) ref 1 := by
  obtain ⟨hpos, hs, hr, hgen⟩ := slotGet_eq_some hget
  have hlt := (List.getElem?_eq_some_iff.mp hs).1
  have hroom' : s.refcount.toInt + 1 < 2 ^ 31 := by
    simpa [hasRoom, count_of_slotGet hget] using hroom
  have hsucc : (s.refcount + 1).toInt = s.refcount.toInt + 1 := by
    rw [toInt_succ hr, if_pos hroom']
  have hslots := congrArg SlotTable.slots (kmpjsRefRetain_of_some hget)
  have hinv' : (t.kmpjsRefRetain ref).Inv free := (kmpjsRefRetain_spec hinv).1
  obtain ⟨hself, hothers⟩ := slotAt_set hslots hlt
  have hnow := retain_current hinv hget
  rw [if_pos hroom'] at hnow
  refine ⟨⟨free, hinv'⟩, hsound.set hslots fun _ => ⟨?_, hgen ▸ slotGen_lt_of_pos hpos⟩, ?_, ?_⟩
  · show 0 < (s.refcount + 1).toInt
    omega
  · rw [count_of_slotGet hnow, count_of_slotGet hget]
    exact hsucc
  · intro r hne
    refine Touches.count ⟨hothers, ?_, ?_⟩ hinv hinv' hne
    · intro u hu
      obtain rfl : s = u := Option.some.inj (hs.symm.trans hu)
      exact .inl hgen
    · intro u hu
      obtain rfl : _ = u := Option.some.inj (hself.symm.trans hu)
      exact .inl hgen

theorem release_changes (hinv : Inv t free) (hsound : Sound t) (hget : t.slotGet ref = some s) :
    Changes t (t.kmpjsRefRelease ref) ref (-1) := by
  obtain ⟨hpos, hs, hr, hgen⟩ := slotGet_eq_some hget
  have hlt := (List.getElem?_eq_some_iff.mp hs).1
  have hpred := toInt_pred hr
  obtain ⟨free', hinv', -⟩ : ∃ free', (t.kmpjsRefRelease ref).Inv free' ∧
      t.Evolves (t.kmpjsRefRelease ref) := kmpjsRefRelease_spec hinv
  have hnow := release_current hinv hget
  have hbefore : ∀ u, t.slotAt ref = some u → u.gen = slotGen ref ∨ u.refcount = 0 := by
    intro u hu
    obtain rfl : s = u := Option.some.inj (hs.symm.trans hu)
    exact .inl hgen
  by_cases hone : s.refcount = 1
  · have hslots := congrArg SlotTable.slots (kmpjsRefRelease_of_last hget hone)
    obtain ⟨hself, hothers⟩ := slotAt_set hslots hlt
    refine ⟨⟨free', hinv'⟩, hsound.set hslots fun hne => absurd rfl hne, ?_, ?_⟩
    · rw [count_of_slotGet hget, hone]
      simp [count_of_none (spent_of_last hget hone).slotGet_none]
    · intro r hne
      refine Touches.count ⟨hothers, hbefore, fun u hu => ?_⟩ hinv hinv' hne
      obtain rfl : _ = u := Option.some.inj (hself.symm.trans hu)
      exact .inr rfl
  · have hslots := congrArg SlotTable.slots (kmpjsRefRelease_of_more hget hone)
    obtain ⟨hself, hothers⟩ := slotAt_set hslots hlt
    have hmore : 1 < s.refcount.toInt := by
      have hne : s.refcount.toInt ≠ 1 := fun he => hone (BitVec.eq_of_toInt_eq he)
      omega
    rw [if_pos hmore] at hnow
    refine ⟨⟨free', hinv'⟩, hsound.set hslots fun _ => ⟨?_, hgen ▸ slotGen_lt_of_pos hpos⟩, ?_, ?_⟩
    · show 0 < (s.refcount - 1).toInt
      omega
    · rw [count_of_slotGet hnow, count_of_slotGet hget]
      exact hpred
    · intro r hne
      refine Touches.count ⟨hothers, hbefore, fun u hu => ?_⟩ hinv hinv' hne
      obtain rfl : _ = u := Option.some.inj (hself.symm.trans hu)
      exact .inl hgen

theorem made_changes (hinv : Inv t free) (hinv' : Inv t' free') (hmade : Made t v ref t')
    (hpos : 0 < ref.toInt) (hsound : Sound t')
    (hothers : ∀ r, slotIndex r ≠ slotIndex ref → t'.slotAt r = t.slotAt r)
    (hbefore : ∀ s, t.slotAt ref = some s → s.refcount = 0) : Changes t t' ref 1 := by
  have hold : t.count ref = 0 := by
    rw [count_eq hinv, if_pos hpos]
    cases hs : t.slotAt ref with
    | none => rfl
    | some s => simp [tally, hbefore s hs]
  have hnew : t'.count ref = 1 := by
    rw [count_eq hinv', if_pos hpos, hmade.slot]
    simp [tally, fresh]
  refine ⟨⟨free', hinv'⟩, hsound, by rw [hold, hnew]; rfl, fun r hne => ?_⟩
  refine Touches.count ⟨hothers, fun s hs => .inr (hbefore s hs),
    fun s hs => .inl ?_⟩ hinv hinv' hne
  obtain rfl : fresh v (slotGen ref) = s := Option.some.inj (hmade.slot.symm.trans hs)
  rfl

theorem fresh_sound (hg : g.toNat < 2 ^ 31) :
    0 < (fresh v g).refcount.toInt ∧ (fresh v g).gen.toNat < 2 ^ 31 :=
  ⟨by simp [fresh], hg⟩

/-- A slot that is taken again has a positive handle. -/
theorem nextFits_pos (hinv : Inv t free) (hfits : t.nextFits) (hhead : t.freeHead = (i : ℕ))
    (hs : t.slots[i]? = some s) :
    s.gen.toNat < 2 ^ 31 ∧ 0 < (slotHandle (.ofNat 32 i) s.gen).toInt := by
  have hcases : (i : ℤ) < 0 ∨ s.gen.toNat < 2 ^ 31 := by simpa [nextFits, hhead, hs] using hfits
  have hgen := hcases.resolve_left (by omega)
  exact ⟨hgen, toInt_slotHandle (lt_of_lt_of_le (List.getElem?_eq_some_iff.mp hs).1 hinv.count) hgen⟩

/-- A slot that does not fit is taken all the same. -/
theorem slotNew_of_not_fits (h : t.nextFits = false) :
    2 ^ 31 ≤ (slotGen (t.slotNew v grow).2).toNat := by
  unfold nextFits at h
  cases hs : t.slots[t.freeHead.toNat]? with
  | none => simp [hs] at h
  | some s =>
    obtain ⟨hhead, hgen⟩ : 0 ≤ t.freeHead ∧ 2 ^ 31 ≤ s.gen.toNat := by simpa [hs] using h
    simpa [slotNew, hhead, hs, slotGen_slotHandle] using hgen

theorem ne_zero_of_toInt_pos (h : 0 < ref.toInt) : ref ≠ 0 := by
  rintro rfl
  simp at h

/-- Handle 0 comes with an unchanged table. -/
theorem slotNew_failed (hinv : Inv t free) (hfits : t.nextFits) (h : (t.slotNew v grow).2 = 0) :
    (t.slotNew v grow).1 = t := by
  rcases t.slotNew_cases v grow with he | ⟨i, s, hhead, hs, he⟩ | ⟨cap, -, hfull, he⟩
  · rw [he]
  · have hpos := (nextFits_pos hinv hfits hhead hs).2
    rw [he] at h
    exact absurd h (ne_zero_of_toInt_pos hpos)
  · have hpos := toInt_slotHandle (g := 0) (lt_of_le_of_ne hinv.count hfull) (by simp)
    rw [he] at h
    exact absurd h (ne_zero_of_toInt_pos hpos)

/-- A new handle had no count, and now has one. -/
theorem new_changes (hinv : Inv t free) (hsound : Sound t) (v : JSValue) (grow : Bool)
    (hfits : t.nextFits) (hmade : (t.slotNew v grow).2 ≠ 0) :
    Changes t (t.slotNew v grow).1 (t.slotNew v grow).2 1 := by
  obtain ⟨free', hinv', -, hspec⟩ := slotNew_spec hinv v grow
  have hspec := hspec hmade
  rcases t.slotNew_cases v grow with he | ⟨i, s, hhead, hs, he⟩ | ⟨cap, -, hfull, he⟩
  · rw [he] at hmade
    exact absurd rfl hmade
  · rw [he] at hspec hinv' ⊢
    have hlt := (List.getElem?_eq_some_iff.mp hs).1
    have hidx : (slotIndex (slotHandle (.ofNat 32 i) s.gen)).toNat = i := by
      rw [slotIndex_slotHandle, BitVec.toNat_ofNat, Nat.mod_eq_of_lt (hinv.index_lt hlt.le)]
    obtain ⟨hgen, hpos⟩ := nextFits_pos hinv hfits hhead hs
    have hbefore : ∀ u, t.slotAt (slotHandle (.ofNat 32 i) s.gen) = some u → u.refcount = 0 := by
      intro u hu
      rw [slotAt, hidx] at hu
      obtain rfl : s = u := Option.some.inj (hs.symm.trans hu)
      exact (hinv.take hhead hs v).1
    refine made_changes hinv hinv' hspec hpos (hsound.set rfl fun _ => fresh_sound hgen) ?_ hbefore
    exact (slotAt_set (t := t) (u := fresh v s.gen) (by rw [hidx]) (by rw [hidx]; exact hlt)).2
  · rw [he] at hspec hinv' ⊢
    have hcount := lt_of_le_of_ne hinv.count hfull
    have hidx : (slotIndex (slotHandle (.ofNat 32 t.slots.length) 0)).toNat = t.slots.length := by
      rw [slotIndex_slotHandle, BitVec.toNat_ofNat, Nat.mod_eq_of_lt (hinv.index_lt le_rfl)]
    refine made_changes hinv hinv' hspec (toInt_slotHandle hcount (by simp)) ?_ ?_ ?_
    · intro j u hu hr
      rcases getElem?_append_cases hu with hu | ⟨-, rfl⟩
      · exact hsound j u hu hr
      · exact fresh_sound (by simp)
    · intro r hne
      have hr : (slotIndex r).toNat ≠ t.slots.length :=
        fun hlen => hne (BitVec.eq_of_toNat_eq (hlen.trans hidx.symm))
      rcases Nat.lt_or_gt_of_ne hr with hlt | hgt
      · exact List.getElem?_append_left hlt
      · simp [slotAt, List.getElem?_eq_none (l := t.slots) hgt.le,
          List.getElem?_append_right hgt.le, Nat.sub_ne_zero_of_lt hgt]
    · intro u hu
      rw [slotAt, hidx, List.getElem?_eq_none le_rfl] at hu
      cases hu

end QuickJsKmp.SlotTable
