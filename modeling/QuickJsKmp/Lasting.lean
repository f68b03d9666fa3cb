import Mathlib.Data.List.Induction
import QuickJsKmp.Counts

/-!
# A handle works until it is released

What is done with one handle is counted: `outstanding` is one for the ref that `slot_new`
handed out, plus its retains, less its releases. Until that is zero the handle has to
find its value, whatever is done with others.
-/

namespace QuickJsKmp.Lasting

open SlotTable (Op Inv)

/-- The releases that a handle still has coming. -/
def outstanding (ref : Handle) (ops : List Op) : ℤ :=
  1 + ops.count (.retain ref) - ops.count (.release ref)

/-- At no point of the run all releases have come. -/
def Unreleased (ref : Handle) (ops : List Op) : Prop :=
  ∀ pre, pre <+: ops → 0 < outstanding ref pre

def after (t : SlotTable) (ops : List Op) : SlotTable := ops.foldl SlotTable.apply t

/-- What a handle is good for: it finds its value until the last release, and
that gives its slot back. -/
structure Works (t : SlotTable) (ref : Handle) (v : JSValue) (ops : List Op) : Prop where
  found : ∀ pre, pre <+: ops → Unreleased ref pre →
    ∃ s, (after t pre).slotGet ref = some s ∧ s.val = v
  freed : ∀ pre, pre <+: ops → Unreleased ref pre → outstanding ref pre = 1 →
    ∃ s, (after t (pre ++ [.release ref])).slotAt ref = some s ∧ s.refcount = 0 ∧
      (after t (pre ++ [.release ref])).freeHead = (SlotTable.slotIndex ref).toNat

/-- The handle never has more releases coming than its slot can count. -/
def Bounded (ref : Handle) (ops : List Op) : Prop :=
  ∀ pre, pre <+: ops → Unreleased ref pre → outstanding ref pre < 2 ^ 31

variable {t : SlotTable} {ref : Handle} {v : JSValue} {ops pre : List Op} {op : Op}
  {free : List ℕ}

-- ---------------------------------------------------------------------------
-- What is outstanding
-- ---------------------------------------------------------------------------

theorem outstanding_nil (ref : Handle) : outstanding ref [] = 1 := rfl

theorem outstanding_retain (ref : Handle) (ops : List Op) :
    outstanding ref (ops ++ [.retain ref]) = outstanding ref ops + 1 := by
  simp [outstanding]
  omega

theorem outstanding_release (ref : Handle) (ops : List Op) :
    outstanding ref (ops ++ [.release ref]) = outstanding ref ops - 1 := by
  simp [outstanding]
  omega

theorem outstanding_other (hret : op ≠ .retain ref) (hrel : op ≠ .release ref) (ops : List Op) :
    outstanding ref (ops ++ [op]) = outstanding ref ops := by
  simp [outstanding, List.count_append, hret, hrel]

theorem unreleased_nil (ref : Handle) : Unreleased ref [] := by
  intro pre hpre
  rw [List.prefix_nil.mp hpre, outstanding_nil]
  exact Int.one_pos

theorem Unreleased.front (h : Unreleased ref ops) (hpre : pre <+: ops) : Unreleased ref pre :=
  fun p hp => h p (hp.trans hpre)

-- ---------------------------------------------------------------------------
-- The count follows it
-- ---------------------------------------------------------------------------

/-- The slot behind the handle has the value and the count that is outstanding. -/
def Current (t : SlotTable) (ref : Handle) (v : JSValue) (n : ℤ) : Prop :=
  ∃ s, t.slotGet ref = some s ∧ s.val = v ∧ s.refcount.toInt = n

theorem Current.step (h : Current t ref v (outstanding ref ops)) (hinv : Inv t free)
    (hpos : 0 < outstanding ref (ops ++ [op])) (hlt : outstanding ref (ops ++ [op]) < 2 ^ 31) :
    Current (t.apply op) ref v (outstanding ref (ops ++ [op])) := by
  obtain ⟨s, hget, hv, hcount⟩ := h
  obtain ⟨hsign, hs, hr, hg⟩ := SlotTable.slotGet_eq_some hget
  by_cases hret : op = .retain ref
  · subst hret
    rw [outstanding_retain] at hlt ⊢
    have hnow := SlotTable.retain_current hinv hget
    have hsucc := SlotTable.toInt_succ hr
    rw [if_pos (by omega)] at hnow hsucc
    exact ⟨_, hnow, hv, hsucc.trans (congrArg (· + 1) hcount)⟩
  by_cases hrel : op = .release ref
  · subst hrel
    rw [outstanding_release] at hpos ⊢
    have hnow := SlotTable.release_current hinv hget
    rw [if_pos (by omega)] at hnow
    exact ⟨_, hnow, hv, (SlotTable.toInt_pred hr).trans (congrArg (· - 1) hcount)⟩
  · rw [outstanding_other hret hrel]
    obtain ⟨free', hinv', -⟩ := SlotTable.apply_spec hinv op
    have hsame := SlotTable.slotAt_apply hinv hs (SlotTable.toInt_pos_ne_zero hr) hg hret hrel
    exact ⟨s, SlotTable.slotGet_of_slotAt hinv' hsign hsame hr hg, hv, hcount⟩

theorem after_append (t : SlotTable) (ops : List Op) (op : Op) :
    after t (ops ++ [op]) = (after t ops).apply op := by
  simp [after]

theorem Current.run (h : Current t ref v 1) (hinv : Inv t free) (hun : Unreleased ref ops)
    (hbound : Bounded ref ops) : Current (after t ops) ref v (outstanding ref ops) := by
  induction ops using List.reverseRecOn with
  | nil => exact h
  | append_singleton ops op ih =>
    have hpre : ops <+: ops ++ [op] := List.prefix_append ops [op]
    have hcurrent := ih (hun.front hpre) fun p hp => hbound p (hp.trans hpre)
    obtain ⟨free', hinv'⟩ := SlotTable.foldl_inv hinv ops
    rw [after_append]
    exact hcurrent.step hinv' (hun _ (List.prefix_refl _)) (hbound _ (List.prefix_refl _) hun)

theorem Current.last (h : Current t ref v 1) :
    ∃ s, (t.apply (.release ref)).slotAt ref = some s ∧ s.refcount = 0 ∧
      (t.apply (.release ref)).freeHead = (SlotTable.slotIndex ref).toNat := by
  obtain ⟨s, hget, -, hcount⟩ := h
  have hlt := (List.getElem?_eq_some_iff.mp (SlotTable.slotGet_eq_some hget).2.1).1
  have hone : s.refcount = 1 := BitVec.eq_of_toInt_eq hcount
  rw [SlotTable.apply, SlotTable.kmpjsRefRelease_of_last hget hone]
  exact ⟨_, List.getElem?_set_self hlt, rfl, rfl⟩

theorem Current.works (h : Current t ref v 1) (hinv : Inv t free) (hbound : Bounded ref ops) :
    Works t ref v ops where
  found := by
    intro pre hpre hun
    obtain ⟨s, hget, hv, -⟩ := h.run hinv hun fun p hp => hbound p (hp.trans hpre)
    exact ⟨s, hget, hv⟩
  freed := by
    intro pre hpre hun hone
    have hlast := h.run hinv hun fun p hp => hbound p (hp.trans hpre)
    rw [hone] at hlast
    rw [after_append]
    exact hlast.last

/-- The count that runs over makes the handle useless. -/
theorem outstanding_lt (h : Current t ref v 1) (hinv : Inv t free) (hbound : Bounded ref pre)
    (hun : Unreleased ref pre)
    (hfound : ∃ s, (after t (pre ++ [op])).slotGet ref = some s ∧ s.val = v) :
    outstanding ref (pre ++ [op]) < 2 ^ 31 := by
  have hlt : outstanding ref pre < 2 ^ 31 := hbound pre (List.prefix_refl _) hun
  by_cases hret : op = .retain ref
  · subst hret
    obtain ⟨free', hinv'⟩ : ∃ free', Inv (after t pre) free' := SlotTable.foldl_inv hinv pre
    obtain ⟨s, hget, -, hcount⟩ := h.run hinv hun hbound
    have hnow := SlotTable.retain_current hinv' hget
    rw [outstanding_retain, ← hcount]
    by_contra hfull
    rw [if_neg hfull] at hnow
    obtain ⟨u, hu, -⟩ := hfound
    rw [after_append, SlotTable.apply, hnow.slotGet_none] at hu
    cases hu
  by_cases hrel : op = .release ref
  · subst hrel
    rw [outstanding_release]
    omega
  · rwa [outstanding_other hret hrel]

theorem bounded_of_works (h : Current t ref v 1) (hinv : Inv t free) (hworks : Works t ref v ops)
    (hpre : pre <+: ops) : Bounded ref pre := by
  induction pre using List.reverseRecOn with
  | nil =>
    rintro p hp -
    rw [List.prefix_nil.mp hp]
    simp [outstanding_nil]
  | append_singleton pre op ih =>
    have hbound := ih ((List.prefix_append pre [op]).trans hpre)
    intro p hp hun
    rcases List.prefix_concat_iff.mp hp with rfl | hp
    · have hold : Unreleased ref pre := hun.front (List.prefix_append pre [op])
      exact outstanding_lt h hinv hbound hold (hworks.found _ hpre hun)
    · exact hbound p hp hun

-- ---------------------------------------------------------------------------
-- What `slot_new` returns
-- ---------------------------------------------------------------------------

theorem made_current (hinv : Inv t free) (hmade : (t.slotNew v grow).2 ≠ 0)
    (hsign : 0 < (t.slotNew v grow).2.toInt) :
    Current (t.slotNew v grow).1 (t.slotNew v grow).2 v 1 := by
  obtain ⟨free', hinv', -, hspec⟩ := SlotTable.slotNew_spec hinv v grow
  have hslot := (hspec hmade).slot
  exact ⟨_, SlotTable.slotGet_of_slotAt hinv' hsign hslot (by simp [SlotTable.fresh]) rfl, rfl, rfl⟩

/-- The sign of a new handle is that of its generation. -/
theorem made_sign (hinv : Inv t free) (hmade : (t.slotNew v grow).2 ≠ 0) :
    0 < (t.slotNew v grow).2.toInt ↔ t.nextFits := by
  constructor
  · intro hsign
    by_contra hnot
    have hgen : 2 ^ 31 ≤ (SlotTable.slotGen (t.slotNew v grow).2).toNat :=
      SlotTable.slotNew_of_not_fits (by simpa using hnot)
    have hlt := SlotTable.slotGen_lt_of_pos hsign
    omega
  · intro hfits
    rcases t.slotNew_cases v grow with he | ⟨i, s, hhead, hs, he⟩ | ⟨cap, -, hfull, he⟩
    · rw [he] at hmade
      exact absurd rfl hmade
    · rw [he]
      exact (SlotTable.nextFits_pos hinv hfits hhead hs).2
    · rw [he]
      exact SlotTable.toInt_slotHandle (lt_of_le_of_ne hinv.count hfull) (by simp)

/-- From any table that was reached, and whatever is done afterwards. -/
theorem handle_works_iff (earlier : List Op) (v : JSValue) (grow : Bool) (ops : List Op)
    (hmade : ((SlotTable.run earlier).slotNew v grow).2 ≠ 0) :
    Works ((SlotTable.run earlier).slotNew v grow).1 ((SlotTable.run earlier).slotNew v grow).2
        v ops ↔
      (SlotTable.run earlier).nextFits ∧ Bounded ((SlotTable.run earlier).slotNew v grow).2 ops := by
  obtain ⟨free, hinv⟩ := SlotTable.run_inv earlier
  obtain ⟨free', hinv', -⟩ := SlotTable.slotNew_spec hinv v grow
  constructor
  · intro hworks
    obtain ⟨s, hget, -⟩ := hworks.found [] List.nil_prefix (unreleased_nil _)
    have hsign := (SlotTable.slotGet_eq_some hget).1
    exact ⟨(made_sign hinv hmade).mp hsign,
      bounded_of_works (made_current hinv hmade hsign) hinv' hworks (List.prefix_refl _)⟩
  · rintro ⟨hfits, hbound⟩
    exact (made_current hinv hmade ((made_sign hinv hmade).mpr hfits)).works hinv' hbound

/-- The slot of a ref that was released is taken again. -/
theorem handle_works_iff_retaken :
    Works (SlotTable.slotNew (SlotTable.run [.new .null true, .release 1]) (.bool true) true).1
        (SlotTable.slotNew (SlotTable.run [.new .null true, .release 1]) (.bool true) true).2
        (.bool true) [.release 1, .retain 0x100000001] ↔
      (SlotTable.run [.new .null true, .release 1]).nextFits ∧
        Bounded (SlotTable.slotNew (SlotTable.run [.new .null true, .release 1]) (.bool true) true).2
          [.release 1, .retain 0x100000001] :=
  handle_works_iff [.new .null true, .release 1] (.bool true) true
    [.release 1, .retain 0x100000001] (by decide +kernel)

-- ---------------------------------------------------------------------------
-- A generation that does not fit
-- ---------------------------------------------------------------------------

def cycles (n : ℕ) : List Op :=
  (List.range n).flatMap fun k =>
    [.new .null true, .release (SlotTable.slotHandle 0 (.ofNat 32 k))]

/-- One slot, freed that often. -/
def worn (gen : BitVec 32) : SlotTable := ⟨[⟨.undefined, 0, -1, gen⟩], 16, 0⟩

theorem worn_get (hsign : 0 < (SlotTable.slotHandle 0 g).toInt) :
    SlotTable.slotGet ⟨[⟨.null, 1, -1, g⟩], 16, -1⟩ (SlotTable.slotHandle 0 g) =
      some ⟨.null, 1, -1, g⟩ := by
  simpa [SlotTable.slotGet, SlotTable.slotIndex_slotHandle, SlotTable.slotGen_slotHandle]
    using hsign

theorem worn_cycle (hsign : 0 < (SlotTable.slotHandle 0 g).toInt) :
    after (worn g) [.new .null true, .release (SlotTable.slotHandle 0 g)] = worn (g + 1) := by
  have hnew : (worn g).apply (.new .null true) = ⟨[⟨.null, 1, -1, g⟩], 16, -1⟩ := rfl
  have hrelease := SlotTable.kmpjsRefRelease_of_last (worn_get hsign) rfl
  simp only [after, List.foldl_cons, List.foldl_nil, hnew]
  simp only [SlotTable.apply, hrelease, SlotTable.slotIndex_slotHandle]
  rfl

theorem run_cycles (n : ℕ) (h : n < 2 ^ 31) :
    SlotTable.run (cycles (n + 1)) = worn (.ofNat 32 (n + 1)) := by
  have hsign (k : ℕ) (hk : k < 2 ^ 31) : 0 < (SlotTable.slotHandle 0 (.ofNat 32 k)).toInt :=
    SlotTable.toInt_slotHandle (i := 0) (by decide) (by rw [BitVec.toNat_ofNat]; omega)
  induction n with
  | zero =>
    decide +kernel
  | succ n ih =>
    have hmore : cycles (n + 1 + 1) = cycles (n + 1) ++
        [.new .null true, .release (SlotTable.slotHandle 0 (.ofNat 32 (n + 1)))] := by
      simp [cycles, List.range_succ]
    have hcycle := worn_cycle (hsign (n + 1) h)
    rw [SlotTable.run, hmore, List.foldl_append, ← SlotTable.run, ih (by omega)]
    exact hcycle.trans (congrArg worn (BitVec.ofNat_add ..).symm)

/-- After `2 ^ 31` refs in one slot the next handle is negative. -/
theorem worn_handle_useless :
    ¬ ∀ earlier v grow ops, ((SlotTable.run earlier).slotNew v grow).2 ≠ 0 →
      Works ((SlotTable.run earlier).slotNew v grow).1 ((SlotTable.run earlier).slotNew v grow).2
        v ops := by
  intro h
  have hrun : SlotTable.run (cycles (2 ^ 31 - 1 + 1)) = worn (.ofNat 32 (2 ^ 31 - 1 + 1)) :=
    run_cycles (2 ^ 31 - 1) (by decide)
  have hworks := h (cycles (2 ^ 31 - 1 + 1)) .null true []
  rw [hrun] at hworks
  have hmade : ((worn (.ofNat 32 (2 ^ 31 - 1 + 1))).slotNew .null true).2 ≠ 0 := by decide
  obtain ⟨s, hget, -⟩ := (hworks hmade).found [] List.nil_prefix (unreleased_nil _)
  have hsign := (SlotTable.slotGet_eq_some hget).1
  exact absurd hsign (by decide)

end QuickJsKmp.Lasting
