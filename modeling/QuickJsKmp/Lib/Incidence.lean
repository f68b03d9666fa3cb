import Mathlib.Data.List.Nodup
import Mathlib.Logic.Function.Basic

/-!
# Graphs given by what each vertex refers to

Every vertex `v` of a list refers to the entries of `out v`, an entry as often as it stands
there. `incoming vs out a` counts how often `a` is referred to.
-/

namespace Incidence

variable {V A : Type*} [DecidableEq A]

def incoming : List V → (V → List A) → A → ℕ
  | [], _, _ => 0
  | v :: vs, out, a => (out v).count a + incoming vs out a

variable {vs ws : List V} {v : V} {out out' : V → List A} {a : A}

@[simp] theorem incoming_nil : incoming [] out a = 0 := rfl

@[simp] theorem incoming_cons :
    incoming (v :: vs) out a = (out v).count a + incoming vs out a := rfl

@[simp] theorem incoming_append :
    incoming (vs ++ ws) out a = incoming vs out a + incoming ws out a := by
  induction vs with
  | nil => simp
  | cons v vs ih => simp [ih, Nat.add_assoc]

theorem incoming_perm (h : vs.Perm ws) : incoming vs out a = incoming ws out a := by
  induction h with
  | nil => rfl
  | cons v _ ih => simp [ih]
  | swap v w vs => simp [Nat.add_left_comm]
  | trans _ _ ih ih' => exact ih.trans ih'

theorem incoming_congr (h : ∀ v ∈ vs, out v = out' v) :
    incoming vs out a = incoming vs out' a := by
  induction vs with
  | nil => rfl
  | cons v vs ih =>
    rw [incoming_cons, incoming_cons, h v (by simp), ih fun w hw => h w (by simp [hw])]

theorem incoming_pos : 0 < incoming vs out a ↔ ∃ v ∈ vs, a ∈ out v := by
  induction vs with
  | nil => simp
  | cons v vs ih =>
    rw [incoming_cons, Nat.add_pos_iff_pos_or_pos, List.count_pos_iff, ih]
    simp

theorem incoming_eq_zero (h : ∀ v ∈ vs, a ∉ out v) : incoming vs out a = 0 :=
  Nat.eq_zero_of_not_pos fun hpos =>
    let ⟨v, hv, ha⟩ := incoming_pos.mp hpos
    h v hv ha

variable [DecidableEq V]

/-- Fewer vertices that refer to less. -/
theorem incoming_le (hnodup : ws.Nodup)
    (h : ∀ v ∈ ws, v ∈ vs ∧ (out' v).count a ≤ (out v).count a) :
    incoming ws out' a ≤ incoming vs out a := by
  induction ws generalizing vs with
  | nil => exact Nat.zero_le _
  | cons w ws ih =>
    obtain ⟨hw, hnodup⟩ := List.nodup_cons.mp hnodup
    obtain ⟨hmem, hcount⟩ := h w (by simp)
    have hrest : ∀ v ∈ ws, v ∈ vs.erase w ∧ (out' v).count a ≤ (out v).count a := by
      intro v hv
      have hne : v ≠ w := fun hvw => hw (hvw ▸ hv)
      exact (h v (by simp [hv])).imp_left (List.mem_erase_of_ne hne).mpr
    rw [incoming_perm (List.perm_cons_erase hmem), incoming_cons, incoming_cons]
    exact Nat.add_le_add hcount (ih hnodup hrest)

/-- A vertex that is not of the list does not count. -/
theorem incoming_update_of_notMem (hv : v ∉ vs) (l : List A) :
    incoming vs (Function.update out v l) a = incoming vs out a := by
  refine incoming_congr fun u hu => Function.update_of_ne ?_ ..
  rintro rfl
  exact hv hu

/-- One vertex refers to `l` from now on. -/
theorem incoming_update (hnodup : vs.Nodup) (hv : v ∈ vs) (l : List A) :
    incoming vs (Function.update out v l) a + (out v).count a =
      incoming vs out a + l.count a := by
  induction vs with
  | nil => simp at hv
  | cons w vs ih =>
    obtain ⟨hw, hnodup⟩ := List.nodup_cons.mp hnodup
    by_cases h : w = v
    · subst h
      simp only [incoming_cons, Function.update_self, incoming_update_of_notMem hw]
      omega
    · have := ih hnodup (List.mem_of_ne_of_mem (Ne.symm h) hv)
      simp only [incoming_cons, Function.update_of_ne h]
      omega

theorem incoming_erase (hv : v ∈ vs) :
    (out v).count a + incoming (vs.erase v) out a = incoming vs out a := by
  rw [← incoming_cons]
  exact incoming_perm (List.perm_cons_erase hv).symm

end Incidence
