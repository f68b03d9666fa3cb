import Mathlib.Data.List.Basic
import Mathlib.Data.List.GetD

/-!
# Looking into a list

A list is changed in one place, or gets one more element at its end: what is found
afterwards was there before, or is the new element. Or a list is read beyond its end:
`fit z l n` has length `n` and is `l`, cut off or filled up with `z`, and two lists
that agree up to `n`, where `z` stands for what is missing, fit alike.
-/

namespace Lookups

variable {α : Type} {l : List α} {a b : α} {i j : ℕ}

theorem getElem?_set_here (hi : l[i]? = some a) (b : α) : (l.set i b)[i]? = some b := by
  simp [(List.getElem?_eq_some_iff.mp hi).1]

theorem getElem?_set_cases (hj : (l.set i a)[j]? = some b) :
    i = j ∧ b = a ∨ i ≠ j ∧ l[j]? = some b := by
  by_cases hij : i = j
  · subst hij
    obtain ⟨-, rfl⟩ : i < l.length ∧ a = b := by simpa [List.getElem?_set] using hj
    exact .inl ⟨rfl, rfl⟩
  · exact .inr ⟨hij, by simpa [List.getElem?_set_ne hij] using hj⟩

theorem getElem?_append_cases (hj : (l ++ [a])[j]? = some b) :
    l[j]? = some b ∨ j = l.length ∧ b = a := by
  by_cases hlt : j < l.length
  · exact .inl (by simpa [List.getElem?_append_left hlt] using hj)
  · rw [List.getElem?_append_right (Nat.le_of_not_lt hlt)] at hj
    obtain ⟨hlast, rfl⟩ : j ≤ l.length ∧ a = b := by
      simpa [List.getElem?_singleton, Nat.sub_eq_zero_iff_le] using hj
    exact .inr ⟨Nat.le_antisymm hlast (Nat.le_of_not_lt hlt), rfl⟩

theorem getElem?_append_old (hj : l[j]? = some a) : (l ++ [b])[j]? = some a := by
  simp [List.getElem?_append_left (List.getElem?_eq_some_iff.mp hj).1, hj]

theorem getElem?_getLast (h : l.getLast? = some a) : l[l.length - 1]? = some a := by
  rw [← h, List.getLast?_eq_getElem?]

end Lookups

namespace Padded

variable {α : Type*} {z : α} {l l' : List α} {n m k : ℕ}

def fit (z : α) (l : List α) (n : ℕ) : List α := (List.range n).map fun k => l.getD k z

@[simp] theorem length_fit : (fit z l n).length = n := by simp [fit]

theorem getElem?_fit (hk : k < n) : (fit z l n)[k]? = some (l.getD k z) := by
  simp [fit, hk]

theorem getD_fit (k : ℕ) : (fit z l n).getD k z = if k < n then l.getD k z else z := by
  split
  · rename_i hk
    rw [List.getD_eq_getElem?_getD, getElem?_fit hk]
    rfl
  · rename_i hk
    exact List.getD_eq_default _ _ (by rw [length_fit]; exact Nat.le_of_not_lt hk)

theorem fit_congr (h : ∀ k < n, l.getD k z = l'.getD k z) : fit z l n = fit z l' n :=
  List.map_congr_left fun k hk => h k (List.mem_range.mp hk)

@[simp] theorem fit_zero : fit z l 0 = [] := rfl

theorem fit_eq_take (h : n ≤ l.length) : fit z l n = l.take n := by
  refine List.ext_getElem? fun k => ?_
  by_cases hk : k < n
  · rw [getElem?_fit hk, List.getElem?_take_of_lt hk, List.getD_eq_getElem?_getD,
      List.getElem?_eq_getElem (Nat.lt_of_lt_of_le hk h)]
    rfl
  · rw [List.getElem?_eq_none (by simpa using hk), List.getElem?_eq_none (by simp; omega)]

/-- A list that was fitted before may be fitted again to less, or to more if nothing but `z`
was cut off. -/
theorem fit_fit (h : ∀ k, n ≤ k → k < m → l.getD k z = z) : fit z (fit z l n) m = fit z l m := by
  refine fit_congr fun k hk => ?_
  rw [getD_fit]
  split
  · rfl
  · exact (h k (by omega) hk).symm

theorem fit_fit_of_le (h : m ≤ n) : fit z (fit z l n) m = fit z l m :=
  fit_fit fun _ hn hm => absurd (Nat.lt_of_lt_of_le hm h) (Nat.not_lt.mpr hn)

theorem fit_set (hk : k < l.length) (a : α) : fit z (l.set k a) n = (fit z l n).set k a := by
  refine List.ext_getElem? fun j => ?_
  by_cases hj : j < n
  · rw [getElem?_fit hj, List.getElem?_set]
    by_cases hkj : k = j
    · subst hkj
      simp [hj, hk]
    · simp [hkj, getElem?_fit hj]
  · rw [List.getElem?_eq_none (by simpa using hj), List.getElem?_eq_none (by simpa using hj)]

/-- A window that lies in the list. -/
theorem take_drop_fit (hm : k + m ≤ n) (hl : k + m ≤ l.length) :
    ((fit z l n).drop k).take m = (l.drop k).take m := by
  refine List.ext_getElem? fun j => ?_
  by_cases hj : j < m
  · rw [List.getElem?_take_of_lt hj, List.getElem?_take_of_lt hj, List.getElem?_drop,
      List.getElem?_drop,
      getElem?_fit (by omega), List.getD_eq_getElem?_getD,
      List.getElem?_eq_getElem (show k + j < l.length by omega)]
    rfl
  · rw [List.getElem?_eq_none (by simp; omega), List.getElem?_eq_none (by simp; omega)]

/-- Cut off at `n` and filled up again. -/
theorem fit_append (h : n ≤ l.length) :
    fit z (l.take n ++ List.replicate m z) (n + m) = fit z (fit z l n) (n + m) := by
  refine fit_congr fun k _ => ?_
  rw [getD_fit]
  split
  · rename_i hk
    rw [List.getD_append _ _ _ _ (by simp; omega), List.getD_eq_getElem?_getD,
      List.getElem?_take_of_lt hk, List.getD_eq_getElem?_getD]
  · rename_i hk
    rw [List.getD_append_right _ _ _ _ (by simp; omega), List.getD_eq_getElem?_getD,
      List.getElem?_getD_replicate_default_eq]

end Padded
