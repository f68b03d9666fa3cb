import QuickJsKmp.Lib.Parties

/-!
# A lock with a line of waiters

A fair lock is the list of the parties that have it or wait for it. The first
has it, or has been handed it; the others wait in the order in which they came.
Unlocking takes the first off the line, and who gives up waiting leaves from
wherever it stands.
-/

namespace Parties

open Lookups

variable {π : Type} {member holds : π → Bool} {line : List ℕ} {l : List π} {p p' q : π} {i j : ℕ}

/-- The line is made of the parties whose place is in it, each of them once, and
only the first may hold the lock. -/
structure Line (member holds : π → Bool) (line : List ℕ) (l : List π) : Prop where
  nodup : line.Nodup
  mem : ∀ i, i ∈ line ↔ ∃ p, l[i]? = some p ∧ member p
  first : ∀ i p, l[i]? = some p → holds p → line.head? = some i

namespace Line

theorem empty : Line member holds [] [] := ⟨.nil, by simp, by simp⟩

/-- No two parties hold the lock. -/
theorem only (h : Line member holds line l) (hi : l[i]? = some p) (hp : holds p)
    (hj : l[j]? = some q) (hq : holds q) : i = j := by
  have hfirst := h.first i p hi hp
  rw [h.first j q hj hq] at hfirst
  exact (Option.some.inj hfirst).symm

theorem first_member (h : Line member holds line l) (hfirst : line.head? = some i) :
    ∃ p, l[i]? = some p ∧ member p :=
  (h.mem i).mp (List.mem_of_mem_head? hfirst)

theorem mem_of_member (h : Line member holds line l) (hi : l[i]? = some p)
    (hp : member p) : i ∈ line :=
  (h.mem i).mpr ⟨p, hi, hp⟩

theorem not_mem (h : Line member holds line l) (hi : l[i]? = some p) (hp : member p = false) :
    i ∉ line := by
  intro hmem
  obtain ⟨q, hq, hmember⟩ := (h.mem i).mp hmem
  obtain rfl : p = q := Option.some.inj (hi.symm.trans hq)
  simp [hp] at hmember

theorem enter (h : Line member holds line l) (hp : member p = false) (hhold : holds p = false) :
    Line member holds line (l ++ [p]) where
  nodup := h.nodup
  mem := by
    intro j
    rw [h.mem j]
    constructor
    · rintro ⟨q, hq, hmember⟩
      exact ⟨q, getElem?_append_old hq, hmember⟩
    · rintro ⟨q, hq, hmember⟩
      rcases getElem?_append_cases hq with hq | ⟨-, rfl⟩
      · exact ⟨q, hq, hmember⟩
      · simp [hp] at hmember
  first := by
    intro j q hq hheld
    rcases getElem?_append_cases hq with hq | ⟨-, rfl⟩
    · exact h.first j q hq hheld
    · simp [hhold] at hheld

/-- A step that leaves the line as it is. -/
theorem stay (h : Line member holds line l) (hi : l[i]? = some p) (hmember : member p' = member p)
    (hhold : holds p' → holds p ∨ line.head? = some i) : Line member holds line (l.set i p') where
  nodup := h.nodup
  mem := by
    intro j
    rw [h.mem j]
    by_cases hij : i = j
    · subst hij
      simp [hi, getElem?_set_here hi p', hmember]
    · simp [List.getElem?_set_ne hij]
  first := by
    intro j q hq hheld
    rcases getElem?_set_cases hq with ⟨rfl, rfl⟩ | ⟨-, hq⟩
    · exact (hhold hheld).elim (h.first i p hi) id
    · exact h.first j q hq hheld

/-- A party queues up; it has the lock at once when the line was empty. -/
theorem join (h : Line member holds line l) (hi : l[i]? = some p) (hout : member p = false)
    (hin : member p') (hhold : holds p' → line = []) :
      Line member holds (line ++ [i]) (l.set i p') where
  nodup := by
    refine List.nodup_append.mpr ⟨h.nodup, by simp, ?_⟩
    rintro j hj _ hi' rfl
    rw [List.mem_singleton] at hi'
    exact h.not_mem hi hout (hi' ▸ hj)
  mem := by
    intro j
    by_cases hij : i = j
    · subst hij
      simp [getElem?_set_here hi p', hin]
    · simp [List.getElem?_set_ne hij, Ne.symm hij, h.mem j]
  first := by
    intro j q hq hheld
    rcases getElem?_set_cases hq with ⟨rfl, rfl⟩ | ⟨-, hq⟩
    · simp [hhold hheld]
    · simp [List.head?_append, h.first j q hq hheld]

/-- A party leaves the line, from the front or from where it waits. -/
theorem leave (h : Line member holds line l) (hi : l[i]? = some p) (hout : member p' = false)
    (hhold : holds p' = false) : Line member holds (line.erase i) (l.set i p') where
  nodup := h.nodup.erase i
  mem := by
    intro j
    rw [h.nodup.mem_erase_iff, h.mem j]
    by_cases hij : i = j
    · subst hij
      simp [getElem?_set_here hi p', hout]
    · simp [List.getElem?_set_ne hij, Ne.symm hij]
  first := by
    intro j q hq hheld
    rcases getElem?_set_cases hq with ⟨rfl, rfl⟩ | ⟨hne, hq⟩
    · simp [hhold] at hheld
    · have hfirst := h.first j q hq hheld
      cases line with
      | nil => simp at hfirst
      | cons k line =>
        obtain rfl : k = j := by simpa using hfirst
        simp [List.erase_cons_tail, Ne.symm hne]

/-- The first of the line unlocks. -/
theorem unlock (h : Line member holds line l) (hi : l[i]? = some p) (hp : holds p)
    (hout : member p' = false) (hhold : holds p' = false) :
      Line member holds line.tail (l.set i p') := by
  have hfirst := h.first i p hi hp
  have htail : line.tail = line.erase i := by
    cases line with
    | nil => simp at hfirst
    | cons k line =>
      obtain rfl : k = i := by simpa using hfirst
      simp
  exact htail ▸ h.leave hi hout hhold

end Line

end Parties
