import QuickJsKmp.Lib.Lookups
import QuickJsKmp.Lib.Machine

/-!
# Parties over a shared memory

Any number of parties run a program in small atomic steps. A party may read and
write the shared memory and its own place in the program, and new parties come
at any time. An interleaving is a run of the machine.

There are two ways to say something of all parties. `Each` is a fact of every
party by itself: its own step has to give it back, and the steps of the others
must not disturb it. The parties in some places of the program can also be counted.
-/

namespace Parties

open Lookups (getElem?_set_cases getElem?_append_cases getElem?_append_old)

variable {σ π α : Type}

structure System (σ π : Type) where
  shared : σ
  parties : List π
  deriving DecidableEq, Repr

inductive Action (π α : Type)
  | enter (p : π)
  | move (i : ℕ) (a : α)
  deriving DecidableEq, Repr

namespace System

/-- What a party does in one step; it knows its own number. -/
abbrev Program (σ π α : Type) := ℕ → σ → π → α → Option (σ × π)

def step (starts : π → Bool) (act : Program σ π α) (s : System σ π) :
    Action π α → Option (System σ π)
  | .enter p => if starts p then some { s with parties := s.parties ++ [p] } else none
  | .move i a =>
    match s.parties[i]? with
    | some p => (act i s.shared p a).map fun r => ⟨r.1, s.parties.set i r.2⟩
    | none => none

variable {starts : π → Bool} {act : Program σ π α} {s s' : System σ π}

/-- All that a step can do. -/
inductive Moved (starts : π → Bool) (act : Program σ π α) (s : System σ π) :
    Action π α → System σ π → Prop
  | enter (p : π) (hp : starts p) : Moved starts act s (.enter p) ⟨s.shared, s.parties ++ [p]⟩
  | move (i : ℕ) (a : α) (p p' : π) (shared : σ) (hi : s.parties[i]? = some p)
      (hact : act i s.shared p a = some (shared, p')) :
      Moved starts act s (.move i a) ⟨shared, s.parties.set i p'⟩

theorem moved_of_step {a : Action π α} (h : step starts act s a = some s') :
    Moved starts act s a s' := by
  cases a with
  | enter p =>
    simp only [step, Option.ite_none_right_eq_some, Option.some.injEq] at h
    obtain ⟨hp, rfl⟩ := h
    exact .enter p hp
  | move i a =>
    simp only [step] at h
    split at h
    · rename_i p hi
      obtain ⟨⟨shared, p'⟩, hact, rfl⟩ := Option.map_eq_some_iff.mp h
      exact .move i a p p' shared hi hact
    · cases h

/-- The party that came last takes a step. -/
theorem step_last {l : List π} {shared shared' : σ} {p p' : π} {a : α}
    (hact : act l.length shared p a = some (shared', p')) :
    step starts act ⟨shared, l ++ [p]⟩ (.move l.length a) = some ⟨shared', l ++ [p']⟩ := by
  simp [step, hact]

-- ---------------------------------------------------------------------------
-- Every party by itself
-- ---------------------------------------------------------------------------

def Each (P : ℕ → σ → π → Prop) (s : System σ π) : Prop :=
  ∀ i p, s.parties[i]? = some p → P i s.shared p

variable {P : ℕ → σ → π → Prop} {shared : σ} {p p' : π} {i : ℕ}

theorem Each.enter (h : Each P s) (hp : ∀ i, P i s.shared p) :
    Each P ⟨s.shared, s.parties ++ [p]⟩ := by
  intro j q hj
  rcases getElem?_append_cases hj with hj | ⟨-, rfl⟩
  · exact h j q hj
  · exact hp j

theorem Each.move (h : Each P s) (hself : P i shared p')
    (hothers : ∀ j q, j ≠ i → s.parties[j]? = some q → P j s.shared q → P j shared q) :
    Each P ⟨shared, s.parties.set i p'⟩ := by
  intro j q hj
  rcases getElem?_set_cases hj with ⟨rfl, rfl⟩ | ⟨hne, hj⟩
  · exact hself
  · exact hothers j q hne.symm hj (h j q hj)

end System

-- ---------------------------------------------------------------------------
-- How many there are
-- ---------------------------------------------------------------------------

variable {l : List π} {p p' : π} {i : ℕ} (f : π → Bool)

/-- The party leaves one place and comes to another. -/
theorem countP_move (hi : l[i]? = some p) (p' : π) :
    (l.set i p').countP f + (if f p then 1 else 0) = l.countP f + if f p' then 1 else 0 := by
  induction l generalizing i with
  | nil => simp at hi
  | cons q l ih =>
    cases i with
    | zero =>
      obtain rfl : q = p := by simpa using hi
      simp only [List.set_cons_zero, List.countP_cons]
      omega
    | succ i =>
      have hrest := ih (by simpa using hi)
      simp only [List.set_cons_succ, List.countP_cons]
      omega

theorem countP_stay (hi : l[i]? = some p) (hf : f p' = f p) :
    (l.set i p').countP f = l.countP f := by
  simpa [hf] using countP_move f hi p'

theorem countP_come (hi : l[i]? = some p) (hf : f p = false) (hf' : f p' = true) :
    (l.set i p').countP f = l.countP f + 1 := by
  simpa [hf, hf'] using countP_move f hi p'

theorem countP_leave (hi : l[i]? = some p) (hf : f p = true) (hf' : f p' = false) :
    (l.set i p').countP f + 1 = l.countP f := by
  simpa [hf, hf'] using countP_move f hi p'

theorem countP_enter (hf : f p = false) : (l ++ [p]).countP f = l.countP f := by
  simp [hf]

theorem countP_le {f g : π → Bool} (h : ∀ p, f p → g p) (l : List π) : l.countP f ≤ l.countP g :=
  List.countP_mono_left fun p _ => h p

theorem countP_pos (hi : l[i]? = some p) (hf : f p) : 0 < l.countP f :=
  List.countP_pos_iff.mpr ⟨p, List.mem_of_getElem? hi, hf⟩

end Parties
