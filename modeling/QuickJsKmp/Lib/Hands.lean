import Mathlib.Algebra.Group.Basic
import Mathlib.Tactic.Abel
import QuickJsKmp.Lib.Recorded

/-!
# Programs that hold resources

A resource is an element of a commutative monoid. `bal s r` says that in the
state `s` the code that is running holds `r`, all its callers included. A
program is described by what it takes from its caller and what it gives back
(`Hands`). What the callers keep for themselves is any further resource, so
the frame rule comes for free.
-/

namespace Recorded

variable {σ ε α β A : Type} [AddCommMonoid A] {bal : σ → A → Prop} {P P' F : A}

/-- The program takes `P` and gives back `Q`, whatever else is held. -/
def Hands (bal : σ → A → Prop) (P : A) (m : Prog σ ε α) (Q : α → A) : Prop :=
  ∀ F s es a s' rest, m s es = some (a, s', rest) → bal s (P + F) → bal s' (Q a + F)

variable {m : Prog σ ε α} {k : α → Prog σ ε β} {Q Q' : α → A} {R : β → A}

theorem Hands.elim (h : Hands bal P m Q) (hrun : m s es = some (a, s', rest)) (hs : bal s (P + F)) :
    bal s' (Q a + F) :=
  h F s es a s' rest hrun hs

/-- A program that is run with nothing kept back. -/
theorem Hands.elim_zero (h : Hands bal P m Q) (hrun : m s es = some (a, s', rest)) (hs : bal s P) :
    bal s' (Q a) := by
  have hend := h.elim (F := 0) hrun
  rw [add_zero, add_zero] at hend
  exact hend hs

theorem Hands.cast (h : Hands bal P m Q) (hP : P' = P) (hQ : ∀ a, Q a = Q' a) :
    Hands bal P' m Q' := by
  obtain rfl : Q = Q' := funext hQ
  rwa [hP]

theorem Hands.pure (h : P = Q a) : Hands bal P (pure a : Prog σ ε α) Q := by
  intro F s es b s' rest hrun hs
  obtain ⟨rfl, rfl, rfl⟩ := pure_eq_some.mp hrun
  rwa [← h]

/-- The first program is given `P` of what there is. -/
theorem Hands.bind (hm : Hands bal P m Q) (F : A) (hP : P' = P + F)
    (hk : ∀ a, Hands bal (Q a + F) (k a) R) : Hands bal P' (m >>= k) R := by
  intro G s es b s' rest hrun hs
  obtain ⟨a, s₁, es₁, h₁, h₂⟩ := bind_eq_some.mp hrun
  rw [hP, add_assoc] at hs
  have hmid := hm.elim h₁ hs
  rw [← add_assoc] at hmid
  exact (hk a).elim h₂ hmid

/-- The first program takes nothing. -/
theorem Hands.bind_zero (hm : Hands bal 0 m Q) (hk : ∀ a, Hands bal (Q a + P) (k a) R) :
    Hands bal P (m >>= k) R :=
  hm.bind P (zero_add P).symm hk

/-- The first program takes nothing and gives nothing. -/
theorem Hands.pass (hm : Hands bal 0 m fun _ => 0) (hk : ∀ a, Hands bal P (k a) R) :
    Hands bal P (m >>= k) R := by
  refine hm.bind_zero fun a => ?_
  rw [zero_add]
  exact hk a

/-- The first program takes all there is. -/
theorem Hands.seq (hm : Hands bal P m Q) (hk : ∀ a, Hands bal (Q a) (k a) R) :
    Hands bal P (m >>= k) R := by
  refine hm.bind 0 (add_zero P).symm fun a => ?_
  rw [add_zero]
  exact hk a

theorem Hands.get : Hands bal P (get : Prog σ ε σ) fun _ => P := by
  intro F s es b s' rest hrun hs
  obtain ⟨-, rfl, rfl⟩ := get_eq_some.mp hrun
  exact hs

theorem Hands.modify {f : σ → σ} {Q : Unit → A} (h : ∀ s F, bal s (P + F) → bal (f s) (Q () + F)) :
    Hands bal P (modify f : Prog σ ε Unit) Q := by
  intro F s es b s' rest hrun hs
  obtain ⟨rfl, rfl⟩ := modify_eq_some.mp hrun
  exact h s F hs

theorem Hands.fail : Hands bal P (fail : Prog σ ε α) Q := by
  intro F s es b s' rest hrun
  cases hrun

theorem Hands.next {take : ε → σ → Option (α × σ)}
    (h : ∀ e s a s' F, take e s = some (a, s') → bal s (P + F) → bal s' (Q a + F)) :
    Hands bal P (next take) Q := by
  intro F s es b s' rest hrun
  obtain ⟨e, rfl, he⟩ := next_eq_some.mp hrun
  exact h e s b s' F he

theorem Hands.ite {c : Prop} [Decidable c] {m m' : Prog σ ε α} (hm : c → Hands bal P m Q)
    (hm' : ¬ c → Hands bal P m' Q) : Hands bal P (if c then m else m') Q := by
  split
  · exact hm ‹_›
  · exact hm' ‹_›

-- ---------------------------------------------------------------------------
-- What a program can return
-- ---------------------------------------------------------------------------

def Returns (m : Prog σ ε α) (p : α → Prop) : Prop :=
  ∀ s es a s' rest, m s es = some (a, s', rest) → p a

variable {p : α → Prop} {q : β → Prop}

theorem Returns.pure (h : p a) : Returns (pure a : Prog σ ε α) p := by
  intro s es b s' rest hrun
  obtain ⟨rfl, rfl, rfl⟩ := pure_eq_some.mp hrun
  exact h

theorem Returns.bind (hm : Returns m p) (hk : ∀ a, p a → Returns (k a) q) :
    Returns (m >>= k) q := by
  intro s es b s' rest hrun
  obtain ⟨a, s₁, es₁, h₁, h₂⟩ := bind_eq_some.mp hrun
  exact hk a (hm _ _ _ _ _ h₁) _ _ _ _ _ h₂

/-- Whatever the first program returns. -/
theorem Returns.after (hk : ∀ a, Returns (k a) q) : Returns (m >>= k) q :=
  .bind (p := fun _ => True) (fun _ _ _ _ _ _ => trivial) fun a _ => hk a

theorem Returns.fail : Returns (fail : Prog σ ε α) p := by
  intro s es b s' rest hrun
  cases hrun

theorem Returns.ite {c : Prop} [Decidable c] {m m' : Prog σ ε α} (hm : Returns m p)
    (hm' : Returns m' p) : Returns (if c then m else m') p := by
  split
  · exact hm
  · exact hm'

theorem Hands.returns (h : Hands bal P m Q) (hm : Returns m p) (hQ : ∀ a, p a → Q a = Q' a) :
    Hands bal P m Q' := by
  intro F s es a s' rest hrun hs
  rw [← hQ a (hm _ _ _ _ _ hrun)]
  exact h.elim hrun hs

/-- A loop that is given the length of its record, and one round more. -/
def bounded (loop : ℕ → Prog σ ε α) : Prog σ ε α := fun s es => loop (es.length + 1) s es

theorem Hands.bounded {loop : ℕ → Prog σ ε α} (h : ∀ n, Hands bal P (loop n) Q) :
    Hands bal P (Recorded.bounded loop) Q :=
  fun F s es => h (es.length + 1) F s es

end Recorded
