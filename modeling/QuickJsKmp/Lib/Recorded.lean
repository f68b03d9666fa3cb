import Mathlib.Data.List.Basic

/-!
# Programs against a record of their environment

A program that calls into code it does not control is run against a record of
what that code did: a list of events, taken from the front. `none` says that
the record is not one of this program, or that the program does not return on
it. A relation between states that composes along the record (`Composes`) is
kept by a program as soon as it is kept by its pieces (`Keeps`).
-/

namespace Recorded

/-- A program over the state `σ` that reads events of type `ε`. -/
def Prog (σ ε α : Type) : Type := σ → List ε → Option (α × σ × List ε)

variable {σ ε α β : Type}

instance : Monad (Prog σ ε) where
  pure a := fun s es => some (a, s, es)
  bind m k := fun s es => (m s es).bind fun (a, s', es') => k a s' es'

def get : Prog σ ε σ := fun s es => some (s, s, es)

def modify (f : σ → σ) : Prog σ ε Unit := fun s es => some ((), f s, es)

def fail : Prog σ ε α := fun _ _ => none

/-- Takes the next event; `take` is its effect on the state, and `none` where
the event cannot come here. -/
def next (take : ε → σ → Option (α × σ)) : Prog σ ε α
  | _, [] => none
  | s, e :: es => (take e s).map fun (a, s') => (a, s', es)

theorem pure_eq_some {a b : α} :
    (pure a : Prog σ ε α) s es = some (b, s', es') ↔ b = a ∧ s' = s ∧ es' = es := by
  simp [pure, eq_comm]

theorem bind_eq_some {m : Prog σ ε α} {k : α → Prog σ ε β} :
    (m >>= k) s es = some (b, s', es') ↔
      ∃ a s₁ es₁, m s es = some (a, s₁, es₁) ∧ k a s₁ es₁ = some (b, s', es') := by
  simp [bind, Option.bind_eq_some_iff]

theorem get_eq_some : (get : Prog σ ε σ) s es = some (t, s', es') ↔ t = s ∧ s' = s ∧ es' = es := by
  simp [get, eq_comm]

theorem modify_eq_some {f : σ → σ} :
    (modify f : Prog σ ε Unit) s es = some (u, s', es') ↔ s' = f s ∧ es' = es := by
  simp [modify, eq_comm]

theorem get_bind (k : σ → Prog σ ε β) : (get >>= k) s es = k s s es := rfl

theorem modify_bind (f : σ → σ) (k : Unit → Prog σ ε β) :
    (modify f >>= k) s es = k () (f s) es := rfl

theorem next_eq_some {take : ε → σ → Option (α × σ)} :
    next take s es = some (a, s', es') ↔ ∃ e, es = e :: es' ∧ take e s = some (a, s') := by
  cases es with
  | nil => simp [next]
  | cons e es =>
    simp only [next, Option.map_eq_some_iff, Prod.exists, Prod.mk.injEq, List.cons.injEq]
    constructor
    · rintro ⟨_, _, h, rfl, rfl, rfl⟩
      exact ⟨e, ⟨rfl, rfl⟩, h⟩
    · rintro ⟨_, ⟨rfl, rfl⟩, h⟩
      exact ⟨_, _, h, rfl, rfl, rfl⟩

-- ---------------------------------------------------------------------------
-- Relations that compose along the record
-- ---------------------------------------------------------------------------

/-- Reflexive on no event, and transitive over what is read one after the other. -/
structure Composes (R : σ → List ε → σ → Prop) : Prop where
  refl : ∀ s, R s [] s
  trans : ∀ {s t u es es'}, R s es t → R t es' u → R s (es ++ es') u

/-- Whenever the program ends, it has read a front part of the record, and the
relation holds of the states before and after. -/
def Keeps (R : σ → List ε → σ → Prop) (m : Prog σ ε α) : Prop :=
  ∀ s es a s' rest, m s es = some (a, s', rest) → ∃ used, es = used ++ rest ∧ R s used s'

variable {R R' : σ → List ε → σ → Prop}

theorem Keeps.elim {m : Prog σ ε α} (hm : Keeps R m) (h : m s es = some (a, s', rest)) :
    ∃ used, es = used ++ rest ∧ R s used s' :=
  hm s es a s' rest h

theorem Keeps.pure (hR : Composes R) (a : α) : Keeps R (pure a : Prog σ ε α) := by
  intro s es b s' rest h
  obtain ⟨-, rfl, rfl⟩ := pure_eq_some.mp h
  exact ⟨[], rfl, hR.refl _⟩

theorem Keeps.bind (hR : Composes R) {m : Prog σ ε α} {k : α → Prog σ ε β} (hm : Keeps R m)
    (hk : ∀ a, Keeps R (k a)) : Keeps R (m >>= k) := by
  intro s es b s' rest h
  obtain ⟨a, s₁, es₁, h₁, h₂⟩ := bind_eq_some.mp h
  obtain ⟨used₁, rfl, hr₁⟩ := hm _ _ _ _ _ h₁
  obtain ⟨used₂, rfl, hr₂⟩ := hk a _ _ _ _ _ h₂
  exact ⟨used₁ ++ used₂, by simp, hR.trans hr₁ hr₂⟩

theorem Keeps.get (hR : Composes R) : Keeps R (get : Prog σ ε σ) := by
  intro s es b s' rest h
  obtain ⟨-, rfl, rfl⟩ := get_eq_some.mp h
  exact ⟨[], rfl, hR.refl _⟩

theorem Keeps.modify {f : σ → σ} (hf : ∀ s, R s [] (f s)) : Keeps R (modify f : Prog σ ε Unit) := by
  intro s es b s' rest h
  obtain ⟨rfl, rfl⟩ := modify_eq_some.mp h
  exact ⟨[], rfl, hf s⟩

theorem Keeps.fail : Keeps R (fail : Prog σ ε α) := by
  intro s es b s' rest h
  cases h

theorem Keeps.next {take : ε → σ → Option (α × σ)}
    (hstep : ∀ e s a s', take e s = some (a, s') → R s [e] s') : Keeps R (next take) := by
  intro s es b s' rest h
  obtain ⟨e, rfl, he⟩ := next_eq_some.mp h
  exact ⟨[e], rfl, hstep e s b s' he⟩

theorem Keeps.and {m : Prog σ ε α} (h : Keeps R m) (h' : Keeps R' m) :
    Keeps (fun s es s' => R s es s' ∧ R' s es s') m := by
  intro s es a s' rest hrun
  obtain ⟨used, hes, hr⟩ := h.elim hrun
  obtain ⟨used', hes', hr'⟩ := h'.elim hrun
  obtain rfl : used = used' := List.append_cancel_right (hes.symm.trans hes')
  exact ⟨used, hes, hr, hr'⟩

theorem Keeps.ite {c : Prop} [Decidable c] {m m' : Prog σ ε α} (hm : Keeps R m)
    (hm' : Keeps R m') : Keeps R (if c then m else m') := by
  split
  · exact hm
  · exact hm'

-- ---------------------------------------------------------------------------
-- Pre- and postconditions on a fair record
-- ---------------------------------------------------------------------------

/-- `ok` is asked of a record only if it is asked of its parts. -/
def Splits (ok : List ε → Prop) : Prop := ∀ {es es'}, ok (es ++ es') → ok es ∧ ok es'

/-- Whenever the program ends on events that are `ok` and began in `pre`, it is
in `post`. -/
def Ends (ok : List ε → Prop) (pre : σ → Prop) (m : Prog σ ε α) (post : α → σ → Prop) : Prop :=
  ∀ s es a s' rest, m s es = some (a, s', rest) →
    ∃ used, es = used ++ rest ∧ (ok used → pre s → post a s')

variable {ok : List ε → Prop} {pre : σ → Prop} {post : α → σ → Prop} {post' : β → σ → Prop}

theorem Ends.elim {m : Prog σ ε α} (hm : Ends ok pre m post) (h : m s es = some (a, s', rest)) :
    ∃ used, es = used ++ rest ∧ (ok used → pre s → post a s') :=
  hm s es a s' rest h

theorem Ends.pure (h : ∀ s, pre s → post a s) : Ends ok pre (pure a : Prog σ ε α) post := by
  intro s es b s' rest hrun
  obtain ⟨rfl, rfl, rfl⟩ := pure_eq_some.mp hrun
  exact ⟨[], rfl, fun _ => h s'⟩

theorem Ends.bind (hok : Splits ok) {m : Prog σ ε α} {k : α → Prog σ ε β}
    (hm : Ends ok pre m post) (hk : ∀ a, Ends ok (post a) (k a) post') :
    Ends ok pre (m >>= k) post' := by
  intro s es b s' rest h
  obtain ⟨a, s₁, es₁, h₁, h₂⟩ := bind_eq_some.mp h
  obtain ⟨used₁, rfl, hr₁⟩ := hm.elim h₁
  obtain ⟨used₂, rfl, hr₂⟩ := (hk a).elim h₂
  refine ⟨used₁ ++ used₂, by simp, fun hall hpre => ?_⟩
  obtain ⟨hu₁, hu₂⟩ := hok hall
  exact hr₂ hu₂ (hr₁ hu₁ hpre)

theorem Ends.get : Ends ok pre (get : Prog σ ε σ) fun t s => t = s ∧ pre s := by
  intro s es b s' rest h
  obtain ⟨rfl, rfl, rfl⟩ := get_eq_some.mp h
  exact ⟨[], rfl, fun _ hpre => ⟨rfl, hpre⟩⟩

theorem Ends.modify {f : σ → σ} {post : Unit → σ → Prop} (h : ∀ s, pre s → post () (f s)) :
    Ends ok pre (modify f : Prog σ ε Unit) post := by
  intro s es b s' rest hrun
  obtain ⟨rfl, rfl⟩ := modify_eq_some.mp hrun
  exact ⟨[], rfl, fun _ => h s⟩

theorem Ends.fail : Ends ok pre (fail : Prog σ ε α) post := by
  intro s es b s' rest h
  cases h

theorem Ends.next {take : ε → σ → Option (α × σ)}
    (h : ∀ e s a s', take e s = some (a, s') → ok [e] → pre s → post a s') :
    Ends ok pre (next take) post := by
  intro s es b s' rest hrun
  obtain ⟨e, rfl, he⟩ := next_eq_some.mp hrun
  exact ⟨[e], rfl, h e s b s' he⟩

theorem Ends.weaken {pre' : σ → Prop} {post'' : α → σ → Prop} {m : Prog σ ε α}
    (hm : Ends ok pre m post) (hpre : ∀ s, pre' s → pre s)
    (hpost : ∀ a s, post a s → post'' a s) : Ends ok pre' m post'' := by
  intro s es a s' rest h
  obtain ⟨used, hes, hr⟩ := hm.elim h
  exact ⟨used, hes, fun hok hs => hpost a s' (hr hok (hpre s hs))⟩

theorem Keeps.ends {m : Prog σ ε α} (hm : Keeps R m) : Ends ok pre m fun _ _ => True := by
  intro s es a s' rest h
  obtain ⟨used, hes, -⟩ := hm.elim h
  exact ⟨used, hes, fun _ _ => trivial⟩

theorem Ends.ite {c : Prop} [Decidable c] {m m' : Prog σ ε α} (hm : Ends ok pre m post)
    (hm' : Ends ok pre m' post) : Ends ok pre (if c then m else m') post := by
  split
  · exact hm
  · exact hm'

-- ---------------------------------------------------------------------------
-- Programs that read at least one event
-- ---------------------------------------------------------------------------

def Reads (m : Prog σ ε α) : Prop :=
  ∀ s es a s' rest, m s es = some (a, s', rest) → rest.length < es.length

theorem Keeps.length_le {m : Prog σ ε α} (hm : Keeps R m) (h : m s es = some (a, s', rest)) :
    rest.length ≤ es.length := by
  obtain ⟨used, rfl, -⟩ := hm.elim h
  simp

theorem Reads.next (take : ε → σ → Option (α × σ)) : Reads (next take) := by
  intro s es a s' rest h
  obtain ⟨e, rfl, -⟩ := next_eq_some.mp h
  simp

theorem Reads.bind_left {m : Prog σ ε α} {k : α → Prog σ ε β} (hm : Reads m)
    (hk : ∀ a, Keeps R (k a)) : Reads (m >>= k) := by
  intro s es b s' rest h
  obtain ⟨a, s₁, es₁, h₁, h₂⟩ := bind_eq_some.mp h
  exact Nat.lt_of_le_of_lt ((hk a).length_le h₂) (hm _ _ _ _ _ h₁)

theorem Reads.bind_right {m : Prog σ ε α} {k : α → Prog σ ε β} (hm : Keeps R m)
    (hk : ∀ a, Reads (k a)) : Reads (m >>= k) := by
  intro s es b s' rest h
  obtain ⟨a, s₁, es₁, h₁, h₂⟩ := bind_eq_some.mp h
  exact Nat.lt_of_lt_of_le (hk a _ _ _ _ _ h₂) (hm.length_le h₁)

end Recorded
