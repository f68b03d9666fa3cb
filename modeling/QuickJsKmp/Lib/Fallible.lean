import Mathlib.Data.Nat.Notation

/-!
# Programs that fail and keep their state

`Prog ε σ α` runs on a state and ends with a result or an error, in either case
with the state it has then: nothing is rolled back. `none` says that the program
was cut off, by a bound on its depth. `Triple m s Q E` speaks of the run of `m`
from `s`, and `Yields m s Q` says that the run ends with a result.
-/

namespace Fallible

def Prog (ε σ α : Type) := σ → Option (Except ε α × σ)

variable {ε σ α β : Type}

instance : Monad (Prog ε σ) where
  pure a := fun s => some (.ok a, s)
  bind m k := fun s =>
    match m s with
    | some (.ok a, s') => k a s'
    | some (.error e, s') => some (.error e, s')
    | none => none

def throw (e : ε) : Prog ε σ α := fun s => some (.error e, s)

def get : Prog ε σ σ := fun s => some (.ok s, s)

def modify (f : σ → σ) : Prog ε σ Unit := fun s => some (.ok (), f s)

/-- Cut off. -/
def stop : Prog ε σ α := fun _ => none

/-- The clean-up of a failure. -/
def onError (m : Prog ε σ α) (clean : σ → σ) : Prog ε σ α := fun s =>
  match m s with
  | some (.error e, s') => some (.error e, clean s')
  | r => r

theorem bind_assoc (m : Prog ε σ α) (k : α → Prog ε σ β) (l : β → Prog ε σ γ) :
    (m >>= k) >>= l = m >>= fun a => k a >>= l := by
  funext s
  simp only [Bind.bind]
  cases m s with
  | none => rfl
  | some p =>
    obtain ⟨r, s'⟩ := p
    cases r <;> rfl

theorem pure_bind (a : α) (k : α → Prog ε σ β) : (pure a : Prog ε σ α) >>= k = k a := rfl

-- ---------------------------------------------------------------------------
-- Triples
-- ---------------------------------------------------------------------------

/-- Whatever `m` ends with from `s`: a result and `Q`, or an error and `E`. -/
def Triple (m : Prog ε σ α) (s : σ) (Q : α → σ → Prop) (E : ε → σ → Prop) : Prop :=
  ∀ r s', m s = some (r, s') → match r with
    | .ok a => Q a s'
    | .error e => E e s'

variable {m : Prog ε σ α} {k : α → Prog ε σ β} {s : σ} {Q Q' : α → σ → Prop} {E E' : ε → σ → Prop}
  {R : β → σ → Prop}

theorem Triple.ok (h : Triple m s Q E) (hrun : m s = some (.ok a, s')) : Q a s' := h _ _ hrun

theorem Triple.error (h : Triple m s Q E) (hrun : m s = some (.error e, s')) : E e s' := h _ _ hrun

/-- The run itself. -/
theorem Triple.self (m : Prog ε σ α) (s : σ) :
    Triple m s (fun a s' => m s = some (.ok a, s')) (fun e s' => m s = some (.error e, s')) := by
  intro r s' h
  cases r with
  | ok a => exact h
  | error e => exact h

theorem Triple.pure (h : Q a s) : Triple (pure a : Prog ε σ α) s Q E := by
  rintro _ _ ⟨⟩
  exact h

theorem Triple.throw (h : E e s) : Triple (throw e : Prog ε σ α) s Q E := by
  rintro _ _ ⟨⟩
  exact h

theorem Triple.stop : Triple (stop : Prog ε σ α) s Q E := by
  rintro _ _ ⟨⟩

theorem Triple.bind (hm : Triple m s (fun a s' => Triple (k a) s' R E) E) :
    Triple (m >>= k) s R E := by
  intro r s' h
  simp only [Bind.bind] at h
  cases hrun : m s with
  | none => simp [hrun] at h
  | some p =>
    obtain ⟨r', s₁⟩ := p
    rw [hrun] at h
    cases r' with
    | ok a => exact hm.ok hrun r s' h
    | error e =>
      obtain ⟨rfl, rfl⟩ := Prod.mk.inj (Option.some.inj h)
      exact hm.error hrun

/-- What comes first does not matter. -/
theorem Triple.skip (h : ∀ a s', Triple (k a) s' R fun _ _ => True) :
    Triple (m >>= k) s R fun _ _ => True := by
  refine .bind fun r s' _ => ?_
  cases r with
  | ok a => exact h a s'
  | error e => trivial

theorem Triple.mono (h : Triple m s Q E) (hQ : ∀ a s', Q a s' → Q' a s')
    (hE : ∀ e s', E e s' → E' e s') : Triple m s Q' E' := by
  intro r s' hrun
  cases r with
  | ok a => exact hQ a s' (h.ok hrun)
  | error e => exact hE e s' (h.error hrun)

theorem Triple.onError {clean : σ → σ} (h : Triple m s Q fun e s' => E e (clean s')) :
    Triple (onError m clean) s Q E := by
  intro r s' hrun
  simp only [Fallible.onError] at hrun
  split at hrun
  · cases hrun
    exact h.error ‹_›
  · cases r with
    | ok a => exact h.ok hrun
    | error e => simp_all

theorem Triple.and (h : Triple m s Q E) (h' : Triple m s Q' E') :
    Triple m s (fun a s' => Q a s' ∧ Q' a s') (fun e s' => E e s' ∧ E' e s') := by
  intro r s' hrun
  cases r with
  | ok a => exact ⟨h.ok hrun, h'.ok hrun⟩
  | error e => exact ⟨h.error hrun, h'.error hrun⟩

theorem Triple.imp {C : Prop} (h : C → Triple m s Q E) :
    Triple m s (fun a s' => C → Q a s') (fun e s' => C → E e s') := by
  intro r s' hrun
  cases r with
  | ok a => exact fun hc => (h hc).ok hrun
  | error e => exact fun hc => (h hc).error hrun

theorem Triple.get {Q : σ → σ → Prop} (h : Q s s) : Triple (get : Prog ε σ σ) s Q E := by
  rintro _ _ ⟨⟩
  exact h

theorem Triple.get_bind {k : σ → Prog ε σ β} (h : Triple (k s) s R E) :
    Triple (Fallible.get >>= k) s R E := h

theorem Triple.modify {f : σ → σ} {Q : Unit → σ → Prop} (h : Q () (f s)) :
    Triple (modify f : Prog ε σ Unit) s Q E := by
  rintro _ _ ⟨⟩
  exact h

theorem Triple.modify_bind {f : σ → σ} {k : Unit → Prog ε σ β} (h : Triple (k ()) (f s) R E) :
    Triple (Fallible.modify f >>= k) s R E := h

-- ---------------------------------------------------------------------------
-- Relations that every run keeps
-- ---------------------------------------------------------------------------

/-- Reflexive and transitive. -/
structure Composes (R : σ → σ → Prop) : Prop where
  refl : ∀ s, R s s
  trans : ∀ {s t u}, R s t → R t u → R s u

/-- The relation holds between the states before and after, however the run ends. -/
def Keeps (R : σ → σ → Prop) (m : Prog ε σ α) : Prop :=
  ∀ s, Triple m s (fun _ => R s) (fun _ => R s)

section Keeps

variable {P : σ → σ → Prop}

theorem Keeps.elim (hm : Keeps P m) (hrun : m s = some (r, s')) : P s s' := by
  cases r with
  | ok a => exact (hm s).ok hrun
  | error e => exact (hm s).error hrun

theorem Keeps.pure (hP : Composes P) (a : α) : Keeps P (pure a : Prog ε σ α) :=
  fun s => .pure (hP.refl s)

theorem Keeps.throw (hP : Composes P) (e : ε) : Keeps P (throw e : Prog ε σ α) :=
  fun s => .throw (hP.refl s)

theorem Keeps.stop : Keeps P (stop : Prog ε σ α) := fun _ => .stop

theorem Keeps.get (hP : Composes P) : Keeps P (get : Prog ε σ σ) :=
  fun s => .get (hP.refl s)

theorem Keeps.modify {f : σ → σ} (h : ∀ s, P s (f s)) : Keeps P (modify f : Prog ε σ Unit) :=
  fun s => .modify (h s)

theorem Keeps.bind (hP : Composes P) (hm : Keeps P m) (hk : ∀ a, Keeps P (k a)) :
    Keeps P (m >>= k) := by
  intro s
  refine .bind ((hm s).mono (fun a s' h => ?_) fun _ _ h => h)
  exact (hk a s').mono (fun _ _ h' => hP.trans h h') fun _ _ h' => hP.trans h h'

theorem Keeps.ite {c : Prop} [Decidable c] {m m' : Prog ε σ α} (hm : Keeps P m) (hm' : Keeps P m') :
    Keeps P (if c then m else m') := by
  split
  · exact hm
  · exact hm'

end Keeps

-- ---------------------------------------------------------------------------
-- Relations that differ by how the run ends
-- ---------------------------------------------------------------------------

/-- A relation for the runs that succeed, and one for those that fail, which may
come after a success. -/
structure Chains (R : σ → σ → Prop) (F : ε → σ → σ → Prop) : Prop where
  composes : Composes R
  fails : ∀ {e s t u}, R s t → F e t u → F e s u

def Runs (R : σ → σ → Prop) (F : ε → σ → σ → Prop) (m : Prog ε σ α) (s : σ) : Prop :=
  Triple m s (fun _ => R s) (fun e => F e s)

section Runs

variable {P : σ → σ → Prop} {F : ε → σ → σ → Prop}

theorem Runs.pure (hP : Chains P F) (a : α) (s : σ) : Runs P F (pure a) s :=
  Triple.pure (hP.composes.refl s)

theorem Runs.throw (h : F e s s) : Runs P F (Fallible.throw e : Prog ε σ α) s := Triple.throw h

/-- What follows may use what else is known of the first part. -/
theorem Runs.bind_of (hP : Chains P F) (hm : Runs P F m s) (hQ : Triple m s Q E)
    (hk : ∀ a t, P s t → Q a t → Runs P F (k a) t) : Runs P F (m >>= k) s := by
  refine Triple.bind ((Triple.and hm hQ).mono (fun a t h => ?_) fun _ _ h => h.1)
  exact (hk a t h.1 h.2).mono (fun _ _ h' => hP.composes.trans h.1 h') fun _ _ h' => hP.fails h.1 h'

theorem Runs.bind (hP : Chains P F) (hm : Runs P F m s) (hk : ∀ a t, P s t → Runs P F (k a) t) :
    Runs P F (m >>= k) s :=
  hm.bind_of hP (.self m s) fun a t h _ => hk a t h

theorem Runs.modify_bind (hP : Chains P F) {f : σ → σ} {k : Unit → Prog ε σ β} (h : P s (f s))
    (hk : Runs P F (k ()) (f s)) : Runs P F (Fallible.modify f >>= k) s :=
  Triple.modify_bind (Triple.mono hk (fun _ _ h' => hP.composes.trans h h') fun _ _ h' => hP.fails h h')

theorem Runs.onError {clean : σ → σ} (hm : Runs P F m s) (h : ∀ e t, F e s t → F e s (clean t)) :
    Runs P F (Fallible.onError m clean) s :=
  Triple.onError (Triple.mono hm (fun _ _ h' => h') fun e t h' => h e t h')

end Runs

-- ---------------------------------------------------------------------------
-- Runs that end with a result
-- ---------------------------------------------------------------------------

def Yields (m : Prog ε σ α) (s : σ) (Q : α → σ → Prop) : Prop := ∃ a s', m s = some (.ok a, s') ∧ Q a s'

theorem Yields.pure (h : Q a s) : Yields (pure a : Prog ε σ α) s Q := ⟨a, s, rfl, h⟩

theorem Yields.bind (h : Yields m s fun a s' => Yields (k a) s' R) : Yields (m >>= k) s R := by
  obtain ⟨a, s₁, hrun, b, s₂, hrun', hR⟩ := h
  refine ⟨b, s₂, ?_, hR⟩
  simp only [Bind.bind, hrun, hrun']

theorem Yields.mono (h : Yields m s Q) (hQ : ∀ a s', Q a s' → Q' a s') : Yields m s Q' := by
  obtain ⟨a, s', hrun, hq⟩ := h
  exact ⟨a, s', hrun, hQ a s' hq⟩

theorem Yields.onError {clean : σ → σ} (h : Yields m s Q) : Yields (onError m clean) s Q := by
  obtain ⟨a, s', hrun, hq⟩ := h
  exact ⟨a, s', by simp [Fallible.onError, hrun], hq⟩

theorem Yields.get_bind {k : σ → Prog ε σ β} (h : Yields (k s) s R) :
    Yields (Fallible.get >>= k) s R := h

theorem Yields.modify {f : σ → σ} {Q : Unit → σ → Prop} (h : Q () (f s)) :
    Yields (modify f : Prog ε σ Unit) s Q := ⟨(), f s, rfl, h⟩

end Fallible
