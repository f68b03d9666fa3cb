import Mathlib.Logic.Relation

/-!
# Machines with partial steps

A machine is a step function `σ → α → Option σ`: `none` says that the action is
not available in that state. Runs are taken under a condition on the state
and the action of each step, so that one development can speak of all runs and
of the runs that avoid some step.
-/

namespace Machine

variable {σ α : Type*} {step : σ → α → Option σ} {ok ok' : σ → α → Prop}

/-- One step by an action that the condition allows. -/
def Moves (step : σ → α → Option σ) (ok : σ → α → Prop) (s t : σ) : Prop :=
  ∃ a, ok s a ∧ step s a = some t

/-- A finite run, each of whose steps the condition allows. -/
def Reaches (step : σ → α → Option σ) (ok : σ → α → Prop) : σ → σ → Prop :=
  Relation.ReflTransGen (Moves step ok)

/-- The condition that allows every step. -/
def always : σ → α → Prop := fun _ _ => True

instance (s : σ) (a : α) : Decidable (always s a) := .isTrue trivial

/-- The actions of a list, one after the other, as far as the condition allows them. -/
def exec (step : σ → α → Option σ) (ok : σ → α → Prop) [∀ s a, Decidable (ok s a)] :
    σ → List α → Option σ
  | s, [] => some s
  | s, a :: as => if ok s a then (step s a).bind fun t => exec step ok t as else none

theorem Reaches.refl (s : σ) : Reaches step ok s s := Relation.ReflTransGen.refl

theorem Reaches.tail (h : Reaches step ok s t) (ha : ok t a) (hstep : step t a = some u) :
    Reaches step ok s u :=
  Relation.ReflTransGen.tail h ⟨a, ha, hstep⟩

theorem Reaches.head (ha : ok s a) (hstep : step s a = some t) (h : Reaches step ok t u) :
    Reaches step ok s u :=
  Relation.ReflTransGen.head ⟨a, ha, hstep⟩ h

/-- What holds at the start and is kept by every allowed step holds after every run. -/
theorem Reaches.invariant {I : σ → Prop} (h : Reaches step ok s t) (init : I s)
    (keeps : ∀ {s a s'}, I s → ok s a → step s a = some s' → I s') : I t := by
  induction h with
  | refl => exact init
  | tail _ hmove ih =>
    obtain ⟨a, ha, hstep⟩ := hmove
    exact keeps ih ha hstep

theorem reaches_of_exec [∀ s a, Decidable (ok s a)] (h : exec step ok s l = some t) :
    Reaches step ok s t := by
  induction l generalizing s with
  | nil =>
    simp only [exec, Option.some.injEq] at h
    exact h ▸ .refl _
  | cons a l ih =>
    simp only [exec] at h
    split at h
    · obtain ⟨u, hstep, hrest⟩ := Option.bind_eq_some_iff.mp h
      exact .head ‹_› hstep (ih hrest)
    · cases h

/-- Every step of the list is met by `P`, as far as the machine goes. -/
def Along (step : σ → α → Option σ) (P : σ → α → Prop) : σ → List α → Prop
  | _, [] => True
  | s, a :: l => P s a ∧ ∀ t, step s a = some t → Along step P t l

/-- Two properties that agree on every step from an invariant state agree along a list. -/
theorem along_congr {P Q H : σ → α → Prop} {I : σ → Prop}
    (hiff : ∀ {s a}, I s → H s a → (P s a ↔ Q s a))
    (keeps : ∀ {s a t}, I s → H s a → Q s a → step s a = some t → I t) {s : σ} (init : I s)
    (hall : Along step H s l) : Along step P s l ↔ Along step Q s l := by
  induction l generalizing s with
  | nil => exact Iff.rfl
  | cons a l ih =>
    obtain ⟨ha, hrest⟩ := hall
    have hhere := hiff init ha
    constructor
    · rintro ⟨hp, hp'⟩
      have hq := hhere.mp hp
      exact ⟨hq, fun t ht => (ih (keeps init ha hq ht) (hrest t ht)).mp (hp' t ht)⟩
    · rintro ⟨hq, hq'⟩
      exact ⟨hhere.mpr hq, fun t ht => (ih (keeps init ha hq ht) (hrest t ht)).mpr (hq' t ht)⟩

/-- A machine whose steps another machine can follow is followed over whole lists of actions. -/
theorem exec_simulates {τ : Type*} {step' : τ → α → Option τ} {R : σ → τ → Prop}
    (hsim : ∀ {s s' t a}, R s t → step s a = some s' → ∃ t', step' t a = some t' ∧ R s' t')
    {s s' : σ} {t : τ} (hR : R s t) (h : exec step always s l = some s') :
    ∃ t', exec step' always t l = some t' ∧ R s' t' := by
  induction l generalizing s t with
  | nil => exact ⟨t, rfl, (Option.some.inj h) ▸ hR⟩
  | cons a l ih =>
    simp only [exec, always] at h ⊢
    obtain ⟨u, hstep, hrest⟩ := Option.bind_eq_some_iff.mp h
    obtain ⟨u', hstep', hR'⟩ := hsim hR hstep
    obtain ⟨t', hrest', hR''⟩ := ih hR' hrest
    exact ⟨t', by rw [hstep']; exact hrest', hR''⟩

end Machine
