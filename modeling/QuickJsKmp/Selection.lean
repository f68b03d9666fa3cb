import QuickJsKmp.FinishLaws

/-!
# Which outcome a call ends with

The exceptions that can come up in `finish`, in the order in which one of them
keeps out the later ones, and what is left pending in the engine afterwards.
-/

namespace QuickJsKmp

open Recorded (Prog Keeps Ends Splits)

-- ---------------------------------------------------------------------------
-- The priority
-- ---------------------------------------------------------------------------

/-- An exception as `take_exception` captures it. -/
structure Captured where
  exc : JSValue
  oom : Bool
  deriving DecidableEq, Repr

def Captured.of (exc : JSValue) (w : World) : Captured := ⟨exc, decide (exc = .null ∧ w.oom)⟩

def World.captured (w : World) : Captured := .of (w.pending.getD .undefined) w

/-- The first drain ended well; a nested call has none. -/
def Drained (outermost : Bool) (w : World) (ss : List Step) (w' : World) (ss' : List Step) : Prop :=
  if outermost then drainJobs false w ss = some (false, w', ss') else w' = w ∧ ss' = ss

/-- What becomes of a result when it is unwrapped, with its transport. -/
inductive Unwraps (unwrap module : Bool) :
    JSValue → Bool → World → List Step → Captured ⊕ JSValue × Bool → World → List Step → Prop
  | kept (h : unwrap → ∀ ptr, v ≠ .object ptr .promise) :
    Unwraps unwrap module v r w ss (.inr (v, r)) w ss
  | fulfilled (hu : unwrap) (hst : w.promiseState ptr = .fulfilled x) (hm : module = false) :
    Unwraps unwrap module (.object ptr .promise) r w ss (.inr (x, r)) w ss
  | namespaced (hu : unwrap) (hst : w.promiseState ptr = .fulfilled x) (hm : module)
    (hns : engine .moduleNamespace w ss = some (some ns, w', ss')) :
    Unwraps unwrap module (.object ptr .promise) r w ss (.inr (ns, r)) w' ss'
  | noNamespace (hu : unwrap) (hst : w.promiseState ptr = .fulfilled x) (hm : module)
    (hns : engine .moduleNamespace w ss = some (none, w', ss')) :
    Unwraps unwrap module (.object ptr .promise) r w ss (.inl w'.captured)
      { w' with pending := none, oom := false } ss'
  | rejected (hu : unwrap) (hst : w.promiseState ptr = .rejected x) :
    Unwraps unwrap module (.object ptr .promise) r w ss (.inl (.of x w))
      { forgetPromise w ptr with pending := none, oom := false } ss
  | pending (hu : unwrap) (hst : w.promiseState ptr = .pending) :
    Unwraps unwrap module (.object ptr .promise) r w ss (.inr (.object ptr .promise, true)) w ss

inductive Verdict
  | exception (c : Captured)
  | value (v : JSValue) (refObjects : Bool) (out : Out)
  deriving DecidableEq, Repr

/-- The result is drained, unwrapped and, after the report, converted. -/
def ConvertsTo (who : Writer) (outermost refObjects unwrap module : Bool) (v : JSValue) (w : World)
    (ss : List Step) (x : JSValue) (r : Bool) (out : Option Out) (w' : World) (ss' : List Step) :
    Prop :=
  ∃ w₁ ss₁ w₂ ss₂ w₃ ss₃, Drained outermost w ss w₁ ss₁ ∧
    Unwraps unwrap module v refObjects w₁ ss₁ (.inr (x, r)) w₂ ss₂ ∧
    reportOutermost who outermost w₂ ss₂ = some ((), w₃, ss₃) ∧
    valueToOut who x r w₃ ss₃ = some (out, w', ss')

/-- The late drain of a converted result. -/
def LateDrain (w : World) (ss : List Step) (failed : Bool) (w' : World) (ss' : List Step) : Prop :=
  drainJobs true { w with outStr := .zero } ss = some (failed, w', ss')

/-- The call's own exception, the one that stopped the drain, the one of the
promise, of the conversion, of the late drain, and else the value. -/
inductive Selects (who : Writer) (outermost refObjects unwrap module : Bool) :
    Option JSValue → World → List Step → Verdict → Prop
  | own : Selects who outermost refObjects unwrap module none w ss (.exception w.captured)
  | drain (hout : outermost) (h : drainJobs false w ss = some (true, w₁, ss₁)) :
    Selects who outermost refObjects unwrap module (some v) w ss (.exception w₁.captured)
  | promise (hd : Drained outermost w ss w₁ ss₁)
    (hu : Unwraps unwrap module v refObjects w₁ ss₁ (.inl c) w₂ ss₂) :
    Selects who outermost refObjects unwrap module (some v) w ss (.exception c)
  | convert (hc : ConvertsTo who outermost refObjects unwrap module v w ss x r none w₁ ss₁) :
    Selects who outermost refObjects unwrap module (some v) w ss (.exception w₁.captured)
  | late (hc : ConvertsTo who outermost refObjects unwrap module v w ss x r (some out) w₁ ss₁)
    (hout : outermost) (hq : w₁.jobs ≠ 0 ∨ w₁.rejected ≠ [])
    (hl : LateDrain w₁ ss₁ true w₂ ss₂) :
    Selects who outermost refObjects unwrap module (some v) w ss (.exception w₂.captured)
  | value (hc : ConvertsTo who outermost refObjects unwrap module v w ss x r (some out) w₁ ss₁)
    (hl : outermost ∧ (w₁.jobs ≠ 0 ∨ w₁.rejected ≠ []) →
      ∃ w₂ ss₂, LateDrain w₁ ss₁ false w₂ ss₂) :
    Selects who outermost refObjects unwrap module (some v) w ss (.value x r out)

theorem Drained.unique (h : Drained outermost w ss w₁ ss₁) (h' : Drained outermost w ss w₂ ss₂) :
    w₁ = w₂ ∧ ss₁ = ss₂ := by
  unfold Drained at h h'
  split at h
  · rw [if_pos ‹_›, h] at h'
    cases h'
    exact ⟨rfl, rfl⟩
  · rw [if_neg ‹_›] at h'
    exact ⟨h.1.trans h'.1.symm, h.2.trans h'.2.symm⟩

theorem Unwraps.unique (h : Unwraps unwrap module v r w ss o w₁ ss₁)
    (h' : Unwraps unwrap module v r w ss o' w₂ ss₂) : o = o' ∧ w₁ = w₂ ∧ ss₁ = ss₂ := by
  cases h <;> cases h' <;> simp_all

theorem ConvertsTo.unique
    (h : ConvertsTo who outermost refObjects unwrap module v w ss x r out w' ss')
    (h' : ConvertsTo who outermost refObjects unwrap module v w ss x' r' out' w'' ss'') :
    (x = x' ∧ r = r') ∧ out = out' ∧ w' = w'' ∧ ss' = ss'' := by
  obtain ⟨w₁, ss₁, w₂, ss₂, w₃, ss₃, hd, hu, hr, hc⟩ := h
  obtain ⟨w₁', ss₁', w₂', ss₂', w₃', ss₃', hd', hu', hr', hc'⟩ := h'
  obtain ⟨rfl, rfl⟩ := hd.unique hd'
  obtain ⟨hxr, rfl, rfl⟩ := hu.unique hu'
  cases hxr
  rw [hr] at hr'
  cases hr'
  rw [hc] at hc'
  cases hc'
  exact ⟨⟨rfl, rfl⟩, rfl, rfl, rfl⟩

theorem Drained.not_failed (h : Drained outermost w ss w₁ ss₁) (hout : outermost)
    (h' : drainJobs false w ss = some (true, w₂, ss₂)) : False := by
  rw [Drained, if_pos hout, h'] at h
  cases h

theorem ConvertsTo.drained
    (h : ConvertsTo who outermost refObjects unwrap module v w ss x r out w' ss') :
    ∃ w₁ ss₁ w₂ ss₂, Drained outermost w ss w₁ ss₁ ∧
      Unwraps unwrap module v refObjects w₁ ss₁ (.inr (x, r)) w₂ ss₂ := by
  obtain ⟨w₁, ss₁, w₂, ss₂, -, -, hd, hu, -⟩ := h
  exact ⟨w₁, ss₁, w₂, ss₂, hd, hu⟩

theorem ConvertsTo.not_drain
    (h : ConvertsTo who outermost refObjects unwrap module v w ss x r out w' ss')
    (hout : outermost) (hfail : drainJobs false w ss = some (true, w₁, ss₁)) : False := by
  obtain ⟨w₁', ss₁', w₂', ss₂', hd, -⟩ := h.drained
  exact hd.not_failed hout hfail

theorem ConvertsTo.not_unwrap
    (h : ConvertsTo who outermost refObjects unwrap module v w ss x r out w' ss')
    (hd : Drained outermost w ss w₁ ss₁)
    (hu : Unwraps unwrap module v refObjects w₁ ss₁ (.inl c) w₂ ss₂) : False := by
  obtain ⟨w₁', ss₁', w₂', ss₂', hd', hu'⟩ := h.drained
  obtain ⟨rfl, rfl⟩ := hd.unique hd'
  obtain ⟨habs, -⟩ := hu.unique hu'
  cases habs

/-- The phases leave no choice of the outcome. -/
theorem Selects.unique (h : Selects who outermost refObjects unwrap module v w ss a)
    (h' : Selects who outermost refObjects unwrap module v w ss b) : a = b := by
  cases h with
  | own =>
    cases h'
    rfl
  | drain hout hfail =>
    cases h' with
    | drain _ hfail' =>
      rw [hfail] at hfail'
      cases hfail'
      rfl
    | promise hd _ => exact (hd.not_failed hout hfail).elim
    | convert hc | late hc _ _ _ | value hc _ => exact (hc.not_drain hout hfail).elim
  | promise hd hu =>
    cases h' with
    | drain hout hfail => exact (hd.not_failed hout hfail).elim
    | promise hd' hu' =>
      obtain ⟨rfl, rfl⟩ := hd.unique hd'
      obtain ⟨hc, -⟩ := hu.unique hu'
      cases hc
      rfl
    | convert hc | late hc _ _ _ | value hc _ => exact (hc.not_unwrap hd hu).elim
  | convert hc =>
    cases h' with
    | drain hout hfail => exact (hc.not_drain hout hfail).elim
    | promise hd hu => exact (hc.not_unwrap hd hu).elim
    | convert hc' =>
      obtain ⟨-, -, rfl, -⟩ := hc.unique hc'
      rfl
    | late hc' _ _ _ | value hc' _ =>
      obtain ⟨-, habs, -⟩ := hc.unique hc'
      cases habs
  | late hc hout hq hl =>
    cases h' with
    | drain hout hfail => exact (hc.not_drain hout hfail).elim
    | promise hd hu => exact (hc.not_unwrap hd hu).elim
    | convert hc' =>
      obtain ⟨-, habs, -⟩ := hc.unique hc'
      cases habs
    | late hc' _ _ hl' =>
      obtain ⟨-, -, rfl, rfl⟩ := hc.unique hc'
      rw [LateDrain, hl] at hl'
      cases hl'
      rfl
    | value hc' hl' =>
      obtain ⟨-, -, rfl, rfl⟩ := hc.unique hc'
      obtain ⟨w₂, ss₂, hl'⟩ := hl' ⟨hout, hq⟩
      rw [LateDrain, hl] at hl'
      cases hl'
  | value hc hl =>
    cases h' with
    | drain hout hfail => exact (hc.not_drain hout hfail).elim
    | promise hd hu => exact (hc.not_unwrap hd hu).elim
    | convert hc' =>
      obtain ⟨-, habs, -⟩ := hc.unique hc'
      cases habs
    | late hc' hout hq hl' =>
      obtain ⟨-, -, rfl, rfl⟩ := hc.unique hc'
      obtain ⟨w₂, ss₂, hl⟩ := hl ⟨hout, hq⟩
      rw [LateDrain, hl] at hl'
      cases hl'
    | value hc' _ =>
      obtain ⟨⟨rfl, rfl⟩, hout, -⟩ := hc.unique hc'
      cases hout
      rfl

-- ---------------------------------------------------------------------------
-- finish follows it
-- ---------------------------------------------------------------------------

theorem failWith_run (w : World) (ss : List Step) :
    failWith w ss = some (.failed w.captured.exc w.captured.oom,
      { w with pending := none, oom := false }, ss) := rfl

/-- Once there is an exception, no later phase replaces it. -/
theorem drainOutermost_failed (h : drainOutermost outermost (.failed exc oom) w ss = some (o, w', rest)) :
    o = .failed exc oom := by
  unfold drainOutermost at h
  split at h
  · obtain ⟨failed, w₁, ss₁, -, h⟩ := Recorded.bind_eq_some.mp h
    cases failed with
    | false => exact (Recorded.pure_eq_some.mp h).1
    | true =>
      simp only [keepOwn, clearException, Recorded.modify_bind] at h
      exact (Recorded.pure_eq_some.mp h).1
  · exact (Recorded.pure_eq_some.mp h).1

theorem drainOutermost_value (h : drainOutermost outermost (.value v r) w ss = some (o, w', rest)) :
    (o = .value v r ∧ Drained outermost w ss w' rest) ∨
      ∃ w₁, outermost = true ∧ drainJobs false w ss = some (true, w₁, rest) ∧
        o = .failed w₁.captured.exc w₁.captured.oom := by
  unfold drainOutermost at h
  split at h
  next hout =>
    obtain ⟨failed, w₁, ss₁, hdrain, h⟩ := Recorded.bind_eq_some.mp h
    cases failed with
    | false =>
      obtain ⟨rfl, rfl, rfl⟩ := Recorded.pure_eq_some.mp h
      exact .inl ⟨rfl, by rwa [Drained, if_pos hout]⟩
    | true =>
      rw [show keepOwn (.value v r) true = failWith from rfl, failWith_run] at h
      cases h
      exact .inr ⟨w₁, hout, hdrain, rfl⟩
  next hout =>
    obtain ⟨rfl, rfl, rfl⟩ := Recorded.pure_eq_some.mp h
    exact .inl ⟨rfl, by rw [Drained, if_neg hout]; exact ⟨rfl, rfl⟩⟩

/-- The outcome that unwrapping came to. -/
def outcomeOf : Captured ⊕ JSValue × Bool → Outcome
  | .inl c => .failed c.exc c.oom
  | .inr (x, r) => .value x r

theorem unwrapPromise_unwraps (hu : unwrap = true)
    (h : unwrapPromise v r module w ss = some (o, w', rest)) :
    ∃ u, o = outcomeOf u ∧ Unwraps unwrap module v r w ss u w' rest := by
  by_cases hp : ∃ ptr, v = .object ptr .promise
  · obtain ⟨ptr, rfl⟩ := hp
    simp only [unwrapPromise, Recorded.get_bind] at h
    cases hst : w.promiseState ptr with
    | fulfilled x =>
      simp only [hst] at h
      split at h
      next hm =>
        obtain ⟨ns, w₁, ss₁, hns, h⟩ := Recorded.bind_eq_some.mp h
        cases ns with
        | none =>
          simp only [failWith_run] at h
          cases h
          exact ⟨.inl _, rfl, .noNamespace hu hst hm hns⟩
        | some ns =>
          obtain ⟨rfl, rfl, rfl⟩ := Recorded.pure_eq_some.mp h
          exact ⟨.inr (ns, r), rfl, .namespaced hu hst hm hns⟩
      next hm =>
        obtain ⟨rfl, rfl, rfl⟩ := Recorded.pure_eq_some.mp h
        exact ⟨.inr (x, r), rfl, .fulfilled hu hst (by simpa using hm)⟩
    | rejected x =>
      simp only [hst, jsThrow, Recorded.modify_bind, failWith_run] at h
      cases h
      exact ⟨.inl (.of x w), rfl, .rejected hu hst⟩
    | pending =>
      simp only [hst] at h
      obtain ⟨rfl, rfl, rfl⟩ := Recorded.pure_eq_some.mp h
      exact ⟨.inr (_, true), rfl, .pending hu hst⟩
  · have hkept : unwrapPromise v r module = pure (.value v r) := by
      unfold unwrapPromise
      split
      · exact absurd ⟨_, rfl⟩ hp
      · rfl
    rw [hkept] at h
    obtain ⟨rfl, rfl, rfl⟩ := Recorded.pure_eq_some.mp h
    exact ⟨.inr (v, r), rfl, .kept fun _ ptr heq => hp ⟨ptr, heq⟩⟩

theorem unwrapped_unwraps (h : unwrapped unwrap module (.value v r) w ss = some (o, w', rest)) :
    ∃ u, o = outcomeOf u ∧ Unwraps unwrap module v r w ss u w' rest := by
  simp only [unwrapped] at h
  split at h
  next hu => exact unwrapPromise_unwraps hu h
  next hu =>
    obtain ⟨rfl, rfl, rfl⟩ := Recorded.pure_eq_some.mp h
    exact ⟨.inr (v, r), rfl, .kept fun h => absurd h hu⟩

/-- What `finish` has decided when it comes to write the output: an exception
that stays, or a result to convert. -/
def Chosen (who : Writer) (outermost refObjects unwrap module : Bool) (v : Option JSValue) (w : World)
    (ss : List Step) (w' : World) (ss' : List Step) : Outcome → Prop
  | .failed exc oom =>
    Selects who outermost refObjects unwrap module v w ss (.exception ⟨exc, oom⟩)
  | .value x r => ∃ body, v = some body ∧ ∃ w₁ ss₁ w₂ ss₂, Drained outermost w ss w₁ ss₁ ∧
    Unwraps unwrap module body refObjects w₁ ss₁ (.inr (x, r)) w₂ ss₂ ∧
    reportOutermost who outermost w₂ ss₂ = some ((), w', ss')

theorem unwrapped_failed (h : unwrapped unwrap module (.failed exc oom) w ss = some (o, w', rest)) :
    o = .failed exc oom := (Recorded.pure_eq_some.mp h).1

theorem finish_chooses (h : Prepares who outermost v refObjects unwrap module w ss o wd sd) :
    Chosen who outermost refObjects unwrap module v w ss wd sd o := by
  obtain ⟨o₁, wa, sa, o₂, wb, sb, wc, sc, hown, hdrain, hunwrap, hreport⟩ := h
  cases v with
  | none =>
    rw [ownResult, failWith_run] at hown
    cases hown
    obtain rfl := drainOutermost_failed hdrain
    obtain rfl := unwrapped_failed hunwrap
    exact .own
  | some v =>
    obtain ⟨rfl, rfl, rfl⟩ := Recorded.pure_eq_some.mp hown
    rcases drainOutermost_value hdrain with ⟨rfl, hd⟩ | ⟨w₁, hout, hfail, rfl⟩
    · obtain ⟨u, rfl, hu⟩ := unwrapped_unwraps hunwrap
      cases u with
      | inl c => exact .promise hd hu
      | inr xr => exact ⟨v, rfl, wb, sb, wc, sc, hd, hu, hreport⟩
    · obtain rfl := unwrapped_failed hunwrap
      exact .drain hout hfail

/-- Nested code left no exception of its own behind. -/
def Step.Tidy (s : Step) : Prop := ∀ exc, .pend exc ∈ s.effects → exc = none

/-- The text of an error's `stack` could not be copied: `x` ends the message, `s`
read the property and `t` asked for the text. -/
structure StackRefused (x s t : Step) : Prop where
  read : (∃ late exc, x.point = .message late exc ∧ s.point = .stack late exc) ∨
    ∃ late, x.point = .report late ∧ s.point = .report late
  copied : t.point = s.point
  ended : ∀ v, x.answer ≠ .value v
  text : ∃ b, s.answer = .value (.string b)
  refused : ∃ exc, t.answer = .threw exc

structure Tidy (used : List Step) : Prop where
  steps : ∀ s ∈ used, s.Tidy
  copies : ∀ x s t, [x, s, t] <:+: used → ¬ StackRefused x s t

theorem tidy_splits : Splits Tidy := by
  intro es es' h
  constructor
  · exact ⟨fun s hs => h.steps s (List.mem_append_left _ hs),
      fun x s t hin => h.copies x s t (hin.trans (List.prefix_append _ _).isInfix)⟩
  · exact ⟨fun s hs => h.steps s (List.mem_append_right _ hs),
      fun x s t hin => h.copies x s t (hin.trans (List.suffix_append _ _).isInfix)⟩

def Clear (w : World) : Prop := w.pending = none

theorem perform_clear (h : ∀ exc, .pend exc ∈ es → exc = none) (hw : Clear w) :
    Clear (w.perform es) := by
  induction es generalizing w with
  | nil => exact hw
  | cons e es ih =>
    refine ih (fun exc hexc => h exc (List.mem_cons_of_mem _ hexc)) ?_
    cases e with
    | pend exc => exact h exc List.mem_cons_self
    | write stack bytes => cases stack <;> exact hw
    | _ => exact hw

theorem engine_ends (pt : Point) : Ends Tidy Clear (engine pt) fun r w => r.isSome → Clear w := by
  refine Ends.next fun s w r w' h htidy hw => ?_
  simp only [engineStep] at h
  split at h
  · split at h
    · cases h
      exact fun _ => perform_clear (htidy.steps s List.mem_cons_self) hw
    · cases h
      simp
    · cases h
  · cases h

theorem clearException_ends : Ends Tidy (fun _ => True) clearException fun _ w => Clear w :=
  .modify fun _ _ => rfl

theorem lend_step (h : lend pt w ss = some (r, w', rest)) :
    ∃ t, ss = t :: rest ∧ t.point = pt ∧ (∀ v, t.answer ≠ .value v) ∧
      (∀ b, r = some b → t.answer = .text b) ∧ (r = none → ∃ exc, t.answer = .threw exc) := by
  obtain ⟨t, rfl, ht⟩ := Recorded.next_eq_some.mp h
  refine ⟨t, rfl, ?_⟩
  split at ht
  next hpt =>
    split at ht
    next hans => cases ht; exact ⟨hpt.1, by simp [hans], by simp [hans], by simp⟩
    next exc hans => cases ht; exact ⟨hpt.1, by simp [hans], by simp, fun _ => ⟨exc, hans⟩⟩
    next => cases ht
  next => cases ht

theorem toCStringLen_step (h : toCStringLen pt v w ss = some (r, w', rest)) :
    ∃ t, ss = t :: rest ∧ t.point = pt ∧ (∀ v, t.answer ≠ .value v) ∧
      (∀ b, r = some b → t.answer = .text b) ∧ (r = none → ∃ exc, t.answer = .threw exc) := by
  obtain ⟨r', w₁, ss₁, hlend, h⟩ := Recorded.bind_eq_some.mp h
  obtain ⟨t, rfl, hpt, hval, htext, hnone⟩ := lend_step hlend
  cases r' with
  | none =>
    obtain ⟨rfl, rfl, rfl⟩ := Recorded.pure_eq_some.mp h
    exact ⟨t, rfl, hpt, hval, by simp, hnone⟩
  | some b =>
    simp only at h
    split at h
    · obtain ⟨rfl, rfl, rfl⟩ := Recorded.pure_eq_some.mp h
      exact ⟨t, rfl, hpt, hval, htext, by simp⟩
    · cases h

/-- A proxy at which `JS_IsArray` throws. -/
def JSValue.unresolved : JSValue → Bool
  | .object _ (.revokedProxy _) | .object _ (.deepProxy _) => true
  | _ => false

theorem jsThrow_ends (pre : World → Prop) :
    Ends Tidy pre (jsThrow exc) fun _ _ => True := .modify fun _ _ => trivial

theorem drainLoop_ends : Ends Tidy Clear
    (drainLoop late) fun failed w => failed = false → Clear w := by
  intro w ss
  induction ss generalizing w with
  | nil =>
    intro failed w' rest h
    cases drainLoop_cases h with
    | interrupted => exact ⟨[], rfl, fun _ _ hf => by cases hf⟩
    | empty => exact ⟨[], rfl, fun _ hw _ => hw⟩
  | cons s ss ih =>
    intro failed w' rest h
    cases drainLoop_cases h with
    | interrupted => exact ⟨[], rfl, fun _ _ hf => by cases hf⟩
    | empty => exact ⟨[], rfl, fun _ hw _ => hw⟩
    | @next _ _ a w₁ _ job more =>
      obtain ⟨used, rfl, hend⟩ := ih w₁ failed w' rest more
      refine ⟨s :: used, rfl, fun htidy hw => ?_⟩
      obtain ⟨htidy₁, htidy₂⟩ := tidy_splits (show Tidy ([s] ++ used) from htidy)
      have hrun : engine (.drain late) { w with jobs := w.jobs - 1 } [s] =
          some (some a, w₁, []) := by
        simp only [engine, Recorded.next, executePendingJob] at job ⊢
        rw [job]
        rfl
      obtain ⟨u, hu, hclear⟩ := (engine_ends _).elim hrun
      obtain rfl : u = [s] := by simpa using hu.symm
      exact hend htidy₂ (hclear htidy₁ hw rfl)
    | failed => exact ⟨[s], rfl, fun _ _ hf => by cases hf⟩

theorem discardJobs_ends (pre : World → Prop) :
    Ends Tidy pre (discardJobs late) fun _ _ => True := by
  refine .bind tidy_splits (fun w ss u w' rest h => ?_) fun _ => .modify fun _ h => h
  obtain ⟨used, hused, -⟩ := discardLoop_spec h
  exact ⟨used, hused, fun _ _ => trivial⟩

theorem drainJobs_ends :
    Ends Tidy Clear (drainJobs late) fun failed w => failed = false → Clear w := by
  refine .bind tidy_splits drainLoop_ends fun failed => ?_
  cases failed with
  | false => exact .pure fun w h _ => h rfl
  | true =>
    refine .bind tidy_splits .get fun w => ?_
    refine .bind tidy_splits (clearException_ends.weaken (fun _ _ => trivial) fun _ _ h => h)
      fun _ => ?_
    refine .bind tidy_splits (discardJobs_ends _) fun _ => ?_
    refine .bind tidy_splits (jsThrow_ends _) fun _ => .pure fun w _ hf => ?_
    cases hf

/-- A promise that is still pending leaves as a ref that says so. -/
theorem refToOut_promise (h : refToOut (.object ptr .promise) w ss = some (some out, w', rest)) :
    ∃ handle, out.tag = .ref handle ⟨false, false, true⟩ := by
  obtain ⟨kind, w₁, ss₁, hkind, hslot⟩ := Recorded.bind_eq_some.mp h
  cases hkind
  obtain ⟨handle, w₂, ss₂, -, hend⟩ := Recorded.bind_eq_some.mp hslot
  split at hend
  · obtain ⟨_, w₃, ss₃, -, hpure⟩ := Recorded.bind_eq_some.mp hend
    cases (Recorded.pure_eq_some.mp hpure).1
  · obtain ⟨hout, -⟩ := Recorded.pure_eq_some.mp hend
    obtain rfl := Option.some.inj hout
    exact ⟨handle, rfl⟩

/-- An engine that runs a call, with a promise rejected with a string. -/
def rejecting : World :=
  { World.init with state := .running, promises := [(7, .rejected (.string (ascii "no")))] }

end QuickJsKmp
