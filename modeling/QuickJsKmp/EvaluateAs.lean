import QuickJsKmp.Nesting

/-!
# `evaluateAs`

The typed evaluation asks for no refs, but a promise that is still pending comes back as
one. The decoder serializes it and leaves it open, and the caller never sees it.
-/

namespace QuickJsKmp.Ledger

open Recorded (Prog Hands Returns)

variable {base : Base}

-- ---------------------------------------------------------------------------
-- The helper
-- ---------------------------------------------------------------------------

inductive Decoded (T : Type)
  | value (t : T)
  | jsException
  | serializationException
  | cancellationException
  deriving DecidableEq, Repr

/-- The value comes from the engine or from the runtime. The coroutine of the runtime may
be cancelled by then, and the value is dropped. -/
inductive Receiver
  | engine
  | runtime (cancelled : Bool)
  deriving DecidableEq, Repr

def Receiver.drops : Receiver → Bool
  | .engine => false
  | .runtime cancelled => cancelled

section

variable {T : Type} (script : M Answer) (answer : Option T)

/-- What the deserializer answers, if it is asked; `none` stands for a value that is not
serializable too. -/
def deserialize : Decoded T :=
  match answer with
  | some t => .value t
  | none => .serializationException

/-- `JsEngine.decode` and `decodeFromJsValue`. -/
def decodeFromJsValue : Bool × Tag → M (Decoded T)
  | (true, _) => pure .jsException
  | (false, .ref ref _) => do
    let (failed, _) ← kmpjsRefToJson script ref
    pure (if failed then .jsException else deserialize answer)
  | (false, _) => pure (deserialize answer)

def evaluateAs (receiver : Receiver) : M (Decoded T) := do
  let r ← kmpjsEval script false
  if receiver.drops then pure .cancellationException else decodeFromJsValue script answer r

end

-- ---------------------------------------------------------------------------
-- What it leaves
-- ---------------------------------------------------------------------------

def Note.retains (ref : Handle) : Note → Bool
  | .retained ref' _ => ref' = ref
  | _ => false

/-- Host code released the ref more often than it retained it. -/
def GivenAway (log : List Moment) (ref : Handle) : Prop :=
  (notes log).countP (Note.retains ref) < (notes log).count (.released ref)

instance (log : List Moment) (ref : Handle) : Decidable (GivenAway log ref) :=
  inferInstanceAs (Decidable (_ < _))

def Note.losesArgument : Note → Bool
  | .argumentLost _ => true
  | _ => false

/-- The argument is gone because host code gave it away. -/
def Note.givesAway (log : List Moment) : Note → Bool
  | .argumentLost ref => GivenAway log ref
  | _ => false

/-- What host code answers for: the refs that it retained or was handed, those it released,
and for each argument of its own that it gave away the count that `js_kmp_host` has no slot
to take from. -/
def hosted (log : List Moment) : ℤ := net log + (notes log).countP (Note.givesAway log)

/-- The arguments that were gone for another reason. A slot that is worn out hands out
refs that `slot_get` does not know. -/
def unreturned (log : List Moment) : ℕ :=
  (notes log).countP fun n => n.losesArgument && !n.givesAway log

/-- `live_refs` changed by what host code did, and by nothing else. -/
def LeavesRefs (s s' : Shim) : Prop :=
  s'.liveRefs = s.liveRefs + BitVec.ofInt 32 (hosted (s'.log.drop s.log.length))

instance (s s' : Shim) : Decidable (LeavesRefs s s') := inferInstanceAs (Decidable (_ = _))

/-- The evaluation up to the first drain. -/
def settled (script : M Answer) : M (Bool × Outcome) := do
  let outermost ← runBegin
  let r ← value script
  let o ← ownResult r false
  let o ← drainOutermost script outermost o
  pure (outermost, o)

/-- From there on. -/
def ended (script : M Answer) (unwrap outermost : Bool) (o : Outcome) : M (Bool × Tag) := do
  let o ← unwrapped script unwrap false o
  reportOutermost script outermost
  let r ← writeOut script outermost o
  runEnd outermost
  pure r

/-- An evaluation or a property access that asks for no refs. -/
def run (script : M Answer) (unwrap : Bool) : M (Bool × Tag) := do
  let outermost ← runBegin
  let r ← value script
  finish script outermost r false unwrap false

theorem run_eq_some {script : M Answer} (hrun : run script unwrap s es = some (r, s', rest)) :
    ∃ outermost o s₁ es₁, settled script s es = some ((outermost, o), s₁, es₁) ∧
      ended script unwrap outermost o s₁ es₁ = some (r, s', rest) := by
  obtain ⟨outermost, s₁, es₁, hbegin, hrest₁⟩ := Recorded.bind_eq_some.mp hrun
  obtain ⟨v, s₂, es₂, hvalue, hrest₂⟩ := Recorded.bind_eq_some.mp hrest₁
  obtain ⟨o₁, s₃, es₃, hown, hrest₃⟩ := Recorded.bind_eq_some.mp hrest₂
  obtain ⟨o, s₄, es₄, hdrain, hrest₄⟩ := Recorded.bind_eq_some.mp hrest₃
  refine ⟨outermost, o, s₄, es₄, ?_, hrest₄⟩
  exact Recorded.bind_eq_some.mpr ⟨outermost, s₁, es₁, hbegin,
    Recorded.bind_eq_some.mpr ⟨v, s₂, es₂, hvalue,
      Recorded.bind_eq_some.mpr ⟨o₁, s₃, es₃, hown,
        Recorded.bind_eq_some.mpr ⟨o, s₄, es₄, hdrain, rfl⟩⟩⟩⟩

/-- No job has settled the result. -/
def Unsettled (s : Shim) : Outcome → Prop
  | .value (.object p .promise) _ => (s.promise p).state = .pending
  | _ => False

/-- The jobs leave the result pending, and when the rejections have been reported the
table has room for it. -/
def LeftPending (script : M Answer) (s : Shim) (es : List Event) : Prop :=
  ∃ outermost v refObjects s₁ es₁ s₂ es₂,
    settled script s es = some ((outermost, .value v refObjects), s₁, es₁) ∧
    Unsettled s₁ (.value v refObjects) ∧
    reportOutermost script outermost s₁ es₁ = some ((), s₂, es₂) ∧ (s₂.slotNew v).2 ≠ 0

-- ---------------------------------------------------------------------------
-- The ref that the evaluation makes
-- ---------------------------------------------------------------------------

def refsOut : Bool × Tag → ℕ
  | (false, .ref _ _) => 1
  | _ => 0

theorem resultCount_eq (r : Bool × Tag) : resultCount r.1 r.2 = BitVec.ofNat 32 (refsOut r) := by
  obtain ⟨failed, tag⟩ := r
  cases failed <;> cases tag <;> rfl

theorem refsOut_of_plain (h : resultRef r = 0) : refsOut r = 0 := by
  obtain ⟨failed, tag⟩ := r
  cases failed with
  | true => rfl
  | false =>
    cases tag with
    | ref ref kind =>
      have hone : (1 : BitVec 32) = 0 := congrArg (fun h : Hand => h.2.1) h
      exact absurd hone (by decide)
    | _ => rfl

theorem resultRef_retag (r : Bool × Tag) : resultRef (retag r) = 0 := by
  obtain ⟨failed, tag⟩ := r
  cases failed <;> rfl

theorem loseResult_ref (hrun : loseResult tag s es = some (u, s', rest)) :
    s'.state = s.state ∧ lostResults s'.log = lostResults s.log + refsOut (false, tag) := by
  cases tag with
  | ref ref kind =>
    cases hrun
    exact ⟨rfl, lostResults_append _ _⟩
  | _ =>
    cases hrun
    exact ⟨rfl, rfl⟩

theorem runBegin_running (hrun : runBegin s es = some (outermost, s', rest)) :
    s'.state ≠ .idle ∧ s'.log = s.log := by
  cases hrun
  refine ⟨?_, rfl⟩
  cases hst : s.state <;> simp [QuickJsKmp.runBegin]

theorem ownResult_plain (v : Option JSValue) : Returns (ownResult v false) Plain := by
  cases v with
  | none => exact failWith_plain
  | some v => exact .pure rfl

section Script

variable {script : M Answer} (hscript : Inside script)

include hscript

/-- A ref goes to the caller, or it is lost. -/
theorem lateWork_ref (hrun : lateWork script tag s es = some (r, s', rest)) (hs : s.state ≠ .idle) :
    lostResults s'.log + refsOut r = lostResults s.log + refsOut (false, tag) := by
  obtain ⟨failed, s₁, es₁, hdrain, hrest⟩ := Recorded.bind_eq_some.mp hrun
  obtain ⟨hs₁, hlost₁⟩ := (drainJobs_inside hscript).elim hdrain hs
  cases failed with
  | false =>
    obtain ⟨_, s₂, es₂, hreport, hpure⟩ := Recorded.bind_eq_some.mp hrest
    obtain ⟨rfl, rfl, -⟩ := Recorded.pure_eq_some.mp hpure
    rw [((reportRejections_inside hscript).elim hreport hs₁).2, hlost₁]
  | true =>
    obtain ⟨_, s₂, es₂, hlose, hrest⟩ := Recorded.bind_eq_some.mp hrest
    obtain ⟨_, s₃, es₃, hdescribe, hpure⟩ := Recorded.bind_eq_some.mp hrest
    obtain ⟨rfl, rfl, -⟩ := Recorded.pure_eq_some.mp hpure
    obtain ⟨hs₂, hlost₂⟩ := loseResult_ref hlose
    rw [← hs₂] at hs₁
    rw [((exceptionToOut_inside hscript).elim hdescribe hs₁).2, hlost₂, hlost₁]
    rfl

/-- So does every ref that the conversion makes. -/
theorem convert_ref (hrun : convert script outermost v refObjects s es = some (r, s', rest))
    (hs : s.state ≠ .idle) :
    ∃ tag s₁ es₁, valueToOut script v refObjects s es = some (tag, s₁, es₁) ∧
      lostResults s'.log + refsOut r =
        lostResults s.log + (tag.elim 0 fun tag => refsOut (false, tag)) := by
  obtain ⟨tag, s₁, es₁, hvalue, hrest⟩ := Recorded.bind_eq_some.mp hrun
  obtain ⟨hs₁, hlost₁⟩ := (valueToOut_inside hscript v refObjects).elim hvalue hs
  refine ⟨tag, s₁, es₁, hvalue, ?_⟩
  cases tag with
  | none =>
    obtain ⟨_, s₂, es₂, hdescribe, hpure⟩ := Recorded.bind_eq_some.mp hrest
    obtain ⟨rfl, rfl, -⟩ := Recorded.pure_eq_some.mp hpure
    rw [((exceptionToOut_inside hscript).elim hdescribe hs₁).2, hlost₁]
    rfl
  | some tag =>
    obtain ⟨t, s₂, es₂, hget, hrest⟩ := Recorded.bind_eq_some.mp hrest
    obtain ⟨ht, hs₂, hes₂⟩ := Recorded.get_eq_some.mp hget
    rw [ht, hs₂, hes₂] at hrest
    by_cases hlate : outermost = true ∧ (s₁.jobs ≠ 0 ∨ s₁.rejected ≠ [])
    · rw [if_pos hlate] at hrest
      rw [lateWork_ref hscript hrest hs₁, hlost₁]
      rfl
    · rw [if_neg hlate] at hrest
      obtain ⟨rfl, rfl, -⟩ := Recorded.pure_eq_some.mp hrest
      rw [hlost₁]
      rfl

theorem writeOut_value_ref
    (hrun : writeOut script outermost (.value v refObjects) s es = some (r, s', rest))
    (hs : s.state ≠ .idle) :
    ∃ tag s₁ es₁, valueToOut script v refObjects s es = some (tag, s₁, es₁) ∧
      lostResults s'.log + refsOut r =
        lostResults s.log + (tag.elim 0 fun tag => refsOut (false, tag)) := by
  obtain ⟨r₁, s₁, es₁, hconvert, hrest⟩ := Recorded.bind_eq_some.mp hrun
  obtain ⟨_, s₂, es₂, hfree, hpure⟩ := Recorded.bind_eq_some.mp hrest
  obtain ⟨rfl, rfl, -⟩ := Recorded.pure_eq_some.mp hpure
  obtain ⟨rfl, -⟩ := Recorded.modify_eq_some.mp hfree
  obtain ⟨tag, s₃, es₃, hvalue, hrefs⟩ := convert_ref hscript hconvert hs
  exact ⟨tag, s₃, es₃, hvalue, by rw [(Same.give s₁ _).2, hrefs]⟩

theorem writeOut_plain_ref (hrun : writeOut script outermost o s es = some (r, s', rest))
    (hs : s.state ≠ .idle) (ho : Plain o) : lostResults s'.log + refsOut r = lostResults s.log := by
  cases o with
  | failed exc oom =>
    obtain ⟨_, s₁, es₁, hdescribe, hpure⟩ := Recorded.bind_eq_some.mp hrun
    obtain ⟨rfl, rfl, -⟩ := Recorded.pure_eq_some.mp hpure
    exact ((describe_inside hscript exc oom).elim hdescribe hs).2
  | value v refObjects =>
    obtain rfl : refObjects = false := ho
    obtain ⟨tag, s₁, es₁, hvalue, hrefs⟩ := writeOut_value_ref hscript hrun hs
    have hplain := valueToOut_plain v _ _ _ _ _ hvalue
    cases tag with
    | none => exact hrefs
    | some tag =>
      have hnone : refsOut (false, tag) = 0 := refsOut_of_plain hplain
      rw [hrefs, Option.elim_some, hnone, add_zero]

omit hscript in
/-- A promise becomes a ref if there is a slot for it. -/
theorem refToOut_promise (hrun : refToOut (.object p .promise) s es = some (tag, s', rest)) :
    (tag.elim 0 fun tag => refsOut (false, tag)) =
      if (s.slotNew (.object p .promise)).2 = 0 then 0 else 1 := by
  have hslots : (s.own (.value (.object p .promise))).slots = s.slots := by
    rw [own_eq]
  have href : ((s.own (.value (.object p .promise))).slotNew (.object p .promise)).2 =
      (s.slotNew (.object p .promise)).2 := by
    simp only [Shim.slotNew, hslots]
    split <;> rfl
  obtain ⟨kind, s₁, es₁, hkind, hmake⟩ := Recorded.bind_eq_some.mp hrun
  cases hkind
  obtain ⟨_, s₂, es₂, hown, hslot⟩ := Recorded.bind_eq_some.mp hmake
  obtain ⟨rfl, rfl⟩ := Recorded.modify_eq_some.mp hown
  obtain ⟨ref, s₃, es₃, hnew, hout⟩ := Recorded.bind_eq_some.mp hslot
  obtain rfl : (s.slotNew (.object p .promise)).2 = ref := by
    cases hnew
    exact href.symm
  by_cases hnone : (s.slotNew (.object p .promise)).2 = 0
  · rw [if_pos hnone] at hout ⊢
    cases hout
    rfl
  · rw [if_neg hnone] at hout ⊢
    obtain ⟨rfl, -⟩ := Recorded.pure_eq_some.mp hout
    rfl

omit hscript in
/-- Only an unsettled promise asks for a ref. -/
theorem unwrapped_plain (hrun : unwrapped script unwrap false o s es = some (o', s', rest))
    (ho : Plain o) (hsettled : unwrap = true → ¬ Unsettled s o) : Plain o' := by
  cases o with
  | failed exc oom =>
    obtain ⟨rfl, -⟩ := Recorded.pure_eq_some.mp hrun
    trivial
  | value v refObjects =>
    obtain rfl : refObjects = false := ho
    cases unwrap with
    | false =>
      obtain ⟨rfl, -⟩ := Recorded.pure_eq_some.mp hrun
      rfl
    | true =>
    replace hrun : unwrapPromise script v false false s es = some (o', s', rest) := hrun
    unfold unwrapPromise at hrun
    split at hrun
    · rename_i p
      rw [Recorded.get_bind] at hrun
      have hstate : (s.promise p).state ≠ .pending := hsettled rfl
      cases hst : (s.promise p).state with
      | pending => exact absurd hst hstate
      | fulfilled result =>
        simp only [hst] at hrun
        have hplain : Returns (unwrapFulfilled script (.object p .promise) result false false) Plain :=
          .after fun _ => .after fun _ => .pure rfl
        exact hplain _ _ _ _ _ hrun
      | rejected reason =>
        simp only [hst] at hrun
        have hplain : Returns (unwrapRejected p (.object p .promise) reason) Plain :=
          .after fun _ => .after fun _ => .after fun _ => failWith_plain
        exact hplain _ _ _ _ _ hrun
    · obtain ⟨rfl, -⟩ := Recorded.pure_eq_some.mp hrun
      rfl

omit hscript in
theorem unwrapped_unsettled (hrun : unwrapped script true false o s es = some (o', s', rest))
    (ho : Unsettled s o) :
    ∃ p refObjects, o = .value (.object p .promise) refObjects ∧
      o' = .value (.object p .promise) true ∧ s' = s ∧ rest = es := by
  unfold Unsettled at ho
  split at ho
  · rename_i p refObjects
    replace hrun : unwrapPromise script (.object p .promise) refObjects false s es =
      some (o', s', rest) := hrun
    simp only [unwrapPromise] at hrun
    rw [Recorded.get_bind] at hrun
    simp only [ho] at hrun
    obtain ⟨rfl, rfl, rfl⟩ := Recorded.pure_eq_some.mp hrun
    exact ⟨p, refObjects, rfl, rfl, rfl, rfl⟩
  · cases ho

omit hscript in
theorem ended_eq_some (hrun : ended script unwrap outermost o s es = some (r, s', rest)) :
    ∃ o' s₁ es₁ s₂ es₂ s₃ es₃,
      unwrapped script unwrap false o s es = some (o', s₁, es₁) ∧
      reportOutermost script outermost s₁ es₁ = some ((), s₂, es₂) ∧
      writeOut script outermost o' s₂ es₂ = some (r, s₃, es₃) ∧
      s' = { s₃ with state := QuickJsKmp.runEnd outermost s₃.state } := by
  obtain ⟨o', s₁, es₁, hunwrap, hrest₁⟩ := Recorded.bind_eq_some.mp hrun
  obtain ⟨_, s₂, es₂, hreport, hrest₂⟩ := Recorded.bind_eq_some.mp hrest₁
  obtain ⟨r₁, s₃, es₃, hwrite, hrest₃⟩ := Recorded.bind_eq_some.mp hrest₂
  obtain ⟨_, s₄, es₄, hend, hpure⟩ := Recorded.bind_eq_some.mp hrest₃
  obtain ⟨rfl, rfl, -⟩ := Recorded.pure_eq_some.mp hpure
  obtain ⟨hs₄, -⟩ := Recorded.modify_eq_some.mp hend
  exact ⟨o', s₁, es₁, s₂, es₂, s₃, es₃, hunwrap, hreport, hwrite, hs₄⟩

theorem settled_running (hrun : settled script s es = some ((outermost, o), s', rest)) :
    s'.state ≠ .idle ∧ lostResults s'.log = lostResults s.log ∧ Plain o := by
  obtain ⟨b, s₁, es₁, hbegin, hrest₁⟩ := Recorded.bind_eq_some.mp hrun
  obtain ⟨v, s₂, es₂, hvalue, hrest₂⟩ := Recorded.bind_eq_some.mp hrest₁
  obtain ⟨o₁, s₃, es₃, hown, hrest₃⟩ := Recorded.bind_eq_some.mp hrest₂
  obtain ⟨o₂, s₄, es₄, hdrain, hpure⟩ := Recorded.bind_eq_some.mp hrest₃
  obtain ⟨hpair, rfl, -⟩ := Recorded.pure_eq_some.mp hpure
  cases hpair
  obtain ⟨hs₁, hlog⟩ := runBegin_running hbegin
  obtain ⟨hs₂, hlost₂⟩ := (value_inside hscript).elim hvalue hs₁
  obtain ⟨hs₃, hlost₃⟩ := (ownResult_inside v false).elim hown hs₂
  obtain ⟨hs₄, hlost₄⟩ := (drainOutermost_inside hscript outermost o₁).elim hdrain hs₃
  have hplain : Plain o₁ := ownResult_plain v _ _ _ _ _ hown
  exact ⟨hs₄, by rw [hlost₄, hlost₃, hlost₂, hlog],
    drainOutermost_plain outermost hplain _ _ _ _ _ hdrain⟩

theorem ended_ref (hrun : ended script unwrap outermost o s es = some (r, s', rest))
    (hs : s.state ≠ .idle) (ho : Plain o) (hsettled : unwrap = true → ¬ Unsettled s o) :
    lostResults s'.log + refsOut r = lostResults s.log := by
  obtain ⟨o', s₁, es₁, s₂, es₂, s₃, es₃, hunwrap, hreport, hwrite, rfl⟩ := ended_eq_some hrun
  obtain ⟨hs₁, hlost₁⟩ := (unwrapped_inside hscript unwrap false o).elim hunwrap hs
  obtain ⟨hs₂, hlost₂⟩ := (reportOutermost_inside hscript outermost).elim hreport hs₁
  exact (writeOut_plain_ref hscript hwrite hs₂ (unwrapped_plain hunwrap ho hsettled)).trans
    (hlost₂.trans hlost₁)

theorem ended_promise_ref
    (hrun : ended script true outermost (.value v refObjects) s es = some (r, s', rest))
    (hs : s.state ≠ .idle) (ho : Unsettled s (.value v refObjects)) :
    ∃ s₁ es₁, reportOutermost script outermost s es = some ((), s₁, es₁) ∧
      lostResults s'.log + refsOut r =
        lostResults s.log + if (s₁.slotNew v).2 = 0 then 0 else 1 := by
  obtain ⟨o', s₁, es₁, s₂, es₂, s₃, es₃, hunwrap, hreport, hwrite, rfl⟩ := ended_eq_some hrun
  obtain ⟨p, b, hvalue, rfl, rfl, rfl⟩ := unwrapped_unsettled hunwrap ho
  cases hvalue
  obtain ⟨hs₂, hlost₂⟩ := (reportOutermost_inside hscript outermost).elim hreport hs
  obtain ⟨tag, s₅, es₅, hconvert, hrefs⟩ := writeOut_value_ref hscript hwrite hs₂
  refine ⟨s₂, es₂, hreport, ?_⟩
  rw [← refToOut_promise hconvert, ← hlost₂]
  exact hrefs

omit hscript in
theorem leftPending_iff (hsettled : settled script s es = some ((outermost, .value v b), s₁, es₁))
    (ho : Unsettled s₁ (.value v b))
    (hreport : reportOutermost script outermost s₁ es₁ = some ((), s₂, es₂)) :
    LeftPending script s es ↔ (s₂.slotNew v).2 ≠ 0 := by
  constructor
  · rintro ⟨_, _, _, _, _, _, _, hsettled', -, hreport', hroom⟩
    rw [hsettled] at hsettled'
    cases hsettled'
    rw [hreport] at hreport'
    cases hreport'
    exact hroom
  · intro hroom
    exact ⟨outermost, v, b, s₁, es₁, s₂, es₂, hsettled, ho, hreport, hroom⟩

omit hscript in
theorem not_leftPending (hsettled : settled script s es = some ((outermost, o), s₁, es₁))
    (ho : ¬ Unsettled s₁ o) : ¬ LeftPending script s es := by
  rintro ⟨_, _, _, _, _, _, _, hsettled', ho', -⟩
  rw [hsettled] at hsettled'
  cases hsettled'
  exact ho ho'

/-- The evaluation makes one ref if the result is left pending, and none otherwise. -/
theorem kmpjsEval_ref (hrun : kmpjsEval script false s es = some (r, s', rest)) :
    (LeftPending script s es → lostResults s'.log + refsOut r = lostResults s.log + 1) ∧
      (¬ LeftPending script s es → lostResults s'.log + refsOut r = lostResults s.log) := by
  obtain ⟨outermost, o, s₁, es₁, hsettled, hended⟩ := run_eq_some hrun
  obtain ⟨hs₁, hlost₁, hplain⟩ := settled_running hscript hsettled
  by_cases ho : Unsettled s₁ o
  · cases o with
    | failed exc oom => cases ho
    | value v refObjects =>
      obtain ⟨s₂, es₂, hreport, hrefs⟩ := ended_promise_ref hscript hended hs₁ ho
      rw [leftPending_iff hsettled ho hreport, hrefs, hlost₁]
      refine ⟨fun hroom => by rw [if_neg hroom], fun hnone => by rw [if_pos (not_not.mp hnone)]; rfl⟩
  · refine ⟨fun hleft => absurd hleft (not_leftPending hsettled ho), fun _ => ?_⟩
    rw [ended_ref hscript hended hs₁ hplain fun _ => ho, hlost₁]

theorem kmpjsRefToJson_ref (hrun : kmpjsRefToJson script ref s es = some (r, s', rest)) :
    lostResults s'.log = lostResults s.log ∧ resultRef r = 0 := by
  obtain ⟨slot, s₁, es₁, hget, hrest⟩ := Recorded.bind_eq_some.mp hrun
  cases hget
  cases hslot : s.slots.slotGet ref with
  | none =>
    rw [hslot] at hrest
    obtain ⟨rfl, rfl, -⟩ := Recorded.pure_eq_some.mp hrest
    exact ⟨rfl, rfl⟩
  | some slot =>
    rw [hslot] at hrest
    by_cases hfunction : slot.val.isFunction = true
    · simp only [if_pos hfunction] at hrest
      obtain ⟨rfl, rfl, -⟩ := Recorded.pure_eq_some.mp hrest
      exact ⟨rfl, rfl⟩
    · simp only [if_neg hfunction] at hrest
      obtain ⟨r₁, s₂, es₂, haccess, hpure⟩ := Recorded.bind_eq_some.mp hrest
      obtain ⟨rfl, rfl, -⟩ := Recorded.pure_eq_some.mp hpure
      obtain ⟨outermost, o, s₃, es₃, hsettled, hended⟩ := run_eq_some haccess
      obtain ⟨hs₃, hlost₃, hplain⟩ := settled_running hscript hsettled
      have hrefs := ended_ref hscript hended hs₃ hplain nofun
      rw [refsOut_of_plain (access_plain _ _ _ _ _ haccess), add_zero] at hrefs
      exact ⟨hrefs.trans hlost₃, resultRef_retag r₁⟩

end Script

-- ---------------------------------------------------------------------------
-- The accounts
-- ---------------------------------------------------------------------------

def argumentsLost (log : List Moment) : ℕ := (notes log).countP Note.losesArgument

theorem lost_eq (log : List Moment) : lost log = argumentsLost log + lostResults log := by
  unfold lost argumentsLost lostResults
  induction notes log with
  | nil => rfl
  | cons n ns ih =>
    rw [List.countP_cons, List.countP_cons, List.countP_cons, ih]
    cases n <;> simp [Note.loses, Note.losesArgument, Note.losesResult] <;> omega

theorem Note.losesArgument_of_givesAway {n : Note} (h : n.givesAway log = true) :
    n.losesArgument = true := by
  cases n with
  | argumentLost ref => rfl
  | _ => cases h

/-- Host code gave an argument away, or it was gone for another reason. -/
theorem argumentsLost_eq (log : List Moment) :
    argumentsLost log = (notes log).countP (Note.givesAway log) + unreturned log := by
  unfold argumentsLost unreturned
  induction notes log with
  | nil => rfl
  | cons n ns ih =>
    have hloses : n.givesAway log = true → n.losesArgument = true := Note.losesArgument_of_givesAway
    rw [List.countP_cons, List.countP_cons, List.countP_cons, ih]
    cases hgiven : n.givesAway log <;> cases hlost : n.losesArgument
    · simp
    · simp
      omega
    · simp [hgiven, hlost] at hloses
    · simp
      omega

/-- What the notes add, but for the results that were lost. -/
def given (log : List Moment) : ℤ := net log + argumentsLost log

theorem given_eq (log : List Moment) : given log = hosted log + unreturned log := by
  rw [given, hosted, argumentsLost_eq, Nat.cast_add, add_assoc]

theorem credit_eq_given (log : List Moment) :
    credit log = BitVec.ofInt 32 (given log) + BitVec.ofNat 32 (lostResults log) := by
  rw [credit_eq, lost_eq, given, BitVec.ofInt_add, BitVec.ofInt_natCast, BitVec.ofNat_add, add_assoc]

theorem lostResults_drop {s s' : Shim} (h : s.log <+: s'.log) :
    lostResults s'.log = lostResults s.log + lostResults (s'.log.drop s.log.length) := by
  obtain ⟨new, hnew⟩ := h
  rw [← hnew, lostResults_append, List.drop_left]

theorem given_append (log new : List Moment) : given (log ++ new) = given log + given new := by
  simp only [given, net, argumentsLost, notes, List.map_append, List.sum_append, List.countP_append,
    Nat.cast_add]
  abel

theorem given_drop {s s₁ s' : Shim} (h : s.log <+: s₁.log) (h' : s₁.log <+: s'.log) :
    given (s'.log.drop s.log.length) =
      given (s₁.log.drop s.log.length) + given (s'.log.drop s₁.log.length) := by
  obtain ⟨new, hnew⟩ := h
  obtain ⟨new', hnew'⟩ := h'
  rw [← hnew', List.drop_left, ← hnew, List.append_assoc, List.drop_left, List.drop_left,
    given_append]

/-- What a call adds to `live_refs` beside what the notes say: the refs it hands out and those
it loses. -/
theorem call_live {s s' : Shim} {h : Hand} {call : M α} {Q : α → Hand}
    (hcall : ∀ base, Hands (Balanced base) 0 call Q)
    (hrun : call s es = some (a, s', rest)) (hs : Balanced base s h)
    (hlost : lostResults s'.log + n = lostResults s.log + m) (hn : (Q a).2.1 = BitVec.ofNat 32 n) :
    s.log <+: s'.log ∧
      s'.liveRefs = s.liveRefs + BitVec.ofInt 32 (given (s'.log.drop s.log.length)) +
        BitVec.ofNat 32 m := by
  obtain ⟨-, hlog, hlive⟩ := call_span hcall hrun hs
  have hm : m = lostResults (s'.log.drop s.log.length) + n := by
    have hdrop := lostResults_drop hlog
    omega
  refine ⟨hlog, ?_⟩
  rw [hlive, credit_eq_given, hn, hm, BitVec.ofNat_add]
  abel

theorem same_live (s : Shim) : s.log <+: s.log ∧
    s.liveRefs = s.liveRefs + BitVec.ofInt 32 (given (s.log.drop s.log.length)) := by
  rw [List.drop_length]
  exact ⟨List.prefix_refl _, (BitVec.add_zero _).symm⟩

/-- The decoder serializes a ref, which makes no other, and keeps it open. -/
theorem decodeFromJsValue_live {answer : Option T} (hs : Balanced base s h)
    (hrun : decodeFromJsValue (script fuel) answer r s es = some (d, s', rest)) :
    s.log <+: s'.log ∧
      s'.liveRefs = s.liveRefs + BitVec.ofInt 32 (given (s'.log.drop s.log.length)) := by
  unfold decodeFromJsValue at hrun
  split at hrun
  · obtain ⟨-, rfl, -⟩ := Recorded.pure_eq_some.mp hrun
    exact same_live s'
  · rename_i ref kind
    obtain ⟨r₁, s₁, es₁, hjson, hpure⟩ := Recorded.bind_eq_some.mp hrun
    obtain ⟨-, rfl, -⟩ := Recorded.pure_eq_some.mp hpure
    obtain ⟨hlost, hnone⟩ := kmpjsRefToJson_ref (script_inside fuel) hjson
    have hlive := call_live (n := 0) (m := 0)
      (fun _ => kmpjsRefToJson_hands (script_hands fuel) ref) hjson hs hlost
      (by rw [hnone]; rfl)
    exact ⟨hlive.1, hlive.2.trans (BitVec.add_zero _)⟩
  · obtain ⟨-, rfl, -⟩ := Recorded.pure_eq_some.mp hrun
    exact same_live s'

open Classical in
/-- The refs that an evaluation leaves to nobody: that of a result left pending, and the
arguments that `js_kmp_host` could not give back though host code had not given them away. -/
noncomputable def orphans (script : M Answer) (s : Shim) (es : List Event) (log : List Moment) : ℕ :=
  (if LeftPending script s es then 1 else 0) + unreturned log

/-- `evaluateAs` leaves `live_refs` to host code exactly if it leaves no ref to nobody; the
count is one of 32 bits. Between the calls nothing is held; inside a call `h` is what the
calls under way hold. -/
theorem evaluateAs_leaves_refs_iff {T : Type} {r : Decoded T} {answer : Option T}
    (hs : Balanced base s h)
    (hrun : evaluateAs (script fuel) answer receiver s es = some (r, s', rest)) :
    LeavesRefs s s' ↔ 2 ^ 32 ∣ orphans (script fuel) s es (s'.log.drop s.log.length) := by
  obtain ⟨r₁, s₁, es₁, heval, hrest⟩ := Recorded.bind_eq_some.mp hrun
  have hhands (base : Base) : Hands (Balanced base) 0 (kmpjsEval (script fuel) false) resultRef :=
    kmpjsEval_hands (script_hands fuel) false
  have hs₁ := (call_span hhands heval hs).1
  have hdecode : s₁.log <+: s'.log ∧
      s'.liveRefs = s₁.liveRefs + BitVec.ofInt 32 (given (s'.log.drop s₁.log.length)) := by
    cases hdrops : receiver.drops with
    | true =>
      simp only [hdrops] at hrest
      obtain ⟨-, rfl, -⟩ := Recorded.pure_eq_some.mp hrest
      exact same_live s'
    | false =>
      simp only [hdrops] at hrest
      exact decodeFromJsValue_live hs₁ hrest
  have hcount : (resultRef r₁).2.1 = BitVec.ofNat 32 (refsOut r₁) := by
    rw [resultRef_eq]
    exact resultCount_eq r₁
  obtain ⟨hleft, hsettled⟩ := kmpjsEval_ref (script_inside fuel) heval
  have hsum (m : ℕ) (hlost : lostResults s₁.log + refsOut r₁ = lostResults s.log + m) :
      LeavesRefs s s' ↔ 2 ^ 32 ∣ m + unreturned (s'.log.drop s.log.length) := by
    obtain ⟨hlog, hlive⟩ := call_live hhands heval hs hlost hcount
    have hall : s'.liveRefs = s.liveRefs + BitVec.ofInt 32 (hosted (s'.log.drop s.log.length)) +
        BitVec.ofNat 32 (m + unreturned (s'.log.drop s.log.length)) := by
      have hgiven := given_drop hlog hdecode.1
      rw [given_eq (s'.log.drop s.log.length)] at hgiven
      have hbits := congrArg (BitVec.ofInt 32) hgiven
      rw [BitVec.ofInt_add, BitVec.ofInt_add, BitVec.ofInt_natCast] at hbits
      rw [hdecode.2, hlive, BitVec.ofNat_add, add_right_comm, add_assoc s.liveRefs, ← hbits]
      abel
    rw [LeavesRefs, hall, ← ofNat_eq_zero_iff]
    exact add_eq_left
  by_cases hpending : LeftPending (script fuel) s es
  · rw [orphans, if_pos hpending]
    exact hsum 1 (hleft hpending)
  · rw [orphans, if_neg hpending]
    exact hsum 0 (hsettled hpending)

/-- The script's value is a promise that nothing settles. `JSON.stringify` gives it a text. -/
def pendingEvents : List Event :=
  [.answer (.value (.object 7 .promise)), .answer (.value (.string [])), .answer .done]

/-- The promise is fulfilled by then. -/
def fulfilledEvents : List Event :=
  [.act (.fulfill 7 (.bool true)), .answer (.value (.object 7 .promise))]

theorem fresh_reachable : Reachable everyCallback fresh := reachable_of_exec [] rfl

theorem evaluateAs_leaves_refs_iff_fulfilled :
    ∃ s', evaluateAs (script 2) (some ()) .engine fresh fulfilledEvents = some (.value (), s', []) ∧
      LeavesRefs fresh s' := by
  have hrun : (evaluateAs (script 2) (some ()) .engine fresh fulfilledEvents).map
      (fun x => (x.1, x.2.2, unreturned (x.2.1.log.drop fresh.log.length))) =
        some (.value (), [], 0) := by decide +kernel
  obtain ⟨⟨r, s', rest⟩, hrun, hpair⟩ := Option.map_eq_some_iff.mp hrun
  simp only [Prod.mk.injEq] at hpair
  obtain ⟨rfl, rfl, hunreturned⟩ := hpair
  obtain ⟨ctor, hs⟩ := fresh_reachable.balanced
  refine ⟨s', hrun, (evaluateAs_leaves_refs_iff hs hrun).mpr ?_⟩
  have hsettled : PromiseState.fulfilled (.bool true) ≠ .pending := by decide
  have hleft : ¬ LeftPending (script 2) fresh fulfilledEvents :=
    not_leftPending (o := .value (.object 7 .promise) false) rfl hsettled
  rw [orphans, if_neg hleft, hunreturned]
  exact dvd_zero _

/-- The ref of the pending promise stays open. -/
theorem pending_result_leaks :
    ¬ ∀ (s s' : Shim) (answer : Option Unit) (receiver : Receiver) (r : Decoded Unit)
      (fuel : ℕ) (es rest : List Event), Reachable everyCallback s →
      evaluateAs (script fuel) answer receiver s es = some (r, s', rest) → LeavesRefs s s' := by
  intro h
  have hrun : (evaluateAs (script 2) (some ()) .engine fresh pendingEvents).map
      (fun x => (x.1, x.2.2, decide (LeavesRefs fresh x.2.1))) = some (.value (), [], false) := by
    decide +kernel
  obtain ⟨⟨r, s', rest⟩, hrun, hpair⟩ := Option.map_eq_some_iff.mp hrun
  have hleaves := h fresh s' _ _ _ _ _ _ fresh_reachable hrun
  simp [hleaves] at hpair

end QuickJsKmp.Ledger
