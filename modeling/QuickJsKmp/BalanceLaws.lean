import QuickJsKmp.Balance

/-!
# Every function keeps the balance

One lemma for each function of the model: what it takes from its caller and
what it gives back. The functions that run script do so under the assumption
that script takes and gives nothing; `script_hands` discharges it by
induction on the depth.
-/

namespace QuickJsKmp.Ledger

open Recorded (Prog Hands)

variable {base : Base}

-- ---------------------------------------------------------------------------
-- Calls into the engine
-- ---------------------------------------------------------------------------

theorem own_hands : Hands (Balanced base) 0 (own o) fun _ => holds o := by
  refine .modify fun s F hs => ?_
  rw [zero_add] at hs
  exact hs.own o

theorem free_hands : Hands (Balanced base) (holds o) (free o) fun _ => 0 := by
  refine .modify fun s F hs => ?_
  rw [zero_add]
  exact hs.give

theorem give_hands : Hands (Balanced base) (holds o) (give o) fun _ => 0 := free_hands

theorem pend_hands : Hands (Balanced base) 0 (pend exc) fun _ => 0 :=
  .modify fun _ _ hs => hs.side _ _ _ _

theorem throwTypeError_hands : Hands (Balanced base) 0 throwTypeError fun _ => 0 := pend_hands

theorem freeAny_hands (v : Option JSValue) :
    Hands (Balanced base) (holdsAny v) (freeAny v) fun _ => 0 := by
  cases v with
  | none => exact .pure rfl
  | some v => exact free_hands

def holdsAll : List JSValue → Hand
  | [] => 0
  | v :: vs => holds (.value v) + holdsAll vs

theorem freeAll_hands (vs : List JSValue) :
    Hands (Balanced base) (holdsAll vs) (freeAll vs) fun _ => 0 := by
  induction vs with
  | nil => exact .pure rfl
  | cons v vs ih =>
    refine free_hands.bind (holdsAll vs) rfl fun _ => ?_
    rw [zero_add]
    exact ih

theorem primitive_hands : Hands (Balanced base) 0 primitive fun _ => 0 := by
  refine .next fun e s a s' F he hs => ?_
  cases e with
  | answer b =>
    cases he
    exact hs
  | _ => cases he

section Answers

variable {call : M Answer} (hcall : Hands (Balanced base) 0 call fun _ => 0)

include hcall

theorem value_hands : Hands (Balanced base) 0 (value call) holdsAny := by
  refine hcall.seq fun a => ?_
  cases a with
  | value v => exact own_hands.seq fun _ => .pure rfl
  | threw exc => exact pend_hands.seq fun _ => .pure rfl
  | _ => exact .fail

theorem code_hands : Hands (Balanced base) 0 (code call) holdsCode := by
  refine hcall.seq fun a => ?_
  cases a with
  | code c => exact own_hands.seq fun _ => .pure rfl
  | threw exc => exact pend_hands.seq fun _ => .pure rfl
  | _ => exact .fail

theorem status_hands : Hands (Balanced base) 0 (status call) fun _ => 0 := by
  refine hcall.seq fun a => ?_
  cases a with
  | done => exact .pure rfl
  | threw exc => exact pend_hands.seq fun _ => .pure rfl
  | _ => exact .fail

end Answers

theorem getException_hands : Hands (Balanced base) 0 getException fun exc => holds
    (.value exc) := by
  intro F s es exc s' rest hrun hs
  cases hrun
  rw [zero_add] at hs
  exact (hs.side s.jobs s.oom none s.rows).own _

theorem jsThrow_hands : Hands (Balanced base) (holds (.value exc)) (jsThrow exc) fun _ => 0 :=
  give_hands.seq fun _ => pend_hands

theorem dropException_hands : Hands (Balanced base) 0 dropException fun _ => 0 :=
  getException_hands.seq fun _ => free_hands

-- ---------------------------------------------------------------------------
-- Values to the host
-- ---------------------------------------------------------------------------

theorem copyJsString_hands : Hands (Balanced base) 0 copyJsString fun _ => 0 :=
  status_hands primitive_hands

theorem copyAny_hands (s : Option JSValue) : Hands (Balanced base) 0 (copyAny s) fun _ => 0 := by
  cases s with
  | none => exact .pure rfl
  | some v => exact copyJsString_hands

theorem copyIfString_hands (s : JSValue) : Hands (Balanced base) 0 (copyIfString s) fun _ => 0 :=
  .ite (fun _ => copyJsString_hands) fun _ => .pure rfl

theorem dropUnless_hands (ok : Bool) : Hands (Balanced base) 0 (dropUnless ok) fun _ => 0 :=
  .ite (fun _ => .pure rfl) fun _ => dropException_hands

theorem isArray_hands (v : JSValue) : Hands (Balanced base) 0 (isArray v) fun _ => 0 := by
  unfold isArray
  split
  · exact .pure rfl
  · exact throwTypeError_hands.seq fun _ => .pure rfl
  · exact throwTypeError_hands.seq fun _ => .pure rfl
  · exact .pure rfl

theorem objectKind_hands (v : JSValue) : Hands (Balanced base) 0 (objectKind v) fun _ => 0 :=
  (isArray_hands v).seq fun _ => .pure rfl

theorem slotNew_hands (hv : (Held.value v).counted = true) :
    Hands (Balanced base) (holds (.value v)) (slotNew v) fun ref =>
      if ref = 0 then 0 else aRef := by
  intro F s es ref s' rest hrun hs
  cases hrun
  exact hs.slotNew hv

theorem refToOut_hands (hv : (Held.value v).counted = true) :
    Hands (Balanced base) 0 (refToOut v) tagRefAny := by
  refine (objectKind_hands v).seq fun kind =>
    own_hands.seq fun _ => (slotNew_hands hv).seq fun ref => ?_
  by_cases href : ref = 0
  · rw [if_pos href, if_pos href]
    exact throwTypeError_hands.seq fun _ => .pure rfl
  · rw [if_neg href, if_neg href]
    exact .pure rfl

theorem textToOut_hands (htag : tagRef tag = 0) :
    Hands (Balanced base) 0 (textToOut tag) tagRefAny := by
  refine copyJsString_hands.seq fun ok => .pure ?_
  cases ok with
  | true => exact htag.symm
  | false => rfl

theorem binaryToOut_hands : Hands (Balanced base) 0 binaryToOut tagRefAny := by
  refine primitive_hands.seq fun a => ?_
  cases a with
  | done => exact .pure rfl
  | threw exc => exact pend_hands.seq fun _ => .pure rfl
  | value buffer =>
    refine own_hands.seq fun _ => (status_hands primitive_hands).pass fun ok => ?_
    refine free_hands.seq fun _ => .pure ?_
    cases ok <;> rfl
  | _ => exact .fail

section Script

variable {script : M Answer} (hscript : Hands (Balanced base) 0 script fun _ => 0)

include hscript

theorem jsonToOut_hands : Hands (Balanced base) 0 (jsonToOut script) tagRefAny := by
  refine (value_hands hscript).seq fun json => ?_
  split
  · exact .pure rfl
  · exact .pure rfl
  · rename_i v hv
    refine (textToOut_hands rfl).bind_zero fun tag => ?_
    refine free_hands.bind (tagRefAny tag) (add_comm _ _) fun _ => ?_
    rw [zero_add]
    exact .pure rfl

theorem valueToOut_hands (v : JSValue) (refObjects : Bool) :
    Hands (Balanced base) 0 (valueToOut script v refObjects) tagRefAny := by
  cases v with
  | undefined => exact .pure rfl
  | null => exact .pure rfl
  | bool b => exact .pure rfl
  | number bits => exact .pure rfl
  | string utf8 => exact textToOut_hands rfl
  | bigInt text => exact textToOut_hands rfl
  | symbol ptr => exact .ite (fun _ => refToOut_hands rfl) fun _ => jsonToOut_hands hscript
  | object ptr cls =>
    refine .ite (fun _ => refToOut_hands rfl) fun _ => .ite (fun _ => .pure rfl) fun _ => ?_
    split
    · exact binaryToOut_hands
    · exact jsonToOut_hands hscript

theorem messageToOut_hands : Hands (Balanced base) 0 (messageToOut script) fun _ => 0 := by
  refine (value_hands hscript).seq fun s => (copyAny_hands s).pass fun ok => ?_
  refine (dropUnless_hands ok).pass fun _ => ?_
  exact freeAny_hands s

theorem stackToOut_hands : Hands (Balanced base) 0 (stackToOut script) fun _ => 0 := by
  refine (value_hands hscript).seq fun s => ?_
  cases s with
  | none => exact dropException_hands
  | some v =>
    refine (copyIfString_hands v).pass fun _ => ?_
    exact free_hands

theorem stackOf_hands (exc : JSValue) : Hands (Balanced base) 0 (stackOf script exc) fun _ => 0 :=
  .ite (fun _ => stackToOut_hands hscript) fun _ => .pure rfl

theorem errorToOut_hands (exc : JSValue) :
    Hands (Balanced base) (holds (.value exc)) (errorToOut script exc) fun _ => 0 := by
  refine (messageToOut_hands hscript).pass fun _ => ?_
  refine (stackOf_hands hscript exc).pass fun _ => ?_
  exact free_hands

omit hscript in
/-- What a taken exception leaves in hand. -/
def holdsException (exc : JSValue) (oom : Bool) : Hand := if oom then 0 else holds (.value exc)

omit hscript in
theorem takeException_hands :
    Hands (Balanced base) 0 takeException fun r => holdsException r.1 r.2 := by
  refine Hands.get.seq fun s => getException_hands.seq fun exc => ?_
  have hside : Hands (Balanced base) 0 (Recorded.modify fun s : Shim => { s with oom := false } : M Unit)
      fun _ => 0 :=
    .modify fun _ _ hs => hs.side _ _ _ _
  refine hside.pass fun _ => ?_
  refine .pure ?_
  by_cases hoom : exc = .null ∧ s.oom = true
  · simp [holdsException, hoom, holds, refs, Held.counted]
  · simp [holdsException, hoom]

theorem describe_hands (exc : JSValue) (oom : Bool) :
    Hands (Balanced base) (holdsException exc oom) (describe script exc oom) fun _ => 0 := by
  cases oom with
  | true => exact .pure rfl
  | false => exact errorToOut_hands hscript exc

theorem exceptionToOut_hands : Hands (Balanced base) 0 (exceptionToOut script) fun _ => 0 :=
  takeException_hands.seq fun r => describe_hands hscript r.1 r.2

end Script

-- ---------------------------------------------------------------------------
-- Values from the host
-- ---------------------------------------------------------------------------

theorem throwMessage_hands : Hands (Balanced base) 0 throwMessage fun _ => 0 := by
  refine (value_hands primitive_hands).seq fun err => ?_
  cases err with
  | none => exact .pure rfl
  | some err =>
    refine (value_hands primitive_hands).bind_zero fun message => ?_
    refine (freeAny_hands message).bind (holds (.value err)) rfl fun _ => ?_
    rw [zero_add]
    refine (status_hands primitive_hands).pass fun ok => ?_
    exact .ite (fun _ => jsThrow_hands) fun _ => free_hands

theorem valueFromHost_hands (v : HostValue) :
    Hands (Balanced base) 0 (valueFromHost v) holdsAny := by
  cases v with
  | undefined => exact .pure rfl
  | null => exact .pure rfl
  | bool b => exact .pure rfl
  | number bits => exact .pure rfl
  | string utf8 => exact value_hands primitive_hands
  | object json =>
    cases json with
    | none => exact .pure rfl
    | some text => exact value_hands primitive_hands
  | ref ref =>
    refine Hands.get.seq fun s => ?_
    split
    · exact throwTypeError_hands.seq fun _ => .pure rfl
    · exact own_hands.seq fun _ => .pure rfl
  | bigInt text =>
    refine (value_hands primitive_hands).seq fun text => ?_
    cases text with
    | none => exact .pure rfl
    | some text =>
      refine (value_hands primitive_hands).bind_zero fun r => ?_
      refine free_hands.bind (holdsAny r) (add_comm _ _) fun _ => ?_
      rw [zero_add]
      exact .pure rfl
  | binary bytes => exact value_hands primitive_hands
  | exception message => exact throwMessage_hands.seq fun _ => .pure rfl

-- ---------------------------------------------------------------------------
-- Draining and reporting
-- ---------------------------------------------------------------------------

/-- A change to what no part of the balance is about. -/
theorem side_hands (j : Shim → ℕ) (o : Shim → Bool) (e : Shim → Option JSValue)
    (r : Shim → List (Name × ModuleKind)) :
    Hands (Balanced base) 0
      (Recorded.modify fun s : Shim => { s with jobs := j s, oom := o s, pending := e s, rows := r s } : M Unit)
      fun _ => 0 :=
  .modify fun _ _ hs => hs.side _ _ _ _

section Script

variable {script : M Answer} (hscript : Hands (Balanced base) 0 script fun _ => 0)

include hscript

theorem executePendingJob_hands : Hands (Balanced base) 0 (executePendingJob script) fun _ => 0 :=
  (side_hands (fun s => s.jobs - 1) Shim.oom Shim.pending Shim.rows).seq fun _ =>
    status_hands hscript

theorem drainLoop_hands (fuel : ℕ) :
    Hands (Balanced base) 0 (drainLoop script fuel) fun _ => 0 := by
  induction fuel with
  | zero => exact .fail
  | succ fuel ih =>
    refine Hands.get.seq fun s => .ite
      (fun _ => throwTypeError_hands.seq fun _ => .pure rfl) fun _ => ?_
    refine .ite (fun _ => .pure rfl) fun _ => (executePendingJob_hands hscript).seq fun ok => ?_
    exact .ite (fun _ => ih) fun _ => .pure rfl

theorem discardLoop_hands (fuel : ℕ) :
    Hands (Balanced base) 0 (discardLoop script fuel) fun _ => 0 := by
  induction fuel with
  | zero => exact .fail
  | succ fuel ih =>
    refine Hands.get.seq fun s => .ite (fun _ => .pure rfl) fun _ => ?_
    exact (executePendingJob_hands hscript).seq fun _ => dropException_hands.seq fun _ => ih

theorem discardJobs_hands : Hands (Balanced base) cleansUp
    (discardJobs script) fun _ => holdsRun := by
  refine (Hands.bounded (discardLoop_hands hscript)).pass fun _ => ?_
  exact .modify fun _ _ hs => hs.cleanedUp

theorem drainJobs_hands : Hands (Balanced base) holdsRun (drainJobs script) fun _ => holdsRun := by
  refine (Hands.bounded (drainLoop_hands hscript)).pass fun failed => ?_
  refine .ite (fun _ => ?_) fun _ => .pure rfl
  have hnote : Hands (Balanced base) holdsRun (note .drainFailed) fun _ => cleansUp :=
    .modify fun _ _ hs => hs.drainFailed
  refine hnote.seq fun _ => getException_hands.bind_zero fun exc => ?_
  refine (discardJobs_hands hscript).bind (holds (.value exc)) (add_comm _ _) fun _ => ?_
  refine jsThrow_hands.bind holdsRun (add_comm _ _) fun _ => .pure ?_
  rw [zero_add]

omit hscript in
theorem takeLast_hands : Hands (Balanced base) holdsRun takeLast fun r =>
    match r with
    | some (p, reason) => holds (.value reason) + telling p + holdsRun
    | none => holdsRun := by
  intro F s es r s' rest hrun hs
  unfold takeLast at hrun
  split at hrun
  · rename_i hlast
    cases hrun
    exact hs.takeLast hlast
  · cases hrun
    exact hs

theorem callback_hands (p : ℕ) :
    Hands (Balanced base) (telling p) (callback script p) fun _ => 0 := by
  refine Hands.get.seq fun s => .ite (fun _ => ?_) fun _ => ?_
  · have hreport : Hands (Balanced base) (telling p)
        (Recorded.modify fun s : Shim => s.note (.reported p (s.promise p).isHandled) : M Unit)
        fun _ => 0 := by
      refine .modify fun s F hs => ?_
      rw [zero_add]
      exact hs.report
    refine hreport.seq fun _ => hscript.seq fun a => ?_
    split
    · exact .pure rfl
    · exact .fail
  · intro F s es u s' rest hrun hs
    obtain ⟨-, rfl, rfl⟩ := Recorded.pure_eq_some.mp hrun
    rw [zero_add]
    exact hs.untold

theorem reportLoop_hands (fuel : ℕ) :
    Hands (Balanced base) holdsRun (reportLoop script fuel) fun _ => holdsRun := by
  induction fuel with
  | zero => exact .fail
  | succ fuel ih =>
    refine takeLast_hands.seq fun r => ?_
    cases r with
    | none => exact .pure rfl
    | some entry =>
      obtain ⟨p, reason⟩ := entry
      refine (errorToOut_hands hscript reason).bind (telling p + holdsRun)
        (add_assoc _ _ _) fun _ => ?_
      rw [zero_add]
      refine (callback_hands hscript p).bind holdsRun rfl fun _ => ?_
      rw [zero_add]
      exact ih

theorem reportRejections_hands :
    Hands (Balanced base) holdsRun (reportRejections script) fun _ => holdsRun :=
  .bounded (reportLoop_hands hscript)

-- ---------------------------------------------------------------------------
-- finish
-- ---------------------------------------------------------------------------

omit hscript in
theorem runBegin_hands : Hands (Balanced base) 0 runBegin runOf := by
  intro F s es outermost s' rest hrun hs
  cases hrun
  rw [zero_add] at hs
  cases hst : s.state with
  | idle => exact hs.runBegin hst
  | running =>
    have hsame : Balanced base { s with state := .running } (0 + F) := by
      rw [← hst, zero_add]
      exact hs
    exact hsame
  | interrupted =>
    have hsame : Balanced base { s with state := .interrupted } (0 + F) := by
      rw [← hst, zero_add]
      exact hs
    exact hsame

omit hscript in
theorem runEnd_hands (outermost : Bool) :
    Hands (Balanced base) (runOf outermost) (runEnd outermost) fun _ => 0 := by
  refine .modify fun s F hs => ?_
  rw [zero_add]
  cases outermost with
  | true => exact hs.runEnd
  | false =>
    have hsame : Balanced base s (0 + F) := hs
    rwa [zero_add] at hsame

omit hscript in
def outcomeHand : Outcome → Hand
  | .value v _ => holds (.value v)
  | .failed exc oom => holdsException exc oom

omit hscript in
theorem failWith_hands : Hands (Balanced base) 0 failWith outcomeHand :=
  takeException_hands.seq fun _ => .pure rfl

omit hscript in
theorem ownResult_hands (v : Option JSValue) (refObjects : Bool) :
    Hands (Balanced base) (holdsAny v) (ownResult v refObjects) outcomeHand := by
  cases v with
  | some v => exact .pure rfl
  | none => exact failWith_hands

theorem drained_hands (o : Outcome) :
    Hands (Balanced base) (outcomeHand o + holdsRun) (drained script o) fun o' =>
      outcomeHand o' + holdsRun := by
  refine (drainJobs_hands hscript).bind (outcomeHand o) (add_comm _ _) fun failed => ?_
  refine .ite (fun _ => ?_) fun _ => .pure (add_comm _ _)
  cases o with
  | failed exc oom => exact dropException_hands.pass fun _ => .pure (add_comm _ _)
  | value v refObjects =>
    refine failWith_hands.bind_zero fun o' => ?_
    refine free_hands.bind (outcomeHand o' + holdsRun) ?_ fun _ => .pure (zero_add _)
    show outcomeHand o' + (holdsRun + holds (.value v)) = _
    abel

omit hscript in
/-- The state of the promise was read right before. -/
theorem unwrapRejected_hands (hp : (s.promise p).state = .rejected reason)
    (hrun : unwrapRejected p v reason s es = some (o, s', rest))
    (hs : Balanced base s (holds (.value v) + F)) : Balanced base s' (outcomeHand o + F) := by
  have htail : Hands (Balanced base) (holds (.value v) + holds (.value reason))
      (free (.value v) >>= fun _ => jsThrow reason >>= fun _ => failWith) outcomeHand := by
    refine free_hands.bind (holds (.value reason)) rfl fun _ => ?_
    rw [zero_add]
    exact jsThrow_hands.seq fun _ => failWith_hands
  have hmid := hs.unwrap hp
  rw [← add_assoc, add_comm (holds (.value reason))] at hmid
  exact htail.elim hrun hmid

theorem unwrapFulfilled_hands (v result : JSValue) (refObjects module : Bool) :
    Hands (Balanced base) (holds (.value v)) (unwrapFulfilled script v result refObjects module)
      outcomeHand := by
  refine .ite (fun _ => ?_) fun _ => ?_
  · refine (value_hands hscript).bind_zero fun ns => ?_
    refine free_hands.bind (holdsAny ns) (add_comm _ _) fun _ => ?_
    rw [zero_add]
    exact ownResult_hands ns refObjects
  · refine own_hands.bind_zero fun _ => ?_
    exact free_hands.bind (holds (.value result)) (add_comm _ _) fun _ => .pure (zero_add _)

theorem unwrapPromise_hands (v : JSValue) (refObjects module : Bool) :
    Hands (Balanced base) (holds (.value v))
      (unwrapPromise script v refObjects module) outcomeHand := by
  unfold unwrapPromise
  split
  · rename_i p
    intro F s es o s' rest hrun hs
    rw [Recorded.get_bind] at hrun
    cases hst : (s.promise p).state with
    | fulfilled result =>
      simp only [hst] at hrun
      exact (unwrapFulfilled_hands hscript _ _ _ _).elim hrun hs
    | rejected reason =>
      simp only [hst] at hrun
      exact unwrapRejected_hands hst hrun hs
    | pending =>
      simp only [hst] at hrun
      have hpure : Hands (Balanced base) (holds (.value (.object p .promise)))
          (pure (.value (.object p .promise) true) : M Outcome) outcomeHand := .pure rfl
      exact hpure.elim hrun hs
  · exact .pure rfl

theorem unwrapped_hands (unwrap module : Bool) (o : Outcome) :
    Hands (Balanced base) (outcomeHand o) (unwrapped script unwrap module o) outcomeHand := by
  cases o with
  | value v refObjects => exact .ite (fun _ => unwrapPromise_hands hscript v refObjects module) fun _ => .pure rfl
  | failed exc oom => exact .pure rfl

omit hscript in
/-- The ref is not the caller's any more, and nobody will release it. -/
theorem loseResult_hands (tag : Tag) :
    Hands (Balanced base) (tagRef tag) (loseResult tag) fun _ => 0 := by
  cases tag with
  | ref ref kind =>
    refine .modify fun s F hs => ?_
    rw [zero_add]
    exact Balanced.note (n := .resultLost ref) hs ⟨⟨rfl, nofun⟩, nofun⟩ trivial nofun nofun
  | _ => exact .pure rfl

theorem lateWork_hands (tag : Tag) :
    Hands (Balanced base) (tagRef tag + holdsRun) (lateWork script tag) fun r =>
      resultRef r + holdsRun := by
  refine (drainJobs_hands hscript).bind (tagRef tag) (add_comm _ _) fun failed => ?_
  refine .ite (fun _ => ?_) fun _ => ?_
  · refine (loseResult_hands tag).bind holdsRun (add_comm _ _) fun _ => ?_
    rw [zero_add]
    exact (exceptionToOut_hands hscript).pass fun _ => .pure (zero_add _).symm
  · exact (reportRejections_hands hscript).bind (tagRef tag) rfl fun _ => .pure (add_comm _ _)

/-- The run is the caller's. -/
theorem convert_hands (outermost : Bool) (v : JSValue) (refObjects : Bool) :
    Hands (Balanced base) (runOf outermost) (convert script outermost v refObjects)
      fun r => resultRef r + runOf outermost := by
  refine (valueToOut_hands hscript v refObjects).bind_zero fun tag => ?_
  cases tag with
  | none =>
    refine (exceptionToOut_hands hscript).bind_zero fun _ => .pure ?_
    rw [zero_add]
    rfl
  | some tag =>
    refine Hands.get.seq fun s => .ite (fun hc => ?_) fun _ => .pure rfl
    obtain ⟨rfl, -⟩ : outermost = true ∧ _ := hc
    exact lateWork_hands hscript tag

theorem writeOut_hands (outermost : Bool) (o : Outcome) :
    Hands (Balanced base) (outcomeHand o + runOf outermost) (writeOut script outermost o)
      fun r => resultRef r + runOf outermost := by
  cases o with
  | failed exc oom => exact (describe_hands hscript exc oom).bind (runOf outermost) rfl fun _ => .pure rfl
  | value v refObjects =>
    refine (convert_hands hscript outermost v refObjects).bind (holds (.value v))
      (add_comm _ _) fun r => ?_
    exact free_hands.bind (resultRef r + runOf outermost) (add_comm _ _) fun _ => .pure (zero_add _)

theorem drainOutermost_hands (outermost : Bool) (o : Outcome) :
    Hands (Balanced base) (outcomeHand o + runOf outermost) (drainOutermost script outermost o)
      fun o' => outcomeHand o' + runOf outermost := by
  cases outermost with
  | true => exact drained_hands hscript o
  | false => exact .pure rfl

theorem reportOutermost_hands (outermost : Bool) :
    Hands (Balanced base) (runOf outermost) (reportOutermost script outermost) fun _ =>
      runOf outermost := by
  cases outermost with
  | true => exact reportRejections_hands hscript
  | false => exact .pure rfl

theorem finish_hands (outermost : Bool) (v : Option JSValue) (refObjects unwrap module : Bool) :
    Hands (Balanced base) (holdsAny v + runOf outermost)
      (finish script outermost v refObjects unwrap module) resultRef := by
  refine (ownResult_hands v refObjects).bind (runOf outermost) rfl fun o => ?_
  refine (drainOutermost_hands hscript outermost o).seq fun o => ?_
  refine (unwrapped_hands hscript unwrap module o).bind (runOf outermost) rfl fun o => ?_
  refine (reportOutermost_hands hscript outermost).bind (outcomeHand o) (add_comm _ _) fun _ => ?_
  rw [add_comm]
  refine (writeOut_hands hscript outermost o).seq fun r => ?_
  exact (runEnd_hands outermost).bind (resultRef r) (add_comm _ _) fun _ => .pure (zero_add _)

end Script

end QuickJsKmp.Ledger
