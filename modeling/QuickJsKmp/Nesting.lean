import Mathlib.Algebra.Order.PUnit
import Mathlib.Algebra.Group.PUnit
import QuickJsKmp.Accounts

/-!
# Inside a run

A call that finds the engine running neither drains nor reports, and it leaves the
run to the outermost call. So it cannot lose its result to a late drain: only the
outermost call can.
-/

namespace QuickJsKmp.Ledger

open Recorded (Prog Hands)

-- ---------------------------------------------------------------------------
-- Programs inside a run
-- ---------------------------------------------------------------------------

def Note.losesResult : Note → Bool
  | .resultLost _ => true
  | _ => false

/-- The results lost to late drains. -/
def lostResults (log : List Moment) : ℕ := (notes log).countP Note.losesResult

theorem lostResults_append (log new : List Moment) :
    lostResults (log ++ new) = lostResults log + lostResults new := by
  simp [lostResults, notes]

/-- A run is under way, and so many results were lost. Nothing is held. -/
def Running (n : ℕ) (s : Shim) (_ : Unit) : Prop := s.state ≠ .idle ∧ lostResults s.log = n

/-- Begun in a run, the program leaves the run as it is and loses no result. -/
def Inside (m : M α) : Prop := ∀ n, Hands (Running n) () m fun _ => ()

/-- Nothing of what `Running` is about changes. -/
def Same (s s' : Shim) : Prop := s'.state = s.state ∧ lostResults s'.log = lostResults s.log

theorem Same.refl (s : Shim) : Same s s := ⟨rfl, rfl⟩

theorem Same.trans {s s' s'' : Shim} (h : Same s s') (h' : Same s' s'') : Same s s'' :=
  ⟨h'.1.trans h.1, h'.2.trans h.2⟩

theorem Running.same (hs : Running n s u) (h : Same s s') : Running n s' u' :=
  ⟨h.1 ▸ hs.1, h.2.trans hs.2⟩

/-- An interrupted run is still a run. -/
theorem Running.interrupt (hs : Running n s u) :
    Running n { s with state := kmpjsInterrupt s.state } u' := by
  refine ⟨?_, hs.2⟩
  have hstate := hs.1
  cases hst : s.state <;> simp [kmpjsInterrupt, hst] at hstate ⊢

namespace Inside

theorem elim {m : M α} (hm : Inside m) (hrun : m s es = some (a, s', rest)) (hs : s.state ≠ .idle) :
    s'.state ≠ .idle ∧ lostResults s'.log = lostResults s.log :=
  (hm (lostResults s.log)).elim_zero hrun ⟨hs, rfl⟩

theorem pure (a : α) : Inside (Pure.pure a : M α) := fun _ => .pure rfl

theorem fail : Inside (Recorded.fail : M α) := fun _ => .fail

theorem get : Inside (Recorded.get : M Shim) := fun _ => .get

theorem bind {m : M α} {k : α → M β} (hm : Inside m) (hk : ∀ a, Inside (k a)) : Inside (m >>= k) :=
  fun n => (hm n).seq fun a => hk a n

theorem ite {c : Prop} [Decidable c] {m m' : M α} (hm : Inside m) (hm' : Inside m') :
    Inside (if c then m else m') :=
  fun n => .ite (fun _ => hm n) fun _ => hm' n

/-- A step that leaves the state of the run alone and loses no result. -/
theorem step {m : M α} (h : ∀ s es a s' rest, m s es = some (a, s', rest) → Same s s') : Inside m :=
  fun _ _ s es a s' rest hrun hs => hs.same (h s es a s' rest hrun)

theorem modify {f : Shim → Shim} (h : ∀ s, Same s (f s)) : Inside (Recorded.modify f : M Unit) :=
  fun _ => .modify fun s _ hs => hs.same (h s)

theorem next {take : Event → Shim → Option (α × Shim)}
    (h : ∀ e s a s', take e s = some (a, s') → s' = s) : Inside (Recorded.next take) :=
  fun _ => .next fun e s a s' _ he hs => h e s a s' he ▸ hs

theorem bounded {loop : ℕ → M α} (h : ∀ n, Inside (loop n)) : Inside (Recorded.bounded loop) :=
  fun n => .bounded fun k => h k n

end Inside

-- ---------------------------------------------------------------------------
-- Steps of the shim
-- ---------------------------------------------------------------------------

theorem Same.note (s : Shim) (hn : n.losesResult = false) : Same s (s.note n) :=
  ⟨rfl, by simp [Shim.note, lostResults, notes, hn]⟩

theorem Same.own (s : Shim) (o : Held) : Same s (s.own o) := by
  rw [own_eq]
  exact ⟨rfl, rfl⟩

theorem Same.give (s : Shim) (o : Held) : Same s (s.give o) := by
  unfold Shim.give
  split
  · split <;> exact ⟨rfl, rfl⟩
  · exact ⟨rfl, rfl⟩

theorem Same.forgetRejected (s : Shim) (i : ℕ) : Same s (s.forgetRejected i) := by
  unfold Shim.forgetRejected
  split
  · exact ((Same.give s _).trans (Same.give _ _)).trans ⟨rfl, rfl⟩
  · exact .refl s

theorem Same.forgetPromise (s : Shim) (p : ℕ) : Same s (s.forgetPromise p) := by
  unfold Shim.forgetPromise
  split
  · exact .forgetRejected s _
  · exact .refl s

theorem Same.tracker (s : Shim) (p : ℕ) (reason : JSValue) (isHandled : Bool) :
    Same s (s.kmpRejectionTracker p reason isHandled) := by
  unfold Shim.kmpRejectionTracker
  split
  · exact .forgetRejected s _
  · exact .refl s
  · exact .refl s
  · exact ((Same.own s _).trans (Same.own _ _)).trans ⟨rfl, rfl⟩

theorem Same.forgetAll (s : Shim) (n : ℕ) : Same s (s.forgetAll n) := by
  induction n generalizing s with
  | zero => exact .refl s
  | succ n ih =>
    unfold Shim.forgetAll
    split
    · exact ((Same.forgetRejected s _).trans (Same.note _ rfl)).trans (ih _)
    · exact .refl s

theorem Same.slotNew (s : Shim) (v : JSValue) : Same s (s.slotNew v).1 := by
  unfold Shim.slotNew
  simp only
  split
  · exact .give s _
  · exact ⟨rfl, rfl⟩

theorem Same.unref (s : Shim) (ref : Handle) (slot : Slot) : Same s (s.unref ref slot) := by
  unfold Shim.unref
  simp only
  split
  · exact (Same.give s _).trans ⟨rfl, rfl⟩
  · exact ⟨rfl, rfl⟩

theorem Same.refRetain (s : Shim) (ref : Handle) : Same s (s.refRetain ref) := by
  unfold Shim.refRetain
  split
  · exact (show Same s { s with slots := _ } from ⟨rfl, rfl⟩).trans (Same.note _ rfl)
  · exact .refl s

theorem Same.refRelease (s : Shim) (ref : Handle) : Same s (s.refRelease ref) := by
  unfold Shim.refRelease
  split
  · exact (Same.unref s ref _).trans (Same.note _ rfl)
  · exact .refl s

theorem Same.refGiveBack (s : Shim) (ref : Handle) : Same s (s.refGiveBack ref) := by
  unfold Shim.refGiveBack
  split
  · exact .unref s ref _
  · exact .note s rfl

theorem Same.fulfill (s : Shim) (h : s.fulfill p v = some s') : Same s s' := by
  unfold Shim.fulfill at h
  split at h
  · cases h
    exact ⟨rfl, rfl⟩
  · cases h

theorem Same.reject (s : Shim) (h : s.reject p reason = some s') : Same s s' := by
  unfold Shim.reject at h
  split at h
  · cases h
    exact ⟨rfl, rfl⟩
  · cases h
    have hset : Same s (s.setPromise p ⟨.rejected reason, false⟩) := ⟨rfl, rfl⟩
    exact (hset.trans (Same.tracker _ _ _ _)).trans (Same.note _ rfl)
  · cases h

theorem Same.attach (s : Shim) (p : ℕ) : Same s (s.attach p) := by
  unfold Shim.attach
  split
  · exact ((show Same s (s.setPromise p _) from ⟨rfl, rfl⟩).trans (Same.tracker _ _ _ _)).trans
      (Same.note _ rfl)
  · exact ⟨rfl, rfl⟩

-- ---------------------------------------------------------------------------
-- Calls into the engine
-- ---------------------------------------------------------------------------

theorem own_inside (o : Held) : Inside (own o) := .modify fun s => .own s o

theorem free_inside (o : Held) : Inside (free o) := .modify fun s => .give s o

theorem note_inside (hn : n.losesResult = false) : Inside (note n) := .modify fun s => .note s hn

theorem pend_inside (exc : JSValue) : Inside (pend exc) := .modify fun _ => ⟨rfl, rfl⟩

theorem freeAny_inside (v : Option JSValue) : Inside (freeAny v) := by
  cases v with
  | none => exact .pure _
  | some v => exact free_inside _

theorem freeAll_inside (vs : List JSValue) : Inside (freeAll vs) := by
  induction vs with
  | nil => exact .pure _
  | cons v vs ih => exact (free_inside _).bind fun _ => ih

theorem primitive_inside : Inside primitive := by
  refine .next fun e s a s' h => ?_
  cases e with
  | answer b =>
    cases h
    rfl
  | _ => cases h

theorem value_inside {call : M Answer} (hcall : Inside call) : Inside (value call) := by
  refine hcall.bind fun a => ?_
  cases a with
  | value v => exact (own_inside _).bind fun _ => .pure _
  | threw exc => exact (pend_inside exc).bind fun _ => .pure _
  | _ => exact .fail

theorem code_inside {call : M Answer} (hcall : Inside call) : Inside (code call) := by
  refine hcall.bind fun a => ?_
  cases a with
  | code c => exact (own_inside _).bind fun _ => .pure _
  | threw exc => exact (pend_inside exc).bind fun _ => .pure _
  | _ => exact .fail

theorem status_inside {call : M Answer} (hcall : Inside call) : Inside (status call) := by
  refine hcall.bind fun a => ?_
  cases a with
  | done => exact .pure _
  | threw exc => exact (pend_inside exc).bind fun _ => .pure _
  | _ => exact .fail

theorem getException_inside : Inside getException :=
  .step fun s es exc s' rest hrun => by
    cases hrun
    exact (show Same s { s with pending := none } from ⟨rfl, rfl⟩).trans (.own _ _)

theorem jsThrow_inside (exc : JSValue) : Inside (jsThrow exc) :=
  (free_inside _).bind fun _ => pend_inside exc

theorem dropException_inside : Inside dropException :=
  getException_inside.bind fun _ => free_inside _

-- ---------------------------------------------------------------------------
-- Values
-- ---------------------------------------------------------------------------

theorem copyJsString_inside : Inside copyJsString := status_inside primitive_inside

theorem objectKind_inside (v : JSValue) : Inside (objectKind v) := by
  have harray : Inside (isArray v) := by
    unfold isArray
    split
    · exact .pure _
    · exact (pend_inside _).bind fun _ => .pure _
    · exact (pend_inside _).bind fun _ => .pure _
    · exact .pure _
  exact harray.bind fun _ => .pure _

theorem slotNew_inside (v : JSValue) : Inside (slotNew v) :=
  .step fun s es ref s' rest hrun => by
    cases hrun
    exact .slotNew s v

theorem refToOut_inside (v : JSValue) : Inside (refToOut v) := by
  refine (objectKind_inside v).bind fun kind => (own_inside _).bind fun _ => ?_
  refine (slotNew_inside v).bind fun ref => .ite ?_ (.pure _)
  exact (pend_inside _).bind fun _ => .pure _

theorem textToOut_inside (tag : Tag) : Inside (textToOut tag) :=
  copyJsString_inside.bind fun _ => .pure _

theorem binaryToOut_inside : Inside binaryToOut := by
  refine primitive_inside.bind fun a => ?_
  cases a with
  | done => exact .pure _
  | threw exc => exact (pend_inside exc).bind fun _ => .pure _
  | value buffer =>
    refine (own_inside _).bind fun _ => (status_inside primitive_inside).bind fun ok => ?_
    exact (free_inside _).bind fun _ => .pure _
  | _ => exact .fail

theorem throwMessage_inside : Inside throwMessage := by
  refine (value_inside primitive_inside).bind fun err => ?_
  cases err with
  | none => exact .pure _
  | some err =>
    refine (value_inside primitive_inside).bind fun message => ?_
    refine (freeAny_inside message).bind fun _ => ?_
    exact (status_inside primitive_inside).bind fun ok => .ite (jsThrow_inside err) (free_inside _)

theorem valueFromHost_inside (v : HostValue) : Inside (valueFromHost v) := by
  cases v with
  | string utf8 => exact value_inside primitive_inside
  | object json =>
    cases json with
    | none => exact .pure _
    | some text => exact value_inside primitive_inside
  | ref ref =>
    refine .bind .get fun s => ?_
    split
    · exact (pend_inside _).bind fun _ => .pure _
    · exact (own_inside _).bind fun _ => .pure _
  | bigInt text =>
    refine (value_inside primitive_inside).bind fun text => ?_
    cases text with
    | none => exact .pure _
    | some text =>
      refine (value_inside primitive_inside).bind fun r => ?_
      exact (free_inside _).bind fun _ => .pure _
  | binary bytes => exact value_inside primitive_inside
  | exception message => exact throwMessage_inside.bind fun _ => .pure _
  | _ => exact .pure _

section Script

variable {script : M Answer} (hscript : Inside script)

include hscript

theorem jsonToOut_inside : Inside (jsonToOut script) := by
  refine (value_inside hscript).bind fun json => ?_
  split
  · exact .pure _
  · exact .pure _
  · exact (textToOut_inside _).bind fun tag => (free_inside _).bind fun _ => .pure _

theorem valueToOut_inside (v : JSValue) (refObjects : Bool) :
    Inside (valueToOut script v refObjects) := by
  cases v with
  | string utf8 => exact textToOut_inside _
  | bigInt text => exact textToOut_inside _
  | symbol ptr => exact .ite (refToOut_inside _) (jsonToOut_inside hscript)
  | object ptr cls =>
    refine .ite (refToOut_inside _) (.ite (.pure _) ?_)
    split
    · exact binaryToOut_inside
    · exact jsonToOut_inside hscript
  | _ => exact .pure _

theorem errorToOut_inside (exc : JSValue) : Inside (errorToOut script exc) := by
  have hmessage : Inside (messageToOut script) := by
    refine (value_inside hscript).bind fun s => ?_
    have hcopy : Inside (copyAny s) := by
      cases s with
      | none => exact .pure _
      | some s => exact copyJsString_inside
    refine hcopy.bind fun ok => ?_
    refine Inside.bind (.ite (.pure _) dropException_inside) fun _ => freeAny_inside s
  have hstack : Inside (stackToOut script) := by
    refine (value_inside hscript).bind fun s => ?_
    cases s with
    | none => exact dropException_inside
    | some s =>
      exact Inside.bind (.ite copyJsString_inside (.pure _)) fun _ => free_inside _
  exact hmessage.bind fun _ => Inside.bind (.ite hstack (.pure _)) fun _ => free_inside _

omit hscript in
theorem takeException_inside : Inside takeException := by
  refine .bind .get fun s => getException_inside.bind fun exc => ?_
  exact .bind (.modify fun _ => ⟨rfl, rfl⟩) fun _ => .pure _

theorem describe_inside (exc : JSValue) (oom : Bool) : Inside (describe script exc oom) :=
  .ite (.pure _) (errorToOut_inside hscript exc)

theorem exceptionToOut_inside : Inside (exceptionToOut script) :=
  takeException_inside.bind fun r => describe_inside hscript r.1 r.2

-- ---------------------------------------------------------------------------
-- Draining, reporting and finish
-- ---------------------------------------------------------------------------

theorem executePendingJob_inside : Inside (executePendingJob script) :=
  .bind (.modify fun _ => ⟨rfl, rfl⟩) fun _ => status_inside hscript

theorem drainLoop_inside (fuel : ℕ) : Inside (drainLoop script fuel) := by
  induction fuel with
  | zero => exact .fail
  | succ fuel ih =>
    refine .bind .get fun s => .ite ((pend_inside _).bind fun _ => .pure _) (.ite (.pure _) ?_)
    exact (executePendingJob_inside hscript).bind fun ok => .ite ih (.pure _)

theorem discardLoop_inside (fuel : ℕ) : Inside (discardLoop script fuel) := by
  induction fuel with
  | zero => exact .fail
  | succ fuel ih =>
    refine .bind .get fun s => .ite (.pure _) ?_
    exact (executePendingJob_inside hscript).bind fun _ => dropException_inside.bind fun _ => ih

theorem drainJobs_inside : Inside (drainJobs script) := by
  refine (Inside.bounded (drainLoop_inside hscript)).bind fun failed => .ite ?_ (.pure _)
  refine (note_inside rfl).bind fun _ => getException_inside.bind fun exc => ?_
  have hdiscard : Inside (discardJobs script) :=
    (Inside.bounded (discardLoop_inside hscript)).bind fun _ => .modify fun s => .forgetAll s _
  exact hdiscard.bind fun _ => (jsThrow_inside exc).bind fun _ => .pure _

theorem reportLoop_inside (fuel : ℕ) : Inside (reportLoop script fuel) := by
  induction fuel with
  | zero => exact .fail
  | succ fuel ih =>
    have htake : Inside takeLast := .step fun s es entry s' rest hrun => by
      unfold takeLast at hrun
      split at hrun
      · cases hrun
        exact ((Same.own s _).trans (.forgetRejected _ _)).trans (.note _ rfl)
      · cases hrun
        exact .refl _
    have hcallback (p : ℕ) : Inside (callback script p) := by
      refine .bind .get fun s => .ite (.bind (.modify fun s => .note s rfl) fun _ => ?_) (.pure _)
      refine hscript.bind fun a => ?_
      cases a with
      | done => exact .pure _
      | _ => exact .fail
    refine htake.bind fun entry => ?_
    cases entry with
    | none => exact .pure _
    | some entry =>
      exact (errorToOut_inside hscript entry.2).bind fun _ => (hcallback entry.1).bind fun _ => ih

theorem reportRejections_inside : Inside (reportRejections script) :=
  .bounded (reportLoop_inside hscript)

omit hscript in
theorem failWith_inside : Inside failWith := takeException_inside.bind fun _ => .pure _

omit hscript in
theorem ownResult_inside (v : Option JSValue) (refObjects : Bool) :
    Inside (ownResult v refObjects) := by
  cases v with
  | none => exact failWith_inside
  | some v => exact .pure _

theorem drainOutermost_inside (outermost : Bool) (o : Outcome) :
    Inside (drainOutermost script outermost o) := by
  refine .ite ((drainJobs_inside hscript).bind fun failed => .ite ?_ (.pure _)) (.pure _)
  cases o with
  | failed exc oom => exact dropException_inside.bind fun _ => .pure _
  | value v refObjects => exact failWith_inside.bind fun _ => (free_inside _).bind fun _ => .pure _

theorem unwrapPromise_inside (v : JSValue) (refObjects module : Bool) :
    Inside (unwrapPromise script v refObjects module) := by
  unfold unwrapPromise
  split
  · refine .bind .get fun s => ?_
    split
    · refine .ite ((value_inside hscript).bind fun ns => ?_) ?_
      · exact (free_inside _).bind fun _ => ownResult_inside ns refObjects
      · exact (own_inside _).bind fun _ => (free_inside _).bind fun _ => .pure _
    · refine .bind (.modify fun s => ?_) fun _ => (free_inside _).bind fun _ =>
        (jsThrow_inside _).bind fun _ => failWith_inside
      exact ((Same.own s _).trans (.forgetPromise _ _)).trans (.note _ rfl)
    · exact .pure _
  · exact .pure _

theorem unwrapped_inside (unwrap module : Bool) (o : Outcome) :
    Inside (unwrapped script unwrap module o) := by
  cases o with
  | value v refObjects => exact .ite (unwrapPromise_inside hscript v refObjects module) (.pure _)
  | failed exc oom => exact .pure _

theorem reportOutermost_inside (outermost : Bool) : Inside (reportOutermost script outermost) :=
  .ite (reportRejections_inside hscript) (.pure _)

/-- There is no late work without a run of its own. -/
theorem convert_inside (v : JSValue) (refObjects : Bool) :
    Inside (convert script false v refObjects) := by
  refine (valueToOut_inside hscript v refObjects).bind fun tag => ?_
  cases tag with
  | none => exact (exceptionToOut_inside hscript).bind fun _ => .pure _
  | some tag =>
    refine .bind .get fun s => ?_
    rw [if_neg (by simp)]
    exact .pure _

theorem writeOut_inside (o : Outcome) : Inside (writeOut script false o) := by
  cases o with
  | failed exc oom => exact (describe_inside hscript exc oom).bind fun _ => .pure _
  | value v refObjects =>
    exact (convert_inside hscript v refObjects).bind fun r => (free_inside _).bind fun _ => .pure _

theorem finish_inside (v : Option JSValue) (refObjects unwrap module : Bool) :
    Inside (finish script false v refObjects unwrap module) := by
  refine (ownResult_inside v refObjects).bind fun o => ?_
  refine (drainOutermost_inside hscript false o).bind fun o => ?_
  refine (unwrapped_inside hscript unwrap module o).bind fun o => ?_
  refine (reportOutermost_inside hscript false).bind fun _ => ?_
  refine (writeOut_inside hscript o).bind fun r => ?_
  exact .bind (.modify fun _ => ⟨rfl, rfl⟩) fun _ => .pure _

omit hscript in
/-- A run is under way already, so that `run_begin` begins none. -/
theorem run_inside {body : Bool → M α} (hbody : Inside (body false)) :
    Inside (runBegin >>= body) := by
  intro n F s es a s' rest hrun hs
  obtain ⟨outermost, s₁, es₁, hbegin, hrest⟩ := Recorded.bind_eq_some.mp hrun
  cases hbegin
  cases hst : s.state with
  | idle => exact absurd hst hs.1
  | _ =>
    simp only [hst, QuickJsKmp.runBegin] at hrest
    exact (hbody n).elim_zero hrest ⟨by simp, hs.2⟩

-- ---------------------------------------------------------------------------
-- The public calls
-- ---------------------------------------------------------------------------

omit hscript in
theorem setImportMeta_inside : Inside setImportMeta := by
  refine (value_inside primitive_inside).bind fun importMeta => ?_
  cases importMeta with
  | none => exact .pure _
  | some importMeta =>
    refine (value_inside primitive_inside).bind fun url => (freeAny_inside url).bind fun _ => ?_
    exact (status_inside primitive_inside).bind fun ok => (free_inside _).bind fun _ => .pure _

omit hscript in
theorem withImportMeta_inside (obj : Code) : Inside (withImportMeta obj) :=
  setImportMeta_inside.bind fun _ => .ite (.pure _) ((free_inside _).bind fun _ => .pure _)

omit hscript in
theorem claimModuleName_inside (name : Name) (kind : ModuleKind) :
    Inside (claimModuleName name kind) :=
  .modify fun _ => ⟨rfl, rfl⟩

omit hscript in
theorem claimUnlessAnonymous_inside (name : Name) : Inside (claimUnlessAnonymous name) :=
  .ite (.pure _) (claimModuleName_inside name .evaluated)

omit hscript in
theorem moduleNameTaken_inside (name : Name) : Inside (moduleNameTaken name) :=
  .bind .get fun _ => .pure _

omit hscript in
theorem peekModuleName_inside : Inside peekModuleName := by
  have hname : Inside moduleNameOf := by
    refine primitive_inside.bind fun a => ?_
    cases a with
    | text name => exact .pure _
    | threw exc => exact (pend_inside exc).bind fun _ => .pure _
    | _ => exact .fail
  have hcopy (msg : Option JSValue) : Inside (copyString msg) := by
    unfold copyString
    split
    · exact (status_inside primitive_inside).bind fun _ => .pure _
    · exact .pure _
  have hcorrupt : Inside corruptMessage := by
    refine getException_inside.bind fun exc => (value_inside primitive_inside).bind fun msg => ?_
    exact (hcopy msg).bind fun _ => (freeAny_inside msg).bind fun _ => free_inside _
  refine primitive_inside.bind fun a => ?_
  cases a with
  | null => exact .pure _
  | done =>
    refine (code_inside primitive_inside).bind fun obj => ?_
    cases obj with
    | none => exact hcorrupt.bind fun _ => .pure _
    | some obj =>
      refine .ite (hname.bind fun name => ?_) ?_
      all_goals exact (free_inside _).bind fun _ => .pure _
  | _ => exact .fail

theorem compileModule_inside : Inside (compileModule script) := by
  refine (code_inside hscript).bind fun obj => ?_
  cases obj with
  | none => exact .pure _
  | some obj => exact withImportMeta_inside obj

theorem readBytecodeBody_inside (kind : BytecodeKind) : Inside (readBytecodeBody script kind) := by
  refine (code_inside primitive_inside).bind fun obj => ?_
  cases obj with
  | none => exact (exceptionToOut_inside hscript).bind fun _ => .pure _
  | some obj => exact .ite (.pure _) ((free_inside _).bind fun _ => .pure _)

omit hscript in
/-- An error is thrown and nothing is loaded. -/
theorem refuse_inside {m : M Unit} (hm : Inside m) :
    Inside (m >>= fun _ => pure none : M (Option α)) :=
  hm.bind fun _ => .pure _

theorem moduleFromBytecode_inside (name : Name) (buf : Bytes) :
    Inside (moduleFromBytecode script name buf) := by
  have hread (compiled : Name) : Inside (readLoaded script name compiled) := by
    refine .ite ((readBytecodeBody_inside hscript .module).bind fun obj => ?_)
      (refuse_inside (pend_inside _))
    cases obj with
    | none => exact refuse_inside throwMessage_inside
    | some obj => exact withImportMeta_inside obj
  unfold moduleFromBytecode
  split
  · exact refuse_inside throwMessage_inside
  · exact refuse_inside (pend_inside _)
  · refine peekModuleName_inside.bind fun compiled => ?_
    cases compiled with
    | none => exact refuse_inside throwMessage_inside
    | some compiled => exact hread compiled

theorem kmpModuleLoader_inside (name : Name) : Inside (kmpModuleLoader script name) := by
  have hhost : Inside (moduleFromHost script name) := by
    refine hscript.bind fun a => ?_
    split
    · exact refuse_inside throwMessage_inside
    · exact compileModule_inside hscript
    · exact moduleFromBytecode_inside hscript name _
    · exact refuse_inside (pend_inside _)
    · exact .fail
  have hload : Inside (loadFromHost script name) := by
    refine hhost.bind fun obj => ?_
    cases obj with
    | none => exact .pure _
    | some obj => exact (claimModuleName_inside name .loaded).bind fun _ => .pure _
  have hfind : Inside (findOrLoad script name) := by
    refine .bind .get fun s => ?_
    split
    · exact compileModule_inside hscript
    · exact hload
    · exact refuse_inside (pend_inside _)
  refine hfind.bind fun obj => ?_
  cases obj with
  | none => exact .pure _
  | some obj => exact free_inside _

theorem convertArgs_inside (refObjects : Bool) (argv : List JSValue) :
    Inside (convertArgs script refObjects argv) := by
  induction argv with
  | nil => exact .pure _
  | cons v argv ih =>
    refine (valueToOut_inside hscript v refObjects).bind fun tag => ?_
    cases tag with
    | none => exact .pure _
    | some tag => exact ih.bind fun r => .pure _

omit hscript in
theorem releaseArgs_inside (tags : List Tag) : Inside (releaseArgs tags) := by
  induction tags with
  | nil => exact .pure _
  | cons tag tags ih =>
    cases tag with
    | ref ref kind => exact .bind (.modify fun s => .refGiveBack s ref) fun _ => ih
    | _ => exact ih

theorem jsKmpHost_inside (refObjects : Bool) (argv : List JSValue) :
    Inside (jsKmpHost script refObjects argv) := by
  have hcall : Inside (callHost script) := by
    refine hscript.bind fun a => ?_
    split
    · exact refuse_inside throwMessage_inside
    · exact valueFromHost_inside _
    · exact .fail
  refine .bind .get fun s => .ite ?_ (refuse_inside (pend_inside _))
  refine (convertArgs_inside hscript refObjects argv).bind fun r => ?_
  exact Inside.bind (.ite hcall (.pure _)) fun ret => (releaseArgs_inside r.2).bind fun _ => .pure _

theorem eval_inside (refObjects : Bool) : Inside (kmpjsEval script refObjects) :=
  run_inside ((value_inside hscript).bind fun r => finish_inside hscript r refObjects true false)

theorem access_inside (refObjects : Bool) : Inside (access script refObjects) :=
  run_inside ((value_inside hscript).bind fun r => finish_inside hscript r refObjects false false)

theorem evaluate_inside (obj : Code) (refObjects unwrap module : Bool) :
    Inside (evalFunction script obj >>= fun r =>
      finish script false r refObjects unwrap module) :=
  ((free_inside _).bind fun _ => value_inside hscript).bind fun r =>
    finish_inside hscript r refObjects unwrap module

theorem evalModule_inside (name : Name) (refObjects : Bool) :
    Inside (kmpjsEvalModule script name refObjects) := by
  refine (moduleNameTaken_inside name).bind fun taken => .ite (.pure _) (run_inside ?_)
  refine (compileModule_inside hscript).bind fun obj => ?_
  cases obj with
  | none => exact finish_inside hscript none refObjects false false
  | some obj =>
    refine (claimUnlessAnonymous_inside name).bind fun _ => ?_
    exact evaluate_inside hscript obj true true true

omit hscript in
theorem endEarly_inside : Inside (endEarly false) :=
  .bind (.modify fun _ => ⟨rfl, rfl⟩) fun _ => .pure _

theorem resolveRead_inside (obj : Code) : Inside (resolveRead script obj) := by
  refine (withImportMeta_inside obj).bind fun obj => ?_
  cases obj with
  | none => exact .pure _
  | some obj =>
    refine (status_inside hscript).bind fun ok => ?_
    exact .ite (.pure _) ((free_inside _).bind fun _ => .pure _)

theorem runBytecode_inside (buf : Bytes) (refObjects : Bool) :
    Inside (kmpjsRunBytecode script buf refObjects) := by
  have hscript' : Inside (runScript script false refObjects) := by
    refine (readBytecodeBody_inside hscript .script).bind fun obj => ?_
    cases obj with
    | none => exact endEarly_inside
    | some obj => exact evaluate_inside hscript obj refObjects true false
  have hmodule (name : Name) : Inside (runModule script false name) := by
    refine (readBytecodeBody_inside hscript .module).bind fun obj => ?_
    cases obj with
    | none => exact endEarly_inside
    | some obj =>
      refine (resolveRead_inside hscript obj).bind fun obj => ?_
      cases obj with
      | none => exact finish_inside hscript none true true true
      | some obj =>
        exact (claimUnlessAnonymous_inside name).bind fun _ =>
          evaluate_inside hscript obj true true true
  refine run_inside ?_
  split
  · exact endEarly_inside
  · exact hscript'
  · refine peekModuleName_inside.bind fun name => ?_
    cases name with
    | none => exact endEarly_inside
    | some name =>
      exact (moduleNameTaken_inside name).bind fun taken => .ite endEarly_inside (hmodule name)

theorem registerModuleBytecode_inside (buf : Bytes) :
    Inside (kmpjsRegisterModuleBytecode script buf) := by
  have hread (name : Name) : Inside (registerRead script name) := by
    refine (readBytecodeBody_inside hscript .module).bind fun obj => ?_
    cases obj with
    | none => exact .pure _
    | some obj =>
      refine setImportMeta_inside.bind fun ok => .ite ?_ ?_
      · refine (claimModuleName_inside name .bytecode).bind fun _ => ?_
        exact (free_inside _).bind fun _ => .pure _
      · exact (exceptionToOut_inside hscript).bind fun _ => (free_inside _).bind fun _ => .pure _
  unfold kmpjsRegisterModuleBytecode
  split
  · refine run_inside (Inside.bind (peekModuleName_inside.bind fun name => ?_) fun r => ?_)
    · cases name with
      | none => exact .pure _
      | some name =>
        exact (moduleNameTaken_inside name).bind fun taken => .ite (.pure _) (hread name)
    · exact .bind (.modify fun _ => ⟨rfl, rfl⟩) fun _ => .pure _
  · exact .pure _

theorem setProperty_inside (v : JSValue) : Inside (setProperty script v) :=
  (free_inside _).bind fun _ => status_inside hscript

theorem defineFunction_inside (fnId : Int) : Inside (kmpjsDefineFunction script fnId) := by
  have hfailed : Inside (exceptionToOut script >>= fun _ => failMessage) :=
    (exceptionToOut_inside hscript).bind fun _ => .pure _
  refine .ite (.pure _) ((value_inside primitive_inside).bind fun fn => ?_)
  cases fn with
  | none => exact hfailed
  | some fn =>
    refine (own_inside _).bind fun _ => (setProperty_inside hscript fn).bind fun ok => ?_
    exact (free_inside _).bind fun _ => .ite (.pure _) hfailed

omit hscript in
/-- A call on a ref that is not there any more runs nothing. -/
theorem onRef_inside {k : Slot → M (Bool × Tag)} (hk : ∀ slot, Inside (k slot)) (ref : Handle) :
    Inside (slotGet ref >>= fun slot => match slot with
      | none => failMessage
      | some slot => k slot) := by
  refine .bind (.bind .get fun _ => .pure _) fun slot => ?_
  cases slot with
  | none => exact .pure _
  | some slot => exact hk slot

theorem refSet_inside (ref : Handle) (v : HostValue) : Inside (kmpjsRefSet script ref v) := by
  refine onRef_inside (fun _ => run_inside (Inside.bind ?_ fun r => ?_)) ref
  · refine (valueFromHost_inside v).bind fun v => ?_
    cases v with
    | none => exact .pure _
    | some v => exact (setProperty_inside hscript v).bind fun ok => .ite (.pure _) (.pure _)
  · exact finish_inside hscript r false false false

omit hscript in
theorem convertFromHost_inside (args : List HostValue) : Inside (convertFromHost args) := by
  induction args with
  | nil => exact .pure _
  | cons a args ih =>
    refine (valueFromHost_inside a).bind fun v => ?_
    cases v with
    | none => exact .pure _
    | some v => exact ih.bind fun r => .pure _

theorem refCall_inside (ref thisRef : Handle) (args : List HostValue) (refObjects : Bool) :
    Inside (kmpjsRefCall script ref thisRef args refObjects) := by
  have hcall : Inside (callFunction script args) := by
    refine (convertFromHost_inside args).bind fun r => ?_
    exact Inside.bind (.ite (value_inside hscript) (.pure _)) fun v =>
      (freeAll_inside r.2).bind fun _ => .pure _
  refine onRef_inside (fun slot => ?_) ref
  refine Inside.bind (.bind .get fun _ => .pure _) fun this => .ite (.pure _) (run_inside ?_)
  exact hcall.bind fun r => finish_inside hscript r refObjects true false

theorem refToJson_inside (ref : Handle) : Inside (kmpjsRefToJson script ref) :=
  onRef_inside (fun _ => .ite (.pure _) ((access_inside hscript false).bind fun _ => .pure _)) ref

theorem enter_inside (c : Call) : Inside (enter script c) := by
  cases c with
  | eval refObjects => exact eval_inside hscript refObjects
  | registerModule name =>
    refine .ite (.pure _) ((moduleNameTaken_inside name).bind fun taken => .ite (.pure _) ?_)
    exact (claimModuleName_inside name .source).bind fun _ => .pure _
  | evalModule name refObjects => exact evalModule_inside hscript name refObjects
  | runBytecode buf refObjects => exact runBytecode_inside hscript buf refObjects
  | registerModuleBytecode buf => exact registerModuleBytecode_inside hscript buf
  | defineFunction fnId => exact defineFunction_inside hscript fnId
  | refRetain ref => exact .bind (.modify fun s => .refRetain s ref) fun _ => .pure _
  | refRelease ref => exact .bind (.modify fun s => .refRelease s ref) fun _ => .pure _
  | refGet ref refObjects => exact onRef_inside (fun _ => access_inside hscript refObjects) ref
  | refGetIndex ref index refObjects =>
    exact onRef_inside (fun _ => .ite (.pure _) (access_inside hscript refObjects)) ref
  | refSet ref v => exact refSet_inside hscript ref v
  | refCall ref thisRef args refObjects => exact refCall_inside hscript ref thisRef args refObjects
  | refToJson ref => exact refToJson_inside hscript ref
  | interrupt =>
    exact Inside.bind (fun n => .modify fun s _ hs => hs.interrupt) fun _ => .pure _

end Script

-- ---------------------------------------------------------------------------
-- Script and host code
-- ---------------------------------------------------------------------------

theorem perform_inside (a : Act) : Inside (perform a) := by
  intro n _ s es _ s' rest hrun hs
  obtain ⟨s₁, hact, heq⟩ := Option.map_eq_some_iff.mp hrun
  cases heq
  cases a with
  | interrupt =>
    cases hact
    exact hs.interrupt
  | fulfill p v => exact hs.same (.fulfill s hact)
  | reject p reason => exact hs.same (.reject s hact)
  | attach p =>
    cases hact
    exact hs.same (.attach s p)
  | _ =>
    cases hact
    exact hs

theorem noted_inside {n : Shim → Shim → α → Note} {call : M α} (hcall : Inside call)
    (hn : ∀ s s' a, (n s s' a).losesResult = false) : Inside (noted n call) :=
  .bind .get fun s => hcall.bind fun r =>
    .bind (.modify fun s' => .note s' (hn s s' r)) fun _ => .pure _

theorem called_inside {call : M (Bool × Tag)} (hcall : Inside call) : Inside (called call) := by
  refine (noted_inside hcall fun _ _ _ => rfl).bind fun r => .bind ?_ fun _ => .pure _
  unfold noteHanded
  split
  · exact note_inside rfl
  · exact .pure _

/-- By induction on the depth: no call inside a run loses its result. -/
theorem script_inside (fuel : ℕ) : Inside (script fuel) := by
  induction fuel with
  | zero => exact .fail
  | succ fuel ih =>
    have hevent : Inside anyEvent := .next fun e s a s' he => by
      cases he
      rfl
    refine hevent.bind fun e => ?_
    cases e with
    | answer a => exact .pure _
    | act a => exact (perform_inside a).bind fun _ => ih
    | call c => exact (called_inside (enter_inside ih c)).bind fun _ => ih
    | hostFunction refObjects argv =>
      have hhost := jsKmpHost_inside ih refObjects argv
      refine (noted_inside hhost fun _ _ _ => rfl).bind fun ret => ?_
      exact (freeAny_inside ret).bind fun _ => ih
    | importModule name => exact (kmpModuleLoader_inside ih name).bind fun _ => ih

end QuickJsKmp.Ledger
