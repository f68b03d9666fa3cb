import QuickJsKmp.BalanceLaws

/-!
# Every public call keeps the balance

The calls down to `finish`, the functions that the engine calls back, and the
induction that closes the circle: script and host code take nothing from the
shim and leave nothing with it, however deep their calls nest.
-/

namespace QuickJsKmp.Ledger

open Recorded (Prog Hands Returns)

variable {base : Base}

-- ---------------------------------------------------------------------------
-- Modules and bytecode
-- ---------------------------------------------------------------------------

theorem failMessage_hands : Hands (Balanced base) 0 failMessage resultRef := .pure rfl

theorem setImportMeta_hands : Hands (Balanced base) 0 setImportMeta fun _ => 0 := by
  refine (value_hands primitive_hands).seq fun importMeta => ?_
  cases importMeta with
  | none => exact .pure rfl
  | some importMeta =>
    refine (value_hands primitive_hands).bind_zero fun url => ?_
    refine (freeAny_hands url).bind (holds (.value importMeta)) rfl fun _ => ?_
    rw [zero_add]
    exact (status_hands primitive_hands).pass fun _ => free_hands.seq fun _ => .pure rfl

theorem withImportMeta_hands (obj : Code) :
    Hands (Balanced base) (holds (.code obj)) (withImportMeta obj) holdsCode := by
  refine setImportMeta_hands.pass fun ok => .ite (fun _ => .pure rfl) fun _ => ?_
  exact free_hands.seq fun _ => .pure rfl

theorem moduleNameTaken_hands (name : Name) :
    Hands (Balanced base) 0 (moduleNameTaken name) fun _ => 0 :=
  Hands.get.seq fun _ => .pure rfl

theorem claimModuleName_hands (name : Name) (kind : ModuleKind) :
    Hands (Balanced base) 0 (claimModuleName name kind) fun _ => 0 :=
  side_hands Shim.jobs Shim.oom Shim.pending fun s => s.rows ++ [(name, kind)]

theorem claimUnlessAnonymous_hands (name : Name) :
    Hands (Balanced base) 0 (claimUnlessAnonymous name) fun _ => 0 :=
  .ite (fun _ => .pure rfl) fun _ => claimModuleName_hands name .evaluated

theorem copyString_hands (s : Option JSValue) :
    Hands (Balanced base) 0 (copyString s) fun _ => 0 := by
  unfold copyString
  split
  · exact (status_hands primitive_hands).seq fun _ => .pure rfl
  · exact .pure rfl

theorem corruptMessage_hands : Hands (Balanced base) 0 corruptMessage fun _ => 0 := by
  refine getException_hands.seq fun ex => (value_hands primitive_hands).bind_zero fun msg => ?_
  refine (copyString_hands msg).pass fun _ => ?_
  refine (freeAny_hands msg).bind (holds (.value ex)) rfl fun _ => ?_
  rw [zero_add]
  exact free_hands

theorem moduleNameOf_hands : Hands (Balanced base) 0 moduleNameOf fun _ => 0 := by
  refine primitive_hands.seq fun a => ?_
  cases a with
  | text name => exact .pure rfl
  | threw exc => exact pend_hands.seq fun _ => .pure rfl
  | _ => exact .fail

theorem peekObject_hands : Hands (Balanced base) 0 peekObject fun _ => 0 := by
  refine (code_hands primitive_hands).seq fun obj => ?_
  cases obj with
  | none => exact corruptMessage_hands.seq fun _ => .pure rfl
  | some obj =>
    refine .ite (fun _ => moduleNameOf_hands.pass fun _ => ?_) fun _ => ?_
    all_goals exact free_hands.seq fun _ => .pure rfl

theorem peekModuleName_hands : Hands (Balanced base) 0 peekModuleName fun _ => 0 := by
  refine primitive_hands.seq fun a => ?_
  cases a with
  | null => exact .pure rfl
  | done => exact peekObject_hands
  | _ => exact .fail

-- ---------------------------------------------------------------------------
-- A call that asks for no ref
-- ---------------------------------------------------------------------------

/-- The flags of the call do not ask for a ref. -/
def Plain : Outcome → Prop
  | .value _ refObjects => refObjects = false
  | .failed _ _ => True

section Plain

variable {script : M Answer}

theorem textToOut_plain (htag : tagRef tag = 0) :
    Returns (textToOut tag) fun t => tagRefAny t = 0 :=
  .after fun ok => by
    cases ok with
    | true => exact .pure htag
    | false => exact .pure rfl

theorem jsonToOut_plain : Returns (jsonToOut script) fun t => tagRefAny t = 0 := by
  refine .after fun json => ?_
  split
  · exact .pure rfl
  · exact .pure rfl
  · exact (textToOut_plain rfl).bind fun tag htag => .after fun _ => .pure htag

theorem binaryToOut_plain : Returns binaryToOut fun t => tagRefAny t = 0 := by
  refine .after fun a => ?_
  cases a with
  | done => exact .pure rfl
  | threw exc => exact .after fun _ => .pure rfl
  | value buffer =>
    refine .after fun _ => .after fun ok => .after fun _ => ?_
    cases ok <;> exact .pure rfl
  | _ => exact .fail

theorem valueToOut_plain (v : JSValue) :
    Returns (valueToOut script v false) fun t => tagRefAny t = 0 := by
  cases v with
  | string utf8 => exact textToOut_plain rfl
  | bigInt text => exact textToOut_plain rfl
  | symbol ptr => exact jsonToOut_plain
  | object ptr cls =>
    simp only [valueToOut, Bool.false_eq_true, if_false]
    refine .ite (.pure rfl) ?_
    split
    · exact binaryToOut_plain
    · exact jsonToOut_plain
  | _ => exact .pure rfl

theorem lateWork_plain (htag : tagRef tag = 0) :
    Returns (lateWork script tag) fun r => resultRef r = 0 :=
  .after fun _ => .ite (.after fun _ => .after fun _ => .pure rfl) (.after fun _ => .pure htag)

theorem convert_plain (outermost : Bool) (v : JSValue) :
    Returns (convert script outermost v false) fun r => resultRef r = 0 := by
  refine (valueToOut_plain v).bind fun tag htag => ?_
  cases tag with
  | none => exact .after fun _ => .pure rfl
  | some tag => exact .after fun _ => .ite (lateWork_plain htag) (.pure htag)

theorem writeOut_plain (outermost : Bool) (ho : Plain o) :
    Returns (writeOut script outermost o) fun r => resultRef r = 0 := by
  cases o with
  | failed exc oom => exact .after fun _ => .pure rfl
  | value v refObjects =>
    obtain rfl : refObjects = false := ho
    exact (convert_plain outermost v).bind fun r hr => .after fun _ => .pure hr

theorem failWith_plain : Returns failWith Plain := .after fun _ => .pure trivial

theorem drainOutermost_plain (outermost : Bool) (ho : Plain o) :
    Returns (drainOutermost script outermost o) Plain := by
  refine .ite (.after fun _ => .ite ?_ (.pure ho)) (.pure ho)
  cases o with
  | failed exc oom => exact .after fun _ => .pure trivial
  | value v refObjects => exact failWith_plain.bind fun o' ho' => .after fun _ => .pure ho'

theorem finish_plain (outermost : Bool) (v : Option JSValue) (module : Bool) :
    Returns (finish script outermost v false false module) fun r => resultRef r = 0 := by
  have hown : Returns (ownResult v false) Plain := by
    cases v with
    | none => exact failWith_plain
    | some v => exact .pure rfl
  refine hown.bind fun o ho => (drainOutermost_plain outermost ho).bind fun o ho => ?_
  have hunwrap : Returns (unwrapped script false module o) Plain := by
    cases o <;> exact .pure ho
  refine hunwrap.bind fun o ho => .after fun _ => ?_
  exact (writeOut_plain outermost ho).bind fun r hr => .after fun _ => .pure hr

theorem access_plain : Returns (access script false) fun r => resultRef r = 0 :=
  .after fun outermost => .after fun v => finish_plain outermost v false

end Plain

section Script

variable {script : M Answer} (hscript : Hands (Balanced base) 0 script fun _ => 0)

include hscript

theorem compileModule_hands : Hands (Balanced base) 0 (compileModule script) holdsCode := by
  refine (code_hands hscript).seq fun obj => ?_
  cases obj with
  | none => exact .pure rfl
  | some obj => exact withImportMeta_hands obj

theorem readBytecodeBody_hands (kind : BytecodeKind) :
    Hands (Balanced base) 0 (readBytecodeBody script kind) holdsCode := by
  refine (code_hands primitive_hands).seq fun obj => ?_
  cases obj with
  | none => exact (exceptionToOut_hands hscript).seq fun _ => .pure rfl
  | some obj => exact .ite (fun _ => .pure rfl) fun _ => free_hands.seq fun _ => .pure rfl

theorem readLoaded_hands (name compiled : Name) :
    Hands (Balanced base) 0 (readLoaded script name compiled) holdsCode := by
  refine .ite (fun _ => ?_) fun _ => throwTypeError_hands.seq fun _ => .pure rfl
  refine (readBytecodeBody_hands hscript .module).seq fun obj => ?_
  cases obj with
  | none => exact throwMessage_hands.seq fun _ => .pure rfl
  | some obj => exact withImportMeta_hands obj

theorem moduleFromBytecode_hands (name : Name) (buf : Bytes) :
    Hands (Balanced base) 0 (moduleFromBytecode script name buf) holdsCode := by
  unfold moduleFromBytecode
  split
  · exact throwMessage_hands.seq fun _ => .pure rfl
  · exact throwTypeError_hands.seq fun _ => .pure rfl
  · refine peekModuleName_hands.seq fun compiled => ?_
    cases compiled with
    | none => exact throwMessage_hands.seq fun _ => .pure rfl
    | some compiled => exact readLoaded_hands hscript name compiled

theorem moduleFromHost_hands (name : Name) :
    Hands (Balanced base) 0 (moduleFromHost script name) holdsCode := by
  refine hscript.seq fun a => ?_
  split
  · exact throwMessage_hands.seq fun _ => .pure rfl
  · exact compileModule_hands hscript
  · exact moduleFromBytecode_hands hscript name _
  · exact throwTypeError_hands.seq fun _ => .pure rfl
  · exact .fail

theorem loadFromHost_hands (name : Name) :
    Hands (Balanced base) 0 (loadFromHost script name) holdsCode := by
  refine (moduleFromHost_hands hscript name).seq fun obj => ?_
  cases obj with
  | none => exact .pure rfl
  | some obj => exact (claimModuleName_hands name .loaded).pass fun _ => .pure rfl

theorem findOrLoad_hands (name : Name) :
    Hands (Balanced base) 0 (findOrLoad script name) holdsCode := by
  refine Hands.get.seq fun s => ?_
  split
  · exact compileModule_hands hscript
  · exact loadFromHost_hands hscript name
  · exact throwTypeError_hands.seq fun _ => .pure rfl

theorem kmpModuleLoader_hands (name : Name) :
    Hands (Balanced base) 0 (kmpModuleLoader script name) fun _ => 0 := by
  refine (findOrLoad_hands hscript name).seq fun obj => ?_
  cases obj with
  | none => exact .pure rfl
  | some obj => exact free_hands

-- ---------------------------------------------------------------------------
-- Host functions
-- ---------------------------------------------------------------------------

omit hscript in
def tagRefs : List Tag → Hand
  | [] => 0
  | tag :: tags => tagRef tag + tagRefs tags

theorem convertArgs_hands (refObjects : Bool) (argv : List JSValue) :
    Hands (Balanced base) 0 (convertArgs script refObjects argv) fun r => tagRefs r.2 := by
  induction argv with
  | nil => exact .pure rfl
  | cons v argv ih =>
    refine (valueToOut_hands hscript v refObjects).seq fun tag => ?_
    cases tag with
    | none => exact .pure rfl
    | some tag => exact ih.bind_zero fun r => .pure (add_comm _ _)

omit hscript in
theorem releaseArgs_hands (tags : List Tag) :
    Hands (Balanced base) (tagRefs tags) (releaseArgs tags) fun _ => 0 := by
  induction tags with
  | nil => exact .pure rfl
  | cons tag tags ih =>
    cases tag with
    | ref ref kind =>
      have hback : Hands (Balanced base) aRef (Recorded.modify fun s : Shim => s.refGiveBack ref : M Unit)
          fun _ => 0 := by
        refine .modify fun s F hs => ?_
        rw [zero_add]
        exact hs.refGiveBack ref
      refine hback.bind (tagRefs tags) rfl fun _ => ?_
      rw [zero_add]
      exact ih
    | _ => exact ih.cast (zero_add _) fun _ => rfl

theorem callHost_hands : Hands (Balanced base) 0 (callHost script) holdsAny := by
  refine hscript.seq fun a => ?_
  split
  · exact throwMessage_hands.seq fun _ => .pure rfl
  · exact valueFromHost_hands _
  · exact .fail

theorem callIf_hands (ok : Bool) : Hands (Balanced base) 0 (callIf script ok) holdsAny :=
  .ite (fun _ => callHost_hands hscript) fun _ => .pure rfl

theorem hostCall_hands (refObjects : Bool) (argv : List JSValue) :
    Hands (Balanced base) 0 (hostCall script refObjects argv) holdsAny := by
  refine (convertArgs_hands hscript refObjects argv).seq fun r => ?_
  refine (callIf_hands hscript r.1).bind_zero fun ret => ?_
  exact (releaseArgs_hands r.2).bind (holdsAny ret) (add_comm _ _) fun _ => .pure (zero_add _)

theorem jsKmpHost_hands (refObjects : Bool) (argv : List JSValue) :
    Hands (Balanced base) 0 (jsKmpHost script refObjects argv) holdsAny := by
  refine Hands.get.seq fun s => .ite (fun _ => hostCall_hands hscript refObjects argv) fun _ => ?_
  exact throwTypeError_hands.seq fun _ => .pure rfl

-- ---------------------------------------------------------------------------
-- Evaluation
-- ---------------------------------------------------------------------------

/-- A call from its `run_begin` to `finish`, with what runs in between. -/
theorem run_hands {body : Bool → M (Option JSValue)}
    (hbody : ∀ b, Hands (Balanced base) 0 (body b) holdsAny)
    (refObjects unwrap module : Bool) :
    Hands (Balanced base) 0
      (runBegin >>= fun outermost => body outermost >>= fun r =>
        finish script outermost r refObjects unwrap module) resultRef := by
  refine runBegin_hands.seq fun outermost => (hbody outermost).bind_zero fun r => ?_
  exact finish_hands hscript outermost r refObjects unwrap module

theorem kmpjsEval_hands (refObjects : Bool) :
    Hands (Balanced base) 0 (kmpjsEval script refObjects) resultRef :=
  run_hands hscript (fun _ => value_hands hscript) refObjects true false

omit hscript in
theorem kmpjsRegisterModule_hands (name : Name) :
    Hands (Balanced base) 0 (kmpjsRegisterModule name) resultRef := by
  refine .ite (fun _ => failMessage_hands) fun _ => (moduleNameTaken_hands name).seq fun taken => ?_
  refine .ite (fun _ => failMessage_hands) fun _ =>
    (claimModuleName_hands name .source).seq fun _ => .pure rfl

theorem evalFunction_hands (obj : Code) :
    Hands (Balanced base) (holds (.code obj)) (evalFunction script obj) holdsAny :=
  give_hands.seq fun _ => value_hands hscript

/-- A module or a script that is run, up to the end of its call. -/
theorem evaluate_hands (obj : Code) (outermost refObjects unwrap module : Bool) :
    Hands (Balanced base) (holds (.code obj) + runOf outermost)
      (evalFunction script obj >>= fun r => finish script outermost r refObjects unwrap module)
      resultRef :=
  (evalFunction_hands hscript obj).bind (runOf outermost) rfl fun r =>
    finish_hands hscript outermost r refObjects unwrap module

theorem finish_none_hands (outermost refObjects unwrap module : Bool) :
    Hands (Balanced base) (runOf outermost) (finish script outermost none refObjects unwrap module)
      resultRef :=
  (finish_hands hscript outermost none refObjects unwrap module).cast (zero_add _).symm fun _ => rfl

theorem evalModule_hands (outermost : Bool) (name : Name) (refObjects : Bool) :
    Hands (Balanced base) (runOf outermost)
      (evalModule script outermost name refObjects) resultRef := by
  refine (compileModule_hands hscript).bind_zero fun obj => ?_
  cases obj with
  | none =>
    rw [holdsCode, zero_add]
    exact finish_none_hands hscript outermost refObjects false false
  | some obj =>
    refine (claimUnlessAnonymous_hands name).pass fun _ => ?_
    exact evaluate_hands hscript obj outermost true true true

theorem kmpjsEvalModule_hands (name : Name) (refObjects : Bool) :
    Hands (Balanced base) 0 (kmpjsEvalModule script name refObjects) resultRef := by
  refine (moduleNameTaken_hands name).seq fun taken => .ite (fun _ => failMessage_hands) fun _ => ?_
  exact runBegin_hands.seq fun outermost => evalModule_hands hscript outermost name refObjects

omit hscript in
theorem endEarly_hands (outermost : Bool) :
    Hands (Balanced base) (runOf outermost) (endEarly outermost) resultRef :=
  (runEnd_hands outermost).seq fun _ => failMessage_hands

theorem resolveRead_hands (obj : Code) :
    Hands (Balanced base) (holds (.code obj)) (resolveRead script obj) holdsCode := by
  refine (withImportMeta_hands obj).seq fun obj => ?_
  cases obj with
  | none => exact .pure rfl
  | some obj =>
    refine (status_hands hscript).pass fun ok => .ite (fun _ => .pure rfl) fun _ => ?_
    exact free_hands.seq fun _ => .pure rfl

theorem runScript_hands (outermost refObjects : Bool) :
    Hands (Balanced base) (runOf outermost) (runScript script outermost refObjects) resultRef := by
  refine (readBytecodeBody_hands hscript .script).bind_zero fun obj => ?_
  cases obj with
  | none =>
    rw [holdsCode, zero_add]
    exact endEarly_hands outermost
  | some obj => exact evaluate_hands hscript obj outermost refObjects true false

theorem runModule_hands (outermost : Bool) (name : Name) :
    Hands (Balanced base) (runOf outermost) (runModule script outermost name) resultRef := by
  refine (readBytecodeBody_hands hscript .module).bind_zero fun obj => ?_
  cases obj with
  | none =>
    rw [holdsCode, zero_add]
    exact endEarly_hands outermost
  | some obj =>
    refine (resolveRead_hands hscript obj).bind (runOf outermost) rfl fun obj => ?_
    cases obj with
    | none =>
      rw [holdsCode, zero_add]
      exact finish_none_hands hscript outermost true true true
    | some obj =>
      refine (claimUnlessAnonymous_hands name).pass fun _ => ?_
      exact evaluate_hands hscript obj outermost true true true

theorem runPeeked_hands (outermost : Bool) :
    Hands (Balanced base) (runOf outermost) (runPeeked script outermost) resultRef := by
  refine peekModuleName_hands.pass fun name => ?_
  cases name with
  | none => exact endEarly_hands outermost
  | some name =>
    refine (moduleNameTaken_hands name).pass fun taken => ?_
    exact .ite (fun _ => endEarly_hands outermost) fun _ => runModule_hands hscript outermost name

theorem kmpjsRunBytecode_hands (buf : Bytes) (refObjects : Bool) :
    Hands (Balanced base) 0 (kmpjsRunBytecode script buf refObjects) resultRef := by
  refine runBegin_hands.seq fun outermost => ?_
  split
  · exact endEarly_hands outermost
  · exact runScript_hands hscript outermost refObjects
  · exact runPeeked_hands hscript outermost

theorem registerRead_hands (name : Name) :
    Hands (Balanced base) 0 (registerRead script name) resultRef := by
  refine (readBytecodeBody_hands hscript .module).seq fun obj => ?_
  cases obj with
  | none => exact failMessage_hands
  | some obj =>
    refine setImportMeta_hands.pass fun ok => .ite (fun _ => ?_) fun _ => ?_
    · refine (claimModuleName_hands name .bytecode).pass fun _ => ?_
      exact free_hands.seq fun _ => .pure rfl
    · exact (exceptionToOut_hands hscript).pass fun _ => free_hands.seq fun _ => failMessage_hands

theorem registerPeeked_hands : Hands (Balanced base) 0 (registerPeeked script) resultRef := by
  refine peekModuleName_hands.seq fun name => ?_
  cases name with
  | none => exact failMessage_hands
  | some name =>
    refine (moduleNameTaken_hands name).seq fun taken => ?_
    exact .ite (fun _ => failMessage_hands) fun _ => registerRead_hands hscript name

theorem kmpjsRegisterModuleBytecode_hands (buf : Bytes) :
    Hands (Balanced base) 0 (kmpjsRegisterModuleBytecode script buf) resultRef := by
  unfold kmpjsRegisterModuleBytecode
  split
  · refine runBegin_hands.seq fun outermost => (registerPeeked_hands hscript).bind_zero fun r => ?_
    exact (runEnd_hands outermost).bind (resultRef r) (add_comm _ _) fun _ => .pure (zero_add _)
  · exact failMessage_hands

omit hscript in
theorem setProperty_hands {call : M Answer} (hcall : Hands (Balanced base) 0 call fun _ => 0)
    (v : JSValue) : Hands (Balanced base) (holds (.value v)) (setProperty call v) fun _ => 0 :=
  give_hands.seq fun _ => status_hands hcall

theorem defineGlobal_hands (fn : JSValue) :
    Hands (Balanced base) (holds (.value fn)) (defineGlobal script fn) resultRef := by
  refine own_hands.bind_zero fun _ => ?_
  refine (setProperty_hands hscript fn).bind (holds globalObject) (add_comm _ _) fun ok => ?_
  rw [zero_add]
  refine free_hands.seq fun _ => .ite (fun _ => .pure rfl) fun _ => ?_
  exact (exceptionToOut_hands hscript).seq fun _ => failMessage_hands

theorem kmpjsDefineFunction_hands (fnId : Int) :
    Hands (Balanced base) 0 (kmpjsDefineFunction script fnId) resultRef := by
  refine .ite (fun _ => failMessage_hands) fun _ => (value_hands primitive_hands).seq fun fn => ?_
  cases fn with
  | none => exact (exceptionToOut_hands hscript).seq fun _ => failMessage_hands
  | some fn => exact defineGlobal_hands hscript fn

-- ---------------------------------------------------------------------------
-- Refs
-- ---------------------------------------------------------------------------

omit hscript in
theorem slotGet_hands (ref : Handle) : Hands (Balanced base) 0 (slotGet ref) fun _ => 0 :=
  Hands.get.seq fun _ => .pure rfl

theorem access_hands (refObjects : Bool) :
    Hands (Balanced base) 0 (access script refObjects) resultRef :=
  run_hands hscript (fun _ => value_hands hscript) refObjects false false

theorem kmpjsRefGet_hands (ref : Handle) (refObjects : Bool) :
    Hands (Balanced base) 0 (kmpjsRefGet script ref refObjects) resultRef := by
  refine (slotGet_hands ref).seq fun slot => ?_
  cases slot with
  | none => exact failMessage_hands
  | some slot => exact access_hands hscript refObjects

theorem kmpjsRefGetIndex_hands (ref : Handle) (index : Int) (refObjects : Bool) :
    Hands (Balanced base) 0 (kmpjsRefGetIndex script ref index refObjects) resultRef := by
  refine (slotGet_hands ref).seq fun slot => ?_
  cases slot with
  | none => exact failMessage_hands
  | some slot => exact .ite (fun _ => failMessage_hands) fun _ => access_hands hscript refObjects

theorem setFromHost_hands (v : HostValue) :
    Hands (Balanced base) 0 (setFromHost script v) holdsAny := by
  refine (valueFromHost_hands v).seq fun v => ?_
  cases v with
  | none => exact .pure rfl
  | some v =>
    refine (setProperty_hands hscript v).seq fun ok => ?_
    exact .ite (fun _ => .pure rfl) fun _ => .pure rfl

theorem kmpjsRefSet_hands (ref : Handle) (v : HostValue) :
    Hands (Balanced base) 0 (kmpjsRefSet script ref v) resultRef := by
  refine (slotGet_hands ref).seq fun slot => ?_
  cases slot with
  | none => exact failMessage_hands
  | some slot => exact run_hands hscript (fun _ => setFromHost_hands hscript v) false false false

omit hscript in
theorem convertFromHost_hands (args : List HostValue) :
    Hands (Balanced base) 0 (convertFromHost args) fun r => holdsAll r.2 := by
  induction args with
  | nil => exact .pure rfl
  | cons a args ih =>
    refine (valueFromHost_hands a).seq fun v => ?_
    cases v with
    | none => exact .pure rfl
    | some v => exact ih.bind_zero fun r => .pure (add_comm _ _)

theorem valueIf_hands (ok : Bool) : Hands (Balanced base) 0 (valueIf script ok) holdsAny :=
  .ite (fun _ => value_hands hscript) fun _ => .pure rfl

theorem callFunction_hands (args : List HostValue) :
    Hands (Balanced base) 0 (callFunction script args) holdsAny := by
  refine (convertFromHost_hands args).seq fun r => (valueIf_hands hscript r.1).bind_zero fun v => ?_
  exact (freeAll_hands r.2).bind (holdsAny v) (add_comm _ _) fun _ => .pure (zero_add _)

theorem kmpjsRefCall_hands (ref thisRef : Handle) (args : List HostValue) (refObjects : Bool) :
    Hands (Balanced base) 0 (kmpjsRefCall script ref thisRef args refObjects) resultRef := by
  refine (slotGet_hands ref).seq fun slot => ?_
  cases slot with
  | none => exact failMessage_hands
  | some slot =>
    refine (slotGet_hands thisRef).seq fun this => .ite (fun _ => failMessage_hands) fun _ => ?_
    exact run_hands hscript (fun _ => callFunction_hands hscript args) refObjects true false

theorem kmpjsRefToJson_hands (ref : Handle) :
    Hands (Balanced base) 0 (kmpjsRefToJson script ref) resultRef := by
  refine (slotGet_hands ref).seq fun slot => ?_
  cases slot with
  | none => exact failMessage_hands
  | some slot =>
    refine .ite (fun _ => .pure rfl) fun _ => ?_
    have hplain : Hands (Balanced base) 0 (access script false) fun _ => 0 :=
      (access_hands hscript false).returns access_plain fun _ hr => hr
    refine hplain.seq fun r => .pure ?_
    obtain ⟨failed, tag⟩ := r
    cases failed <;> rfl

omit hscript in
/-- A retain, a release or an interrupt. -/
theorem modify_hands {f : Shim → Shim} (hf : ∀ {s h}, Balanced base s h → Balanced base (f s) h) :
    Hands (Balanced base) 0 (Recorded.modify f >>= fun _ => pure (false, .undefined) : M (Bool × Tag))
      resultRef := by
  have hmod : Hands (Balanced base) 0 (Recorded.modify f : M Unit) fun _ => 0 :=
    .modify fun _ _ hs => hf hs
  exact hmod.seq fun _ => .pure rfl

theorem enter_hands (c : Call) : Hands (Balanced base) 0 (enter script c) resultRef := by
  cases c with
  | eval refObjects => exact kmpjsEval_hands hscript refObjects
  | registerModule name => exact kmpjsRegisterModule_hands name
  | evalModule name refObjects => exact kmpjsEvalModule_hands hscript name refObjects
  | runBytecode buf refObjects => exact kmpjsRunBytecode_hands hscript buf refObjects
  | registerModuleBytecode buf => exact kmpjsRegisterModuleBytecode_hands hscript buf
  | defineFunction fnId => exact kmpjsDefineFunction_hands hscript fnId
  | refRetain ref => exact modify_hands fun hs => hs.refRetain ref
  | refRelease ref => exact modify_hands fun hs => hs.refRelease ref
  | refGet ref refObjects => exact kmpjsRefGet_hands hscript ref refObjects
  | refGetIndex ref index refObjects => exact kmpjsRefGetIndex_hands hscript ref index refObjects
  | refSet ref v => exact kmpjsRefSet_hands hscript ref v
  | refCall ref thisRef args refObjects => exact kmpjsRefCall_hands hscript ref thisRef args refObjects
  | refToJson ref => exact kmpjsRefToJson_hands hscript ref
  | interrupt => exact modify_hands fun hs => hs.interrupt

end Script

-- ---------------------------------------------------------------------------
-- Script and host code
-- ---------------------------------------------------------------------------

theorem perform_hands (a : Act) : Hands (Balanced base) 0 (perform a) fun _ => 0 := by
  intro F s es u s' rest hrun hs
  obtain ⟨s₁, ha, heq⟩ := Option.map_eq_some_iff.mp hrun
  cases heq
  exact hs.act ha

theorem noteHanded_hands (r : Bool × Tag) :
    Hands (Balanced base) (resultRef r) (noteHanded r) fun _ => 0 := by
  obtain ⟨failed, tag⟩ := r
  cases failed with
  | true => exact .pure rfl
  | false =>
    cases tag with
    | ref ref kind =>
      refine .modify fun s F hs => ?_
      rw [zero_add]
      exact Balanced.note (n := .handed ref) hs ⟨⟨rfl, nofun⟩, nofun⟩ trivial nofun nofun
    | _ => exact .pure rfl

theorem resultRef_eq (r : Bool × Tag) : resultRef r = (0, resultCount r.1 r.2, 0, 0) := by
  obtain ⟨failed, tag⟩ := r
  cases failed <;> cases tag <;> rfl

theorem credit_append (log new : List Moment) : credit (log ++ new) = credit log + credit new := by
  simp [credit, notes]

/-- The counts before and after differ by what is handed back and by the notes in between. -/
theorem Balanced.span {s s' : Shim} {F Q : Hand} (hs : Balanced base s F)
    (hs' : Balanced ⟨s.log, base.ctor⟩ s' (Q + F)) :
    s'.liveRefs = s.liveRefs + Q.2.1 + credit (s'.log.drop s.log.length) := by
  obtain ⟨⟨new, hnew⟩, -⟩ := hs'.since
  have hlive := hs.counts.live
  have hlive' := hs'.counts.live
  simp only [Prod.fst_add, Prod.snd_add] at hlive'
  simp only at hnew
  rw [← hnew, credit_append] at hlive'
  rw [hlive', hlive, ← hnew, List.drop_left]
  abel

/-- A call starts its own span of notes. -/
theorem call_span {s : Shim} {F : Hand} {call : M α} {Q : α → Hand}
    (hcall : ∀ base, Hands (Balanced base) 0 call Q)
    (hrun : call s es = some (a, s', rest)) (hs : Balanced base s F) :
    Balanced base s' (Q a + F) ∧ s.log <+: s'.log ∧
      s'.liveRefs = s.liveRefs + (Q a).2.1 + credit (s'.log.drop s.log.length) := by
  have hfrom : Balanced ⟨s.log, base.ctor⟩ s (0 + F) := by
    rw [zero_add]
    exact ⟨⟨List.prefix_refl _, hs.since.2⟩, hs.owns, hs.counts, hs.runs, hs.tracks⟩
  have hend := (hcall _).elim hrun hfrom
  refine ⟨(hcall base).elim hrun (by rwa [zero_add]), hend.since.1, hs.span hend⟩

/-- A note that changes nothing. -/
structure Note.Idle (n : Note) : Prop where
  quiet : n.Quiet
  weight : n.weight = 0
  failed : n ≠ .drainFailed
  retained : ∀ ref count, n ≠ .retained ref count

/-- What is noted is true of the counts before and after. -/
theorem noted_hands {n : Shim → Shim → α → Note} {call : M α} {Q : α → Hand}
    (hcall : ∀ base, Hands (Balanced base) 0 call Q) (hn : ∀ s s' a, (n s s' a).Idle)
    (hfit : ∀ s s' a, s'.liveRefs = s.liveRefs + (Q a).2.1 + credit (s'.log.drop s.log.length) →
      (n s s' a).Fits s'.log) :
    Hands (Balanced base) 0 (noted n call) Q := by
  intro F s es r s' rest hrun hs
  unfold noted at hrun
  rw [Recorded.get_bind] at hrun
  obtain ⟨r₁, s₁, es₁, hcalled, htail⟩ := Recorded.bind_eq_some.mp hrun
  rw [zero_add] at hs
  obtain ⟨hend, -, hspan⟩ := call_span hcall hcalled hs
  rw [Recorded.modify_bind] at htail
  obtain ⟨rfl, rfl, rfl⟩ := Recorded.pure_eq_some.mp htail
  have hidle := hn s s₁ r
  refine Balanced.note ?_ hidle.quiet (hfit s s₁ r hspan) hidle.failed hidle.retained
  rw [hidle.weight]
  have hzero : ((0, 0, 0, 0) : Hand) + (Q r + F) = Q r + F := zero_add _
  exact hzero.symm ▸ hend

/-- The ref that a call hands out is its caller's, and the notes account for it. -/
theorem called_hands {call : M (Bool × Tag)}
    (hcall : ∀ base, Hands (Balanced base) 0 call resultRef) :
    Hands (Balanced base) 0 (called call) fun _ => 0 := by
  have hnoted : Hands (Balanced base) 0
      (noted (fun s s' r => .returned s.log.length s.liveRefs s'.liveRefs r.1 r.2) call) resultRef := by
    refine noted_hands hcall (fun _ _ _ => ⟨⟨⟨rfl, nofun⟩, nofun⟩, rfl, nofun, nofun⟩) ?_
    intro s s' r hspan
    rwa [resultRef_eq] at hspan
  exact hnoted.seq fun r => (noteHanded_hands r).seq fun _ => .pure rfl

theorem hostCalled_hands {call : M (Option JSValue)}
    (hcall : ∀ base, Hands (Balanced base) 0 call holdsAny) :
    Hands (Balanced base) 0 (hostCalled call) holdsAny := by
  refine noted_hands hcall (fun _ _ _ => ⟨⟨⟨rfl, nofun⟩, nofun⟩, rfl, nofun, nofun⟩) ?_
  intro s s' ret hspan
  have hnone : (holdsAny ret).2.1 = 0 := by cases ret <;> rfl
  rwa [hnone, add_zero] at hspan

/-- By induction on the depth: what runs inside a call keeps the balance. -/
theorem script_hands (fuel : ℕ) : Hands (Balanced base) 0 (script fuel) fun _ => 0 := by
  induction fuel generalizing base with
  | zero => exact .fail
  | succ fuel ih =>
    have hevent : Hands (Balanced base) 0 anyEvent fun _ => 0 := by
      refine .next fun e s a s' F he hs => ?_
      cases he
      exact hs
    refine hevent.seq fun e => ?_
    cases e with
    | answer a => exact .pure rfl
    | act a => exact (perform_hands a).seq fun _ => ih
    | call c => exact (called_hands fun _ => enter_hands ih c).seq fun _ => ih
    | hostFunction refObjects argv =>
      refine (hostCalled_hands fun _ => jsKmpHost_hands ih refObjects argv).seq fun ret => ?_
      exact (freeAny_hands ret).seq fun _ => ih
    | importModule name => exact (kmpModuleLoader_hands ih name).seq fun _ => ih

theorem kmpjsCall_hands (c : Call) : Hands (Balanced base) 0 (kmpjsCall c) fun _ => 0 :=
  fun F s es => called_hands (fun _ => enter_hands (script_hands es.length) c) F s es

end QuickJsKmp.Ledger
