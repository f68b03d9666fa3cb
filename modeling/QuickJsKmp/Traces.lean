import QuickJsKmp.ModuleLaws

/-!
# What rejected bytecode leaves behind

Reading a module adds it to the context for good. The shim checks what it can
in front of that: the header, the kind, the name as a bare context reads it. A
call that fails later leaves the definition behind, under a name that nothing
has claimed, or that the loader's row has.
-/

namespace QuickJsKmp

open Fallible (Prog Triple Keeps Yields Composes)

def Mods.rowsOf (s : Mods) (name : Name) : List KmpModule := s.rows.filter fun r => r.name = name

/-- The name has the rows and the definitions it had. -/
def Untouched (name : Name) (s s' : Mods) : Prop :=
  s'.rowsOf name = s.rowsOf name ∧ ∀ m, s'.Lists m name ↔ s.Lists m name

/-- The name of the module in the buffer. -/
def ownName (env : Env) (buf : Bytes) : Option Name :=
  (env.readObject (buf.drop headerSize)).defs.head?.map Prod.fst

/-- The checks let the body through, and the read that follows adds a definition
under the name. -/
def Enters (env : Env) (checks : L α) (body : α → Bytes) (s : Mods) (name : Name) : Prop :=
  ∃ a t, checks s = some (.ok a, t) ∧ name ∈ (env.readNow t.clock (body a)).defs.map Prod.fst

-- ---------------------------------------------------------------------------
-- Traces
-- ---------------------------------------------------------------------------

theorem Waits.untouched (h : Waits s s') : Untouched name s s' := by
  simp [Untouched, Mods.rowsOf, Mods.Lists, h.defs, h.rows]

/-- A new definition under the name is a trace. -/
theorem Mods.Lists.touched (h : Mods.Lists s' m name) (hnew : s.defs.length ≤ m) :
    ¬ Untouched name s s' := by
  rintro ⟨-, hlisted⟩
  obtain ⟨d, hd, -⟩ := (hlisted m).mp h
  have := (List.getElem?_eq_some_iff.mp hd).1
  omega

theorem afterRead_lists_of_mem (h : name ∈ (Env.readNow env s.clock body).defs.map Prod.fst) :
    ∃ m, s.defs.length ≤ m ∧ (Mods.afterRead s env body).Lists m name := by
  obtain ⟨d, hd, rfl⟩ := List.mem_map.mp h
  obtain ⟨i, hi⟩ := List.getElem?_of_mem hd
  refine ⟨s.defs.length + i, by omega, readDef d, ?_, rfl, rfl⟩
  simp [Mods.afterRead, withRead_defs, List.getElem?_append_right, hi]

theorem afterRead_untouched (h : name ∉ (Env.readNow env s.clock body).defs.map Prod.fst) :
    Untouched name s (s.afterRead env body) := by
  refine ⟨by simp [Mods.rowsOf, Mods.afterRead, withRead_rows], fun m => ⟨?_, ?_⟩⟩
  · rintro ⟨d, hd, hl, rfl⟩
    simp only [Mods.afterRead, withRead_defs] at hd
    rcases Nat.lt_or_ge m s.defs.length with hlt | hge
    · exact ⟨d, List.getElem?_append_left hlt ▸ hd, hl, rfl⟩
    · rw [List.getElem?_append_right hge, List.getElem?_map, Option.map_eq_some_iff] at hd
      obtain ⟨d', hd', rfl⟩ := hd
      exact absurd (List.mem_map.mpr ⟨d', List.mem_of_getElem? hd', rfl⟩) h
  · exact fun hlists => hlists.grows (afterRead_grows s env body : Grows none _ _)

-- ---------------------------------------------------------------------------
-- The checks
-- ---------------------------------------------------------------------------

theorem checkHeader_body (buf : Bytes) (s : Mods) :
    Triple (checkHeader buf) s (fun r _ => r.2 = buf.drop headerSize) (fun _ _ => True) := by
  refine (checkHeader_spec buf s).mono ?_ fun _ _ _ => trivial
  rintro r _ ⟨-, hheader⟩
  exact checkBytecodeHeader_body hheader

/-- Past the checks the body is what stands behind the header. -/
theorem runChecks_body (env : Env) (buf : Bytes) (s : Mods) :
    Triple (runChecks env buf) s (fun r _ => r.2.1 = buf.drop headerSize) (fun _ _ => True) := by
  refine .bind ((checkHeader_body buf s).mono ?_ fun _ _ _ => trivial)
  rintro ⟨_ | _, body⟩ s₁ hbody
  · exact .pure hbody
  · refine .bind ((peekModuleName_checks.waits s₁).mono (fun name s₂ _ => ?_) fun _ _ _ => trivial)
    refine .bind (((unlessAnonymous_checks moduleNameTaken_checks).waits s₂).mono ?_ fun _ _ _ => trivial)
    exact fun _ _ _ => .pure hbody

theorem registerChecks_body (env : Env) (buf : Bytes) (s : Mods) :
    Triple (registerChecks env buf) s (fun r _ => r.1 = buf.drop headerSize) (fun _ _ => True) := by
  refine .bind ((checkHeader_body buf s).mono ?_ fun _ _ _ => trivial)
  rintro ⟨_ | _, body⟩ s₁ hbody
  · exact .throw trivial
  · refine .bind ((peekModuleName_checks.waits s₁).mono (fun name s₂ _ => ?_) fun _ _ _ => trivial)
    split
    · exact .throw trivial
    · refine .bind ((moduleNameTaken_checks.waits s₂).mono ?_ fun _ _ _ => trivial)
      exact fun _ _ _ => .pure hbody

theorem checkLoaderBytecode_body (env : Env) (name : Name) (buf : Bytes) (s : Mods) :
    Triple (checkLoaderBytecode env name buf) s (fun body _ => body = buf.drop headerSize)
      (fun _ _ => True) := by
  refine .bind ((checkHeader_body buf s).mono ?_ fun _ _ _ => trivial)
  rintro ⟨_ | _, body⟩ s₁ hbody
  · exact .throw trivial
  · refine .bind ((peekModuleName_checks.waits s₁).mono (fun compiled s₂ _ => ?_) fun _ _ _ => trivial)
    split
    · exact .pure hbody
    · exact .throw trivial

-- ---------------------------------------------------------------------------
-- From the read on
-- ---------------------------------------------------------------------------

/-- What a failure leaves once the body is read: a definition under the name if
the read added one, nothing if it did not. -/
def Left (env : Env) (body : Bytes) (name : Name) (t s' : Mods) : Prop :=
  (name ∈ (env.readNow t.clock body).defs.map Prod.fst → ∃ m, t.defs.length ≤ m ∧ s'.Lists m name) ∧
    (name ∉ (env.readNow t.clock body).defs.map Prod.fst → Untouched name t s')

theorem readBytecodeBody_left {k : Option ℕ → L α}
    (hown : (env.readObject body).defs.head?.map Prod.fst = some name)
    (hmodule : Mods.Lists (t.afterRead env body) t.defs.length name →
      Triple (k (some t.defs.length)) (t.afterRead env body) (fun _ _ => True)
        (fun _ s' => s'.Lists t.defs.length name))
    (hscript : kind = .script → Triple (k none) (t.afterRead env body) (fun _ _ => True) (fun _ _ => False)) :
    Triple (readBytecodeBody env body kind >>= k) t (fun _ _ => True)
      (fun _ => Left env body name t) := by
  refine .bind ((readBytecodeBody_spec env body kind t).mono ?_ ?_)
  · rintro obj _ ⟨rfl, hobj⟩
    cases obj with
    | none => exact (hscript hobj).mono (fun _ _ h => h) fun _ _ h => h.elim
    | some m =>
      obtain ⟨-, rfl, name', reqs, nested, hnow⟩ := hobj
      obtain rfl : name' = name := by simpa [readNow_module hnow, Read.defs] using hown
      refine (hmodule (afterRead_lists hnow)).mono (fun _ _ h => h) fun _ s' h => ⟨?_, ?_⟩
      · exact fun _ => ⟨_, Nat.le_refl _, h⟩
      · intro hnot
        simp [hnow, Read.defs] at hnot
  · rintro _ _ ⟨rfl, -⟩
    exact ⟨afterRead_lists_of_mem, afterRead_untouched⟩

/-- A call that first checks and then reads: it leaves no trace exactly when its
checks keep the body from being read under the name. -/
theorem checks_left {checks : L α} {rest : α → L β} {body : α → Bytes} (hwaits : Keeps Waits checks)
    (hrest : ∀ a t, checks s = some (.ok a, t) →
      Triple (rest a) t (fun _ _ => True) (fun _ => Left env (body a) name t)) :
    Triple (checks >>= rest) s (fun _ _ => True)
      (fun _ s' => Untouched name s s' ↔ ¬ Enters env checks body s name) := by
  refine .bind (((hwaits s).and (.self checks s)).mono ?_ ?_)
  · rintro a t ⟨hw, hrun⟩
    refine (hrest a t hrun).mono (fun _ _ h => h) fun _ s' hleft => ?_
    have henters : Enters env checks body s name ↔
        name ∈ (env.readNow t.clock (body a)).defs.map Prod.fst := by
      constructor
      · rintro ⟨a', t', hrun', hmem⟩
        rw [hrun] at hrun'
        cases hrun'
        exact hmem
      · exact fun hmem => ⟨a, t, hrun, hmem⟩
    rw [henters]
    constructor
    · intro huntouched hmem
      obtain ⟨m, hle, hlists⟩ := hleft.1 hmem
      exact hlists.touched (by rwa [← hw.defs]) huntouched
    · intro hnot
      obtain ⟨hrows, hlists⟩ := hleft.2 hnot
      obtain ⟨hrows', hlists'⟩ : Untouched name s t := hw.untouched
      exact ⟨hrows.trans hrows', fun m => (hlists m).trans (hlists' m)⟩
  · rintro e s' ⟨hw, hrun⟩
    refine iff_of_true hw.untouched ?_
    rintro ⟨a, t, hrun', -⟩
    rw [hrun] at hrun'
    cases hrun'

theorem Mods.Lists.waits (h : Mods.Lists s m name) (hw : Waits s s') : s'.Lists m name :=
  h.grows (hw.grows : Grows none _ _)

theorem purge_lists (h : Mods.Lists s m name) (hr : s.Resolved m) :
    s.purge.Lists m name := by
  obtain ⟨d, hd, hl, rfl⟩ := h
  obtain ⟨d', hd', hr⟩ := hr
  rw [hd] at hd'
  cases hd'
  exact ⟨{ d with listed := d.listed && d.resolved }, by simp [Mods.purge, Mods.note, hd], by simp [hl, hr], rfl⟩

/-- A failed resolution evicts the unresolved definitions, and keeps its own. -/
theorem jsResolveModule_lists (h : Mods.Lists s m name) :
    Triple (jsResolveModule env fuel m) s (fun _ s' => s'.Lists m name)
      (fun _ s' => s'.Lists m name) := by
  refine .onError (((resolveModule_grows env fuel m s).and (resolveModule_marks env fuel m s)).mono ?_ ?_)
  · exact fun _ _ h' => h.grows h'.1
  · rintro _ s' ⟨hgrows, hmark⟩
    have hlists : (s'.leave m).Lists m name := (h.grows hgrows : s'.Lists m name)
    exact purge_lists hlists hmark

-- ---------------------------------------------------------------------------
-- The calls
-- ---------------------------------------------------------------------------

variable {env : Env} {s : Mods}

theorem unlessAnonymous_claim_lists (h : Mods.Lists s m name') :
    Triple (unlessAnonymous name (claimModuleName env name .evaluated none (some m))) s
      (fun _ _ => True) (fun _ s' => s'.Lists m name') := by
  unfold unlessAnonymous
  split
  · exact .pure trivial
  · exact (claimModuleName_spec env name .evaluated none (some m) s).mono (fun _ _ _ => trivial)
      fun _ _ hw => h.waits hw

theorem runModule_lists (h : Mods.Lists s m name') :
    Triple (runModule env fuel name m) s (fun _ _ => True) (fun _ s' => s'.Lists m name') := by
  refine .bind ((allocate_checks.waits s).mono (fun _ s₁ hw => ?_) fun _ _ hw => h.waits hw)
  refine .bind ((jsResolveModule_lists (h.waits hw)).mono (fun _ s₂ h₂ => ?_) fun _ _ h₂ => h₂)
  exact .bind ((unlessAnonymous_claim_lists h₂).mono (fun _ _ _ => .pure trivial) fun _ _ h₃ => h₃)

theorem kmpjsRunBytecode_left (hown : ownName env buf = some name) :
    Triple (kmpjsRunBytecode env fuel buf) s (fun _ _ => True)
      (fun _ s' => Untouched name s s' ↔
        ¬ Enters env (runChecks env buf) (fun a => a.2.1) s name) := by
  refine checks_left runChecks_checks.waits ?_
  rintro ⟨kind, body, name'⟩ t hrun
  obtain rfl : body = buf.drop headerSize := (runChecks_body env buf s).ok hrun
  refine readBytecodeBody_left hown (fun hlists => ?_) fun hkind => ?_
  · exact runModule_lists hlists
  · exact .pure trivial

theorem kmpjsRegisterModuleBytecode_left (hown : ownName env buf = some name) :
    Triple (kmpjsRegisterModuleBytecode env buf) s (fun _ _ => True)
      (fun _ s' => Untouched name s s' ↔
        ¬ Enters env (registerChecks env buf) Prod.fst s name) := by
  refine checks_left registerChecks_checks.waits ?_
  rintro ⟨body, name'⟩ t hrun
  obtain rfl : body = buf.drop headerSize := (registerChecks_body env buf s).ok hrun
  refine readBytecodeBody_left hown (fun hlists => ?_) (by simp)
  refine .bind ((allocate_checks.waits _).mono (fun _ s₁ hw => ?_) fun _ _ hw => hlists.waits hw)
  refine .bind ((claimModuleName_spec env name' .bytecode none _ s₁).mono ?_ ?_)
  · exact fun _ _ _ => .pure trivial
  · exact fun _ _ hw' => (hlists.waits hw).waits hw'

-- ---------------------------------------------------------------------------
-- A loader's answer
-- ---------------------------------------------------------------------------

/-- An import of the name asks the host, which answers with this bytecode. -/
structure Served (env : Env) (s : Mods) (name : Name) (buf : Bytes) : Prop where
  answers : ∃ loader, env.loader = some loader ∧ loader (s.clock + 1) name = .bytecode buf
  granted : env.refused s.clock = false
  unlisted : s.findLoaded name = none
  unclaimed : s.findModule name = none

/-- The state in which the host has answered. -/
def Mods.asked (s : Mods) (name : Name) (buf : Bytes) : Mods :=
  { s with clock := s.clock + 2, log := .asked name false (s.clock + 1) (.bytecode buf) :: s.log }

/-- What an import does with the module that was read. -/
def takeRead (env : Env) (name : Name) (k : ℕ → L α) (obj : Option ℕ) : L α := do
  allocate env
  let m ← asModule obj
  claimModuleName env name .loaded none (some m)
  note (.imported name m)
  k m

theorem kmpModuleLoader_served (h : Served env s name buf) :
    kmpModuleLoader env resolve name { s with clock := s.clock + 1 } =
      (moduleFromBytecode env name buf >>= fun m =>
        claimModuleName env name .loaded none (some m) >>= fun _ => pure m) (s.asked name buf) := by
  obtain ⟨loader, hloader, hanswer⟩ := h.answers
  have hrow : Mods.findModule { s with clock := s.clock + 1 } name = none := h.unclaimed
  have hfree : Mods.findLoaded { s with clock := s.clock + 1 } name = none := h.unlisted
  have hknows : Mods.knows { s with clock := s.clock + 1 } name = false := by
    simp [Mods.knows, hrow, hfree]
  simp only [kmpModuleLoader, bind, Fallible.get, hrow, hloader]
  simp only [loadFromHost, moduleFromHost, tick, note, bind, Fallible.get, Fallible.modify, pure,
    hanswer, hknows]
  rfl

theorem hostResolve_served (h : Served env s name buf) (k : ℕ → L α) :
    (hostResolveImportedModule env resolve name >>= k) s =
      (checkLoaderBytecode env name buf >>= fun body =>
        readBytecodeBody env body .module >>= takeRead env name k) (s.asked name buf) := by
  have hfree : Mods.findLoaded { s with clock := s.clock + 1 } name = none := h.unlisted
  have hlookup : lookupModule env resolve name s =
      kmpModuleLoader env resolve name { s with clock := s.clock + 1 } := by
    simp only [lookupModule, bind, allocate_run h.granted, Fallible.get, hfree]
  have hrun : ∀ l : ℕ → L α, (lookupModule env resolve name >>= l) s =
      ((moduleFromBytecode env name buf >>= fun m =>
        claimModuleName env name .loaded none (some m) >>= fun _ =>
          pure m) >>= l) (s.asked name buf) := by
    intro l
    rw [kmpModuleLoader_served h] at hlookup
    simp only [Bind.bind] at hlookup ⊢
    rw [hlookup]
  simp only [hostResolveImportedModule, Fallible.bind_assoc, Fallible.pure_bind, hrun,
    moduleFromBytecode]
  rfl

theorem served_left {k : ℕ → L α} (h : Served env s name buf) (hown : ownName env buf = some own)
    (hk : ∀ t m, Mods.Lists t m name →
      Triple (k m) t (fun _ _ => True) (fun _ s' => s'.Lists m name)) :
    Triple (hostResolveImportedModule env resolve name >>= k) s (fun _ _ => True)
      (fun _ s' => Untouched own s s' ↔
        ¬ Enters env (checkLoaderBytecode env name buf) id (s.asked name buf) own) := by
  have hleft : Triple (checkLoaderBytecode env name buf >>= fun body =>
      readBytecodeBody env body .module >>= takeRead env name k) (s.asked name buf) (fun _ _ => True)
      (fun _ s' => Untouched own (s.asked name buf) s' ↔
        ¬ Enters env (checkLoaderBytecode env name buf) id (s.asked name buf) own) := by
    refine checks_left checkLoaderBytecode_checks.waits ?_
    intro body t hrun
    obtain rfl : body = buf.drop headerSize := (checkLoaderBytecode_body env name buf _).ok hrun
    obtain ⟨-, -, reqs, nested, hobj⟩ := (checkLoaderBytecode_spec env name buf _).ok hrun
    obtain rfl : name = own := by simpa [ownName, hobj, Read.defs] using hown
    refine readBytecodeBody_left hown (fun hlists => ?_) (by simp)
    refine .bind ((allocate_checks.waits _).mono (fun _ s₁ hw => ?_) fun _ _ hw => hlists.waits hw)
    refine .bind (.pure (.bind ((claimModuleName_spec env name .loaded none _ s₁).mono ?_ ?_)))
    · rintro _ _ ⟨s₂, hw', rfl⟩
      have hlists' : s₂.Lists t.defs.length name := (hlists.waits hw).waits hw'
      exact .modify_bind (hk _ _ hlists')
    · exact fun _ _ hw' => (hlists.waits hw).waits hw'
  intro r s' hrun
  rw [hostResolve_served h] at hrun
  exact hleft r s' hrun

theorem jsLoadModule_left (h : Served env s name buf) (hown : ownName env buf = some own) :
    Triple (jsLoadModule env fuel name) s (fun _ _ => True)
      (fun _ s' => Untouched own s s' ↔
        ¬ Enters env (checkLoaderBytecode env name buf) id (s.asked name buf) own) := by
  refine served_left h hown fun t m hlists => ?_
  exact .bind ((jsResolveModule_lists hlists).mono (fun _ _ _ => .pure trivial) fun _ _ h' => h')

theorem resolveEntry_left (h : Served env s name buf) (hown : ownName env buf = some own) :
    Triple (resolveEntry env (resolveModule env fuel) importer i name) s (fun _ _ => True)
      (fun _ s' => Untouched own s s' ↔
        ¬ Enters env (checkLoaderBytecode env name buf) id (s.asked name buf) own) := by
  refine served_left h hown fun t m hlists => ?_
  have hbound : (t.bindEntry importer i m).Lists m name :=
    hlists.grows (bindEntry_grows t importer i m)
  refine .modify_bind (.onError ((resolveModule_grows env fuel m _).mono (fun _ _ _ => trivial) ?_))
  exact fun _ t₂ hgrows => (hbound.grows hgrows : t₂.Lists m name)

-- ---------------------------------------------------------------------------
-- Every way in
-- ---------------------------------------------------------------------------

/-- Where bytecode comes in: the two calls that are given some, and the import,
dynamic or static, that the loader answers with some. -/
inductive Supply
  | run (fuel : ℕ) (buf : Bytes)
  | register (buf : Bytes)
  | dynamicImport (fuel : ℕ) (name : Name) (buf : Bytes)
  | staticImport (fuel importer entry : ℕ) (name : Name) (buf : Bytes)

def Supply.buf : Supply → Bytes
  | .run _ buf | .register buf | .dynamicImport _ _ buf | .staticImport _ _ _ _ buf => buf

/-- It fails, and no module body has started. -/
def Supply.Fails (env : Env) (s s' : Mods) : Supply → Prop
  | .run fuel buf => ∃ e, kmpjsRunBytecode env fuel buf s = some (.error e, s')
  | .register buf => ∃ e, kmpjsRegisterModuleBytecode env buf s = some (.error e, s')
  | .dynamicImport fuel name buf =>
    Served env s name buf ∧ ∃ e, jsLoadModule env fuel name s = some (.error e, s')
  | .staticImport fuel importer entry name buf =>
    Served env s name buf ∧
      ∃ e, resolveEntry env (resolveModule env fuel) importer entry name s = some (.error e, s')

/-- Its checks let the body through to a read that adds a definition under the
name. -/
def Supply.Enters (env : Env) (s : Mods) (name : Name) : Supply → Prop
  | .run _ buf => QuickJsKmp.Enters env (runChecks env buf) (fun a => a.2.1) s name
  | .register buf => QuickJsKmp.Enters env (registerChecks env buf) Prod.fst s name
  | .dynamicImport _ asked buf | .staticImport _ _ _ asked buf =>
    QuickJsKmp.Enters env (checkLoaderBytecode env asked buf) id (s.asked asked buf) name

/-- Bytecode that fails before its body starts leaves its name untouched exactly
when the checks in front of the read keep it out. -/
theorem rejected_untouched_iff {op : Supply} (h : op.Fails env s s')
    (hown : ownName env op.buf = some own) : Untouched own s s' ↔ ¬ op.Enters env s own := by
  cases op with
  | run fuel buf =>
    obtain ⟨e, h⟩ := h
    exact (kmpjsRunBytecode_left hown).error h
  | register buf =>
    obtain ⟨e, h⟩ := h
    exact (kmpjsRegisterModuleBytecode_left hown).error h
  | dynamicImport fuel name buf =>
    obtain ⟨hserved, e, h⟩ := h
    exact (jsLoadModule_left hserved hown).error h
  | staticImport fuel importer entry name buf =>
    obtain ⟨hserved, e, h⟩ := h
    exact (resolveEntry_left hserved hown).error h

/-- A table in which `b` is registered already. -/
def withRow : Mods := { Mods.init with rows := [⟨ascii "b", .source, some [], none⟩] }

theorem rejected_untouched_iff_taken :
    ∃ s', Supply.Fails twoModules withRow s' (.register (bytecodeHeader .module ++ moduleBody 98 [])) ∧
      (Untouched (ascii "b") withRow s' ↔ ¬ Supply.Enters twoModules withRow (ascii "b")
        (.register (bytecodeHeader .module ++ moduleBody 98 []))) := by
  have hfails : ∃ s', Supply.Fails twoModules withRow s'
      (.register (bytecodeHeader .module ++ moduleBody 98 [])) := ⟨_, _, rfl⟩
  obtain ⟨s', hfails⟩ := hfails
  exact ⟨s', hfails, rejected_untouched_iff hfails rfl⟩

/-- A module behind the header of a script is refused, and stays. -/
theorem refused_script_stays :
    ¬ ∀ env op s s' own, Supply.Fails env s s' op → ownName env op.buf = some own →
      Untouched own s s' := by
  intro h
  have huntouched := h twoModules (.run 1 (bytecodeHeader .script ++ moduleBody 98 [])) .init _
    (ascii "b") ⟨_, rfl⟩ rfl
  refine Mods.Lists.touched (m := 0) ?_ (Nat.zero_le _) huntouched
  exact ⟨readDef (ascii "b", []), rfl, rfl, rfl⟩

end QuickJsKmp
