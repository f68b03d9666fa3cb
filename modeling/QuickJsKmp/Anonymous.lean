import QuickJsKmp.Registration

/-!
# Modules without a name

A module in angle brackets gets no row, but the engine lists its definition like any
other, and an import goes to the list first. What keeps it out of reach is only that
nobody asks for such a name. `Apart` says what every call keeps when nobody does.
-/

namespace QuickJsKmp

open Fallible (Prog Triple Keeps Yields Composes Chains Runs)

-- ---------------------------------------------------------------------------
-- Who imports what
-- ---------------------------------------------------------------------------

section Specifiers

variable (env : Env) (A : Name → Prop)

/-- The source has no import of this name. -/
def Env.Shuns (code : Bytes) : Prop := ∀ reqs, env.parse code = some reqs → ∀ n ∈ reqs, ¬ A n

/-- No definition in the bytecode has one. -/
def Env.ShunsBytecode (buf : Bytes) : Prop :=
  ∀ kind body, checkBytecodeHeader buf = .ok (kind, body) → ∀ d ∈ (env.readObject body).defs, ∀ n ∈ d.2, ¬ A n

def LoaderAnswer.Shuns : LoaderAnswer → Prop
  | .source code => env.Shuns A code
  | .bytecode buf => env.ShunsBytecode A buf
  | .unknown | .other | .failed _ => True

/-- Nor has anything that the host supplies, or what a read that was cut off has read. -/
structure Env.Outside : Prop where
  answers : ∀ {loader}, env.loader = some loader → ∀ t n, (loader t n).Shuns env A
  cut : ∀ {t reqs}, env.cut t = some reqs → ∀ l ∈ reqs, ∀ n ∈ l, ¬ A n

/-- The name of the module that the call evaluates. -/
def LoadOp.Evaluates (name : Name) : LoadOp → Prop
  | .evalModule _ name' => name' = name
  | .runBytecode buf => ∃ body reqs nested, checkBytecodeHeader buf = .ok (.module, body) ∧
      env.readObject body = .module name reqs nested
  | _ => False

/-- No import in what the call brings is of a name in `A`. -/
def LoadOp.Shuns : LoadOp → Prop
  | .registerModule _ code => env.Shuns A code
  | .registerModuleBytecode buf => env.ShunsBytecode A buf
  | .evalModule code _ => env.Shuns A code
  | .runBytecode buf => env.ShunsBytecode A buf
  | .dynamicImport name => ¬ A name

/-- `A` has the names of the anonymous modules, and nobody imports one of them. -/
def shuns (_ : Mods) (p : ℕ × LoadOp) : Prop :=
  p.2.Shuns env A ∧ ∀ {name}, p.2.Evaluates env name → anonymous name → A name

/-- The definition looks up none of the names any more. -/
def ModuleDef.Clear (d : ModuleDef) : Prop := d.resolved = false → ∀ e ∈ d.reqs, ¬ A e.name

/-- Nothing in the two stores has an import of the name before it. -/
structure Mods.Clean (s : Mods) : Prop where
  reqs : ∀ d ∈ s.defs, d.Clear A
  sources : ∀ r ∈ s.rows, ∀ code, r.source = some code → env.Shuns A code

end Specifiers

/-- The definition is the one that the row's source makes. -/
def Compiled (s : Mods) (r : KmpModule) (i : ℕ) : Prop :=
  ∃ code, r.source = some code ∧ s.originOf i = some (.table code)

/-- No import of the name, and no definition for a row but from the row itself or by a read. -/
structure Apart (env : Env) (A : Name → Prop) (s s' : Mods) : Prop where
  log : s.log <:+ s'.log
  rows : s.rows <+: s'.rows
  named : ∀ {i : ℕ} {d : ModuleDef}, s.defs[i]? = some d →
    ∃ d' : ModuleDef, s'.defs[i]? = some d' ∧ d'.name = d.name ∧ d'.origin = d.origin
  old : ∀ {i n}, i < s.defs.length → s'.Lists i n → s.Lists i n
  clean : s'.Clean env A
  imports : ∀ {n m}, .imported n m ∈ s'.log → .imported n m ∈ s.log ∨ ¬ A n ∧ s'.Named m n
  new : ∀ {n r i}, ¬ A n → s.findModule n = some r → s'.Lists i n →
    s.Lists i n ∨ (∃ shadows, .read i shadows ∈ s'.log) ∨ Compiled s' r i

/-- The engine was clean, and a part of a call keeps it so. -/
def StaysApart (env : Env) (A : Name → Prop) (s s' : Mods) : Prop := s.Clean env A → Apart env A s s'

variable {env : Env} {A : Name → Prop} {s s' : Mods}

theorem Apart.length_le (h : Apart env A s s') : s.defs.length ≤ s'.defs.length := by
  refine Nat.le_of_not_lt fun hlt => ?_
  obtain ⟨d', hd', -⟩ := h.named (List.getElem?_eq_getElem hlt)
  exact Nat.lt_irrefl _ (List.getElem?_eq_some_iff.mp hd').1

theorem Apart.origin (h : Apart env A s s') (ho : s.originOf i = some o) :
    s'.originOf i = some o := by
  obtain ⟨d, hd, rfl⟩ := Option.map_eq_some_iff.mp ho
  obtain ⟨d', hd', -, horigin⟩ := h.named hd
  rw [Mods.originOf, hd', Option.map_some, horigin]

theorem Apart.isNamed (h : Apart env A s s') (hn : s.Named m n) : s'.Named m n := by
  obtain ⟨d, hd, rfl⟩ := hn
  obtain ⟨d', hd', hname, -⟩ := h.named hd
  exact ⟨d', hd', hname⟩

theorem staysApart_composes (env : Env) (A : Name → Prop) : Composes (StaysApart env A) where
  refl := fun s hclean => ⟨List.suffix_refl _, List.prefix_refl _, fun hd => ⟨_, hd, rfl, rfl⟩,
    fun _ hl => hl,
    hclean, fun hm => .inl hm, fun _ _ hl => .inl hl⟩
  trans := by
    intro s t u h h' hclean
    have hs := h hclean
    have ht := h' hs.clean
    refine ⟨hs.log.trans ht.log, hs.rows.trans ht.rows, fun hd => ?_, fun hlt hl => ?_,
      ht.clean, fun hm => ?_,
      fun hn hr hl => ?_⟩
    · obtain ⟨d₁, hd₁, hname₁, horigin₁⟩ := hs.named hd
      obtain ⟨d₂, hd₂, hname₂, horigin₂⟩ := ht.named hd₁
      exact ⟨d₂, hd₂, hname₂.trans hname₁, horigin₂.trans horigin₁⟩
    · exact hs.old hlt (ht.old (Nat.lt_of_lt_of_le hlt hs.length_le) hl)
    · rcases ht.imports hm with hm | hm
      · exact (hs.imports hm).imp_right fun hm => ⟨hm.1, ht.isNamed hm.2⟩
      · exact .inr hm
    · rcases ht.new hn (findModule_stays hs.rows hr) hl with hl | hl
      · rcases hs.new hn hr hl with hl | ⟨shadows, hread⟩ | ⟨code, hcode, horigin⟩
        · exact .inl hl
        · exact .inr (.inl ⟨shadows, ht.log.subset hread⟩)
        · exact .inr (.inr ⟨code, hcode, ht.origin horigin⟩)
      · exact .inr hl

theorem staysApart_chains (env : Env) (A : Name → Prop) :
    Chains (StaysApart env A) (fun (_ : Failure) => StaysApart env A) :=
  ⟨staysApart_composes env A, (staysApart_composes env A).trans⟩

/-- However it ends. -/
abbrev Parting (env : Env) (A : Name → Prop) (m : L α) (s : Mods) : Prop :=
  Runs (StaysApart env A) (fun _ => StaysApart env A) m s

theorem parting_of_clean {m : L α} (h : s.Clean env A → Parting env A m s) : Parting env A m s :=
  Triple.mono (Triple.imp h) (fun _ _ h' hclean => h' hclean hclean) fun _ _ h' hclean =>
    h' hclean hclean

-- ---------------------------------------------------------------------------
-- Steps
-- ---------------------------------------------------------------------------

/-- The stores keep what they have, and no import is noted. -/
theorem StaysApart.same (hlog : Quiet s s') (hrows : s'.rows = s.rows)
    (hdefs : ∀ i : ℕ, ∃ f : ModuleDef → ModuleDef, s'.defs[i]? = (s.defs[i]?).map f ∧
      ∀ d, (f d).name = d.name ∧ (f d).origin = d.origin ∧ ((f d).listed → d.listed) ∧
        (d.Clear A → (f d).Clear A)) : StaysApart env A s s' := by
  have hlists : ∀ {i n}, s'.Lists i n → s.Lists i n := by
    rintro i n ⟨d', hd', hl, hname⟩
    obtain ⟨f, hf, hkeeps⟩ := hdefs i
    obtain ⟨d, hd, rfl⟩ := Option.map_eq_some_iff.mp (hf.symm.trans hd')
    exact ⟨d, hd, (hkeeps d).2.2.1 hl, (hkeeps d).1.symm.trans hname⟩
  intro hclean
  refine ⟨hlog.suffix, hrows ▸ List.prefix_refl _, fun {i d} hd => ?_,
    fun _ hl => hlists hl, ⟨?_, ?_⟩,
    fun hm => .inl (hlog.imported hm), fun _ _ hl => .inl (hlists hl)⟩
  · obtain ⟨f, hf, hkeeps⟩ := hdefs i
    exact ⟨f d, by rw [hf, hd]; rfl, (hkeeps d).1, (hkeeps d).2.1⟩
  · intro d' hd'
    obtain ⟨i, hi⟩ := List.getElem?_of_mem hd'
    obtain ⟨f, hf, hkeeps⟩ := hdefs i
    obtain ⟨d, hd, rfl⟩ := Option.map_eq_some_iff.mp (hf.symm.trans hi)
    exact (hkeeps d).2.2.2 (hclean.reqs d (List.mem_of_getElem? hd))
  · exact fun r hr => hclean.sources r (hrows ▸ hr)

theorem Waits.staysApart (h : Waits s s') : StaysApart env A s s' := by
  refine .same (.inl h.log) h.rows fun i => ⟨id, by rw [h.defs, Option.map_id]; rfl, fun d => ?_⟩
  exact ⟨rfl, rfl, id, id⟩

theorem Checks.parting {m : L α} (h : Checks m) (s : Mods) : Parting env A m s :=
  (h s).mono (fun _ _ hw => hw.staysApart) fun _ _ hw => hw.1.staysApart

theorem StaysApart.note (s : Mods) (he : ∀ n m, e ≠ .imported n m) :
    StaysApart env A s (s.note e) := by
  refine .same (.inr ⟨e, rfl, he⟩) rfl fun i => ⟨id, by rw [Option.map_id]; rfl, fun d => ?_⟩
  exact ⟨rfl, rfl, id, id⟩

theorem StaysApart.imported (hn : ¬ A n) (h : s.Lists m n) :
    StaysApart env A s (s.note (.imported n m)) := by
  intro hclean
  refine ⟨List.suffix_cons _ _, List.prefix_refl _, fun hd => ⟨_, hd, rfl, rfl⟩, fun _ hl => hl,
    ⟨hclean.reqs, hclean.sources⟩, fun hm => ?_, fun _ _ hl => .inl hl⟩
  rcases List.mem_cons.mp hm with heq | hm
  · cases heq
    obtain ⟨d, hd, -, hname⟩ := h
    exact .inr ⟨hn, d, hd, hname⟩
  · exact .inl hm

/-- The definition keeps its name and its place in the list, and imports nothing it should not. -/
theorem StaysApart.setDef {f : ModuleDef → ModuleDef}
    (hf : ∀ d, (f d).name = d.name ∧ (f d).origin = d.origin ∧
      ((f d).listed → d.listed) ∧ (d.Clear A → (f d).Clear A))
    (s : Mods) (m : ℕ) : StaysApart env A s (s.setDef m f) := by
  refine .same (.inl rfl) rfl fun i =>
    ⟨fun d => if m = i then f d else d, getElem?_setDef s m i f, fun d => ?_⟩
  split
  · exact hf d
  · exact ⟨rfl, rfl, id, id⟩

theorem StaysApart.free (s : Mods) (m : ℕ) : StaysApart env A s (s.free m) := by
  refine (staysApart_composes env A).trans
    (.setDef (f := fun d => { d with listed := false }) ?_ s m) (.note _ (by simp))
  exact fun d => ⟨rfl, rfl, by simp, id⟩

theorem StaysApart.purge (s : Mods) : StaysApart env A s s.purge := by
  refine .same (.inr ⟨_, rfl, by simp⟩) rfl fun i => ⟨_, List.getElem?_map, fun d => ?_⟩
  exact ⟨rfl, rfl, fun h => (Bool.and_eq_true_iff.mp h).1, id⟩

/-- A new definition, of a name that has no row unless it comes from there. -/
theorem StaysApart.add {d : ModuleDef} (hdefs : s'.defs = s.defs ++ [d]) (hrows : s'.rows = s.rows)
    (hlog : Quiet s s')
    (hreqs : d.Clear A)
    (hfits : ∀ {r}, ¬ A d.name → s.findModule d.name = some r →
      (∃ shadows, .read s.defs.length shadows ∈ s'.log) ∨ ∃ code, r.source = some code ∧
        d.origin = .table code) :
    StaysApart env A s s' := by
  have hlists : ∀ {i n}, s'.Lists i n → s.Lists i n ∨ i = s.defs.length ∧ d.name = n := by
    intro i n hl
    have hl : (s.add d).Lists i n := by rwa [Mods.Lists, hdefs] at hl
    exact (lists_add.mp hl).imp_right fun h => ⟨h.1, h.2.2⟩
  have hlast : s'.defs[s.defs.length]? = some d := by simp [hdefs]
  intro hclean
  refine ⟨hlog.suffix, hrows ▸ List.prefix_refl _, fun {i d'} hd' => ⟨d', ?_, rfl, rfl⟩,
    fun hlt hl => ?_,
    ⟨fun d' hd' => ?_, fun r hr => hclean.sources r (hrows ▸ hr)⟩, fun hm =>
      .inl (hlog.imported hm), fun hn hr hl => ?_⟩
  · rw [hdefs, List.getElem?_append_left (List.getElem?_eq_some_iff.mp hd').1, hd']
  · exact (hlists hl).resolve_right fun h => Nat.ne_of_lt hlt h.1
  · rw [hdefs] at hd'
    rcases List.mem_append.mp hd' with hd' | hd'
    · exact hclean.reqs d' hd'
    · exact List.mem_singleton.mp hd' ▸ hreqs
  · rcases hlists hl with hl | ⟨rfl, rfl⟩
    · exact .inl hl
    · refine .inr ((hfits hn hr).imp_right ?_)
      rintro ⟨code, hcode, horigin⟩
      exact ⟨code, hcode, by rw [Mods.originOf, hlast, Option.map_some, horigin]⟩

theorem StaysApart.claim (s : Mods) {r : KmpModule}
    (hr : ∀ code, r.source = some code → env.Shuns A code) :
    StaysApart env A s { s with rows := s.rows ++ [r] } := by
  intro hclean
  refine ⟨List.suffix_refl _, List.prefix_append _ _, fun hd => ⟨_, hd, rfl, rfl⟩, fun _ hl => hl,
    ⟨hclean.reqs, fun r' hr' => ?_⟩, fun hm => .inl hm, fun _ _ hl => .inl hl⟩
  rcases List.mem_append.mp hr' with hr' | hr'
  · exact hclean.sources r' hr'
  · exact List.mem_singleton.mp hr' ▸ hr

theorem StaysApart.withRead (s : Mods) {ds : List (Name × List Name)}
    (hds : ∀ d ∈ ds, ∀ n ∈ d.2, ¬ A n) :
    StaysApart env A s (s.withRead ds) := by
  induction ds generalizing s with
  | nil => exact (staysApart_composes env A).refl s
  | cons d ds ih =>
    have hread : StaysApart env A s ((s.add (readDef d)).note (.read s.defs.length (s.shadows d.1))) := by
      refine .add rfl rfl (.inr ⟨_, rfl, by simp⟩) ?_ fun _ _ => .inl ⟨_, List.mem_cons_self⟩
      simp only [ModuleDef.Clear, readDef, List.mem_map]
      rintro - _ ⟨n, hn, rfl⟩
      exact hds d List.mem_cons_self n hn
    exact (staysApart_composes env A).trans hread
      (ih _ fun d hd => hds d (List.mem_cons_of_mem _ hd))

/-- Also when the read is cut off. -/
theorem StaysApart.afterRead (henv : env.Outside A) (s : Mods)
    (hbody : ∀ d ∈ (env.readObject body).defs, ∀ n ∈ d.2, ¬ A n) :
    StaysApart env A s (s.afterRead env body) := by
  refine (staysApart_composes env A).trans (waits_tick s).staysApart (.withRead _ ?_)
  unfold Env.readNow
  split
  · exact hbody
  · rename_i reqs hcut
    intro d hd
    simp only [Read.refuse, Read.defs, ← List.map_uncurry_zip_eq_zipWith, List.mem_map] at hd
    obtain ⟨p, hp, rfl⟩ := hd
    exact henv.cut hcut p.2 (List.of_mem_zip hp).2

-- ---------------------------------------------------------------------------
-- Imports
-- ---------------------------------------------------------------------------

/-- What the pieces of an import ask of the resolution below them. -/
structure Shunning (env : Env) (A : Name → Prop) (resolve : ℕ → L Unit) : Prop where
  grows : ∀ m, Keeps (Grows none) (resolve m)
  staysApart : ∀ m s, Parting env A (resolve m) s

section Imports

variable {resolve : ℕ → L Unit}

theorem evalBody_parting (hres : Shunning env A resolve) (hcode : env.Shuns A code) :
    Parting env A (evalBody env resolve code m) s := by
  have hC := staysApart_chains env A
  unfold evalBody
  split
  · exact Triple.throw (hC.composes.refl s)
  · rename_i reqs hparse
    refine .bind hC (allocate_checks.parting s) fun _ t _ =>
      .modify_bind hC (.setDef ?_ t m) (hres.staysApart m _)
    refine fun d => ⟨rfl, rfl, id, fun _ _ e he => ?_⟩
    obtain ⟨n, hn, rfl⟩ := List.mem_map.mp he
    exact hcode reqs hparse n hn

theorem newModuleDef_parting {k : ℕ → L α}
    (hadd : StaysApart env A s (s.add ⟨name, reqs.map fun n => ⟨n, none⟩, false, true, origin⟩))
    (hk : Parting env A (k s.defs.length) (s.add ⟨name, reqs.map fun n => ⟨n, none⟩, false, true, origin⟩)) :
    Parting env A (newModuleDef name reqs origin >>= k) s := by
  have hR := staysApart_composes env A
  exact newModuleDef_bind (Triple.mono hk (fun _ _ h => hR.trans hadd h) fun _ _ h => hR.trans hadd h)

/-- The name has no row, or the source is that of the row. -/
theorem compileModule_parting (hres : Shunning env A resolve) (hcode : env.Shuns A code)
    (hfits : ∀ {r}, ¬ A name → s.findModule name = some r → ∃ code, r.source = some code ∧
      origin = .table code) :
    Parting env A (compileModule env resolve code name origin) s := by
  have hC := staysApart_chains env A
  have heval : Parting env A (jsEval env resolve code name origin) s := by
    refine .bind_of hC (allocate_checks.parting s) (allocate_checks.waits s) fun _ t _ hw => ?_
    have hadd : StaysApart env A t (t.add ⟨name, [], false, true, origin⟩) := by
      refine .add rfl rfl (.inl rfl) (by simp [ModuleDef.Clear]) fun hn hr => .inr (hfits hn ?_)
      rwa [Mods.findModule, hw.rows] at hr
    refine newModuleDef_parting hadd
      (Runs.bind hC (.onError (evalBody_parting hres hcode) fun _ u h => ?_) ?_)
    · exact hC.composes.trans h (.free u _)
    · exact fun _ u _ => .pure hC _ u
  exact .bind hC heval fun m t _ => .bind hC (allocate_checks.parting t) fun _ u _ => .pure hC m u

theorem readBytecodeBody_parting (henv : env.Outside A)
    (hbody : ∀ d ∈ (env.readObject body).defs, ∀ n ∈ d.2, ¬ A n) :
    Parting env A (readBytecodeBody env body kind) s := by
  refine (readBytecodeBody_spec env body kind s).mono ?_ ?_
  · rintro _ _ ⟨rfl, -⟩
    exact .afterRead henv s hbody
  · rintro _ _ ⟨rfl, -⟩
    exact .afterRead henv s hbody

theorem moduleFromBytecode_parting (henv : env.Outside A) (hbuf : env.ShunsBytecode A buf) :
    Parting env A (moduleFromBytecode env name buf) s := by
  have hC := staysApart_chains env A
  refine .bind_of hC (checkLoaderBytecode_checks.parting s)
    (checkLoaderBytecode_spec env name buf s) ?_
  rintro body t - ⟨-, hheader, -⟩
  refine .bind hC (readBytecodeBody_parting henv (hbuf _ _ hheader)) fun _ u _ => ?_
  exact .bind hC (allocate_checks.parting u) fun _ v _ => asModule_checks.parting v

theorem moduleFromHost_parting (henv : env.Outside A) (hres : Shunning env A resolve)
    (hloader : env.loader = some loader) (hnone : s.findModule name = none) :
    Parting env A (moduleFromHost env resolve loader name) s := by
  have hC := staysApart_chains env A
  refine Triple.get_bind (Runs.bind_of hC (tick_checks.parting s) (tick_checks.waits s) fun t s₁ _ hw => ?_)
  have hanswer := henv.answers hloader t name
  refine .modify_bind hC (.note s₁ (by simp)) ?_
  have hfail : ∀ {e u}, Parting env A (Fallible.throw e : L ℕ) u :=
    fun {e u} => Triple.throw (hC.composes.refl u)
  split
  · exact hfail
  · rename_i hsource
    rw [hsource] at hanswer
    refine Runs.bind_of hC (allocate_checks.parting _)
      (allocate_checks.waits _) fun _ s₂ _ hw₂ => ?_
    refine compileModule_parting hres hanswer fun _ hr => ?_
    rw [Mods.findModule, hw₂.rows, Mods.note, hw.rows] at hr
    cases hnone.symm.trans hr
  · rename_i hbytecode
    rw [hbytecode] at hanswer
    exact moduleFromBytecode_parting henv hanswer
  · exact hfail
  · exact hfail

theorem claimModuleName_parting (hsource : ∀ code, source = some code → env.Shuns A code) :
    Parting env A (claimModuleName env name kind source defn) s := by
  have hC := staysApart_chains env A
  refine (claimModuleName_spec env name kind source defn s).mono ?_ fun _ _ hw => hw.staysApart
  rintro _ _ ⟨t, hw, rfl⟩
  exact hC.composes.trans hw.staysApart (.claim t hsource)

theorem kmpModuleLoader_parting (henv : env.Outside A) (hres : Shunning env A resolve) :
    Parting env A (kmpModuleLoader env resolve name) s := by
  have hC := staysApart_chains env A
  refine Triple.get_bind ?_
  split
  · rename_i hrow
    refine parting_of_clean fun hclean => compileModule_parting hres ?_ fun _ hr => ?_
    · exact hclean.sources _ (findModule_mem hrow).1 _ rfl
    · cases hrow.symm.trans hr
      exact ⟨_, rfl, rfl⟩
  · refine Runs.bind hC (moduleFromHost_parting henv hres ‹_› ‹_›) fun m t _ => ?_
    exact .bind hC (claimModuleName_parting (by simp)) fun _ u _ => .pure hC m u
  · exact Triple.throw (hC.composes.refl s)

/-- The import of another name is noted with a definition of that name. -/
theorem hostResolve_parting (henv : env.Outside A) (hres : Shunning env A resolve)
    (hname : ¬ A name) :
    Parting env A (hostResolveImportedModule env resolve name) s := by
  have hC := staysApart_chains env A
  have hlookup : Parting env A (lookupModule env resolve name) s := by
    refine .bind hC (allocate_checks.parting s) fun _ t _ => Triple.get_bind ?_
    split
    · exact Runs.pure hC _ t
    · exact kmpModuleLoader_parting henv hres
  refine .bind_of hC hlookup (lookupModule_finds hres.grows) fun m t _ hfinds => ?_
  exact .modify_bind hC (.imported hname hfinds.lists) (.pure hC m _)

theorem resolveEntry_parting (henv : env.Outside A) (hres : Shunning env A resolve)
    (hname : ¬ A name) :
    Parting env A (resolveEntry env resolve m i name) s := by
  have hC := staysApart_chains env A
  refine .bind hC (hostResolve_parting henv hres hname) fun m1 t _ =>
    .modify_bind hC (.setDef ?_ t m) ?_
  · refine fun d => ⟨rfl, rfl, id, fun hreqs hopen e he => ?_⟩
    obtain ⟨j, hj⟩ := List.getElem?_of_mem he
    rw [List.getElem?_modify] at hj
    obtain ⟨e', he', rfl⟩ := Option.map_eq_some_iff.mp hj
    split
    · exact hreqs hopen e' (List.mem_of_getElem? he')
    · exact hreqs hopen e' (List.mem_of_getElem? he')
  · exact (hres.staysApart m1 _).onError fun _ u h => hC.composes.trans h (.note u (by simp))

theorem resolveEntries_parting (henv : env.Outside A) (hres : Shunning env A resolve)
    (hnames : ∀ n ∈ names, ¬ A n) :
    Parting env A (resolveEntries env resolve m i names) s := by
  have hC := staysApart_chains env A
  induction names generalizing i s with
  | nil => exact .pure hC () s
  | cons name names ih =>
    refine .bind hC (resolveEntry_parting henv hres (hnames name List.mem_cons_self)) fun _ _ _ => ih ?_
    exact fun n hn => hnames n (List.mem_cons_of_mem _ hn)

theorem resolveModule_shunning (henv : env.Outside A) (fuel : ℕ) :
    Shunning env A (resolveModule env fuel) := by
  have hC := staysApart_chains env A
  induction fuel with
  | zero => exact ⟨resolveModule_grows env 0, fun _ _ => Triple.stop⟩
  | succ fuel ih =>
    refine ⟨resolveModule_grows env _, fun m s => parting_of_clean fun hclean => Triple.get_bind ?_⟩
    split
    · exact .stop
    · rename_i d hd
      split
      · exact Runs.pure hC () s
      · refine Runs.modify_bind hC (.setDef ?_ s m) (resolveEntries_parting henv ih fun n hn => ?_)
        · exact fun d => ⟨rfl, rfl, id, fun _ h => nomatch h⟩
        · obtain ⟨e, he, rfl⟩ := List.mem_map.mp hn
          exact hclean.reqs d (List.mem_of_getElem? hd) (by simpa using ‹¬ d.resolved = true›) e he

end Imports

-- ---------------------------------------------------------------------------
-- Calls
-- ---------------------------------------------------------------------------

theorem jsResolveModule_parting (henv : env.Outside A) :
    Parting env A (jsResolveModule env fuel m) s := by
  have hR := staysApart_composes env A
  refine Runs.onError ((resolveModule_shunning henv fuel).staysApart m s) fun _ t h => ?_
  exact hR.trans (hR.trans h (.note t (by simp))) (.purge _)

theorem unlessAnonymous_parting {m : L Unit} (h : Parting env A m s) :
    Parting env A (unlessAnonymous name m) s := by
  unfold unlessAnonymous
  split
  · exact Runs.pure (staysApart_chains env A) () s
  · exact h

theorem evalModule_parting (henv : env.Outside A) (hcode : env.Shuns A code)
    (hname : anonymous name → A name) :
    Parting env A (kmpjsEvalModule env fuel code name) s := by
  have hC := staysApart_chains env A
  refine .bind_of hC ((unlessAnonymous_checks moduleNameTaken_checks).parting s)
    (unlessTaken_spec name s) ?_
  rintro _ _ - ⟨rfl, hfree⟩
  refine .bind_of hC (allocate_checks.parting _) (allocate_checks.waits _) fun _ t _ hw => ?_
  refine .bind hC (compileModule_parting (resolveModule_shunning henv fuel) hcode fun hn hr => ?_) fun m u _ => ?_
  · rw [Mods.findModule, hw.rows] at hr
    cases (hfree (by simpa using fun h => hn (hname h))).symm.trans hr
  · exact .bind hC (unlessAnonymous_parting (claimModuleName_parting (by simp))) fun _ v _ => .pure hC _ v

theorem runBytecode_parting (henv : env.Outside A) (hbuf : env.ShunsBytecode A buf) :
    Parting env A (kmpjsRunBytecode env fuel buf) s := by
  have hC := staysApart_chains env A
  refine .bind_of hC (runChecks_checks.parting s) (runChecks_spec env buf s) ?_
  rintro ⟨kind, body, name⟩ t - ⟨-, hheader, -⟩
  refine .bind hC (readBytecodeBody_parting henv (hbuf _ _ hheader)) fun obj u _ => ?_
  cases obj with
  | none => exact .pure hC _ u
  | some m =>
    refine .bind hC (allocate_checks.parting u) fun _ v _ =>
      .bind hC (jsResolveModule_parting henv) fun _ w _ => ?_
    exact .bind hC (unlessAnonymous_parting (claimModuleName_parting (by simp))) fun _ x _ => .pure hC _ x

theorem call_parting (henv : env.Outside A) (hop : shuns env A s₀ (fuel, op)) :
    Parting env A (op.call env fuel) s := by
  have hC := staysApart_chains env A
  cases op with
  | registerModule name code =>
    show Parting env A (if _ then _ else _) s
    split
    · exact Triple.throw (hC.composes.refl s)
    · refine .bind hC (moduleNameTaken_checks.parting s) fun _ t _ => ?_
      refine .bind hC (claimModuleName_parting ?_) fun _ u _ => .pure hC _ u
      rintro _ ⟨⟩
      exact hop.1
  | registerModuleBytecode buf =>
    refine .bind_of hC (registerChecks_checks.parting s) (registerChecks_spec env buf s) ?_
    rintro ⟨body, name⟩ t - ⟨-, hheader, -⟩
    refine .bind hC (readBytecodeBody_parting henv (hop.1 _ _ hheader)) fun m u _ => ?_
    refine .bind hC (allocate_checks.parting u) fun _ v _ => ?_
    exact .bind hC (claimModuleName_parting (by simp)) fun _ w _ => .pure hC _ w
  | evalModule code name => exact evalModule_parting henv hop.1 (hop.2 rfl)
  | runBytecode buf => exact runBytecode_parting henv hop.1
  | dynamicImport name =>
    refine .bind hC (hostResolve_parting henv (resolveModule_shunning henv fuel) hop.1) fun m t _ => ?_
    exact .bind hC (jsResolveModule_parting henv) fun _ u _ => .pure hC _ u

theorem call_apart (henv : env.Outside A) (hop : shuns env A s (fuel, op)) (hclean : s.Clean env A)
    (hrun : LoadOp.run env fuel op s = some (r, s')) : Apart env A { s with log := [] } s' := by
  have hcall : Parting env A (op.call env fuel) { s with log := [] } := call_parting henv hop
  have hclean' : Mods.Clean env A { s with log := [] } := ⟨hclean.reqs, hclean.sources⟩
  cases r with
  | ok out => exact hcall.ok hrun hclean'
  | error e => exact hcall.error hrun hclean'

-- ---------------------------------------------------------------------------
-- What a name is bound to
-- ---------------------------------------------------------------------------

/-- What is listed stays, but for what `js_free_modules` drops. -/
structure Retains (s s' : Mods) : Prop where
  log : s.log <:+ s'.log
  resolved : ∀ {m}, s.Resolved m → s'.Resolved m
  lists : ∀ {m n}, s.Lists m n → (∀ l, .purged l ∉ s'.log) ∨ s.Resolved m → s'.Lists m n

theorem retains_composes : Composes Retains where
  refl := fun _ => ⟨List.suffix_refl _, id, fun hl _ => hl⟩
  trans := by
    intro s t u h h'
    refine ⟨h.log.trans h'.log, fun hr => h'.resolved (h.resolved hr), fun hl hstays => ?_⟩
    refine h'.lists (h.lists hl (hstays.imp_left fun hnone l hmem => hnone l (h'.log.subset hmem))) ?_
    exact hstays.imp_right h.resolved

theorem Grows.retains (h : Grows none s s') : Retains s s' where
  log := h.log
  resolved := by
    rintro m ⟨d, hd, hr⟩
    obtain ⟨d', hd', hext, -⟩ := h.defs hd
    exact ⟨d', hd', hext.resolved hr⟩
  lists := fun hl _ => hl.grows h

theorem Retains.purge (s : Mods) : Retains s s.purge where
  log := List.suffix_cons _ _
  resolved := by
    rintro m ⟨d, hd, hr⟩
    refine ⟨{ d with listed := d.listed && d.resolved }, ?_, hr⟩
    simp only [Mods.purge, Mods.note, List.getElem?_map, hd, Option.map_some]
  lists := by
    rintro m n ⟨d, hd, hl, hname⟩ hstays
    refine lists_purge.mpr ⟨d, hd, hl, ?_, hname⟩
    obtain ⟨d', hd', hr⟩ := hstays.resolve_left fun hnone => hnone _ List.mem_cons_self
    cases hd.symm.trans hd'
    exact hr

theorem retains_of_grows {m : L α}
    (h : Triple m s (fun _ => Grows none s) (fun _ => Grows none s)) :
    Triple m s (fun _ => Retains s) (fun _ => Retains s) :=
  h.mono (fun _ _ h => h.retains) fun _ _ h => h.retains

theorem Checks.retains {m : L α} (h : Checks m) : Keeps Retains m := fun s =>
  retains_of_grows ((h.waits s).mono (fun _ _ hw => hw.grows) fun _ _ hw => hw.grows)

theorem claimUnless_retains :
    Keeps Retains (unlessAnonymous name (claimModuleName env name kind source defn)) := by
  unfold unlessAnonymous
  refine .ite (.pure retains_composes _) fun s => ?_
  refine (claimModuleName_spec env name kind source defn s).mono ?_ fun _ _ hw =>
    (hw.grows : Grows none _ _).retains
  rintro _ _ ⟨t, hw, rfl⟩
  exact retains_composes.trans (hw.grows : Grows none _ _).retains ⟨List.suffix_refl _, id,
    fun hl _ => hl⟩

theorem jsResolveModule_retains : Keeps Retains (jsResolveModule env fuel m) := fun s => by
  refine .onError ((resolveModule_grows env fuel m s).mono (fun _ _ h => h.retains) fun _ t h => ?_)
  have hnote : Grows none t (t.note (.gaveUp m)) := note_grows.elim rfl
  exact retains_composes.trans (retains_composes.trans h.retains hnote.retains) (.purge _)

/-- The calls that evaluate a module. -/
theorem evaluates_retains (hop : LoadOp.Evaluates env a op) : Keeps Retains (op.call env fuel) := by
  have hR := retains_composes
  cases op with
  | evalModule code name =>
    refine .bind hR (unlessAnonymous_checks moduleNameTaken_checks).retains fun _ => ?_
    refine .bind hR allocate_checks.retains fun _ => .bind hR ?_ fun m => ?_
    · exact fun s => retains_of_grows
        ((compileModule_makes (resolveModule_grows env fuel)).mono (fun _ _ h => h.grows) fun _ _ h => h)
    · exact .bind hR claimUnless_retains fun _ => .pure hR _
  | runBytecode buf =>
    refine .bind hR runChecks_checks.retains fun p => .bind hR (fun s => ?_) fun obj => ?_
    · refine (readBytecodeBody_spec env p.2.1 p.1 s).mono ?_ ?_
      · rintro _ _ ⟨rfl, -⟩
        exact (afterRead_grows s env p.2.1).retains
      · rintro _ _ ⟨rfl, -⟩
        exact (afterRead_grows s env p.2.1).retains
    · cases obj with
      | none => exact .pure hR _
      | some m =>
        refine .bind hR allocate_checks.retains fun _ =>
          .bind hR jsResolveModule_retains fun _ => ?_
        exact .bind hR claimUnless_retains fun _ => .pure hR _
  | registerModule | registerModuleBytecode | dynamicImport => exact hop.elim

theorem findLoaded_first (h : s.findLoaded n = some m) (hi : i < m) : ¬ s.Lists i n := by
  rintro ⟨d, hd, hl, hname⟩
  obtain ⟨hlt, hp, hfirst⟩ := List.findIdx?_eq_some_iff_getElem.mp h
  have hnot := hfirst i hi
  rw [(List.getElem?_eq_some_iff.mp hd).2] at hnot
  simp [hl, hname] at hnot

theorem findLoaded_eq_some_iff :
    s.findLoaded n = some m ↔ s.Lists m n ∧ ∀ i < m, ¬ s.Lists i n := by
  refine ⟨fun h => ⟨findLoaded_eq_some h, fun i hi => findLoaded_first h hi⟩, ?_⟩
  rintro ⟨hl, hfirst⟩
  obtain ⟨i, hfind⟩ := Option.ne_none_iff_exists'.mp (findLoaded_ne_none hl)
  rcases Nat.lt_trichotomy i m with hlt | rfl | hgt
  · exact absurd (findLoaded_eq_some hfind) (hfirst i hlt)
  · exact hfind
  · exact absurd hl (findLoaded_first hfind hgt)

/-- The name is bound to what it was bound to, or to what its row makes. -/
def Bound (s s' : Mods) (n : Name) (r : KmpModule) : Prop :=
  (∀ m, s.findLoaded n = some m → s'.findLoaded n = some m) ∧
    (s.findLoaded n = none → ∀ m, s'.findLoaded n = some m → Compiled s' r m)

theorem claimUnless_defs :
    Triple (unlessAnonymous name (claimModuleName env name kind source defn)) s
      (fun _ t => t.defs = s.defs)
      (fun _ _ => True) := by
  unfold unlessAnonymous
  split
  · exact .pure rfl
  · refine (claimModuleName_spec env name kind source defn s).mono ?_ fun _ _ _ => trivial
    rintro _ _ ⟨t, hw, rfl⟩
    exact hw.defs

/-- The definition that a call evaluates has the name. -/
theorem call_names (hop : LoadOp.Evaluates env a op) :
    Triple (op.call env fuel) s (fun out t => ∀ m, out = .evaluates m → t.Named m a)
      (fun _ _ => True) := by
  have hclaimed : ∀ {s : Mods} {name m}, s.Lists m a →
      Triple (do unlessAnonymous name (claimModuleName env name .evaluated none (some m))
                 pure (LoadOutcome.evaluates m)) s
        (fun out t => ∀ m, out = .evaluates m → t.Named m a) (fun _ _ => True) := by
    rintro s name m ⟨d, hd, -, hname⟩
    refine .bind (claimUnless_defs.mono (fun _ t ht => .pure ?_) fun _ _ _ => trivial)
    rintro _ ⟨⟩
    exact ⟨d, ht ▸ hd, hname⟩
  cases op with
  | evalModule code name =>
    obtain rfl : name = a := hop
    refine .skip fun _ s₁ => .skip fun _ s₂ => ?_
    refine .bind ((compileModule_makes (resolveModule_grows env fuel)).mono (fun m t h => ?_) fun _ _ _ => trivial)
    exact hclaimed h.lists
  | runBytecode buf =>
    obtain ⟨body, reqs, nested, hheader, hobj⟩ := hop
    refine .bind ((runChecks_spec env buf s).mono ?_ fun _ _ _ => trivial)
    rintro ⟨kind, body', name⟩ t ⟨-, hheader', -⟩
    cases hheader.symm.trans hheader'
    refine .bind ((readBytecodeBody_spec env _ .module t).mono ?_ fun _ _ _ => trivial)
    rintro (_ | m) _ ⟨rfl, hread⟩
    · cases hread
    · obtain ⟨-, rfl, name', reqs', nested', hread⟩ := hread
      cases hobj.symm.trans (readNow_module hread)
      refine .bind ((allocate_checks.waits _).mono (fun _ u hw => ?_) fun _ _ _ => trivial)
      have hlists : u.Lists t.defs.length a :=
        (afterRead_lists hread).grows (hw.grows : Grows none _ _)
      refine .bind (.onError ((resolveModule_grows env fuel _ u).mono (fun _ v h => ?_) fun _ _ _ => trivial))
      exact hclaimed (hlists.grows h)
  | registerModule | registerModuleBytecode | dynamicImport => exact hop.elim

section Runs

theorem reaches_apart (henv : env.Outside A) (h : Machine.Reaches (loadStep env) (shuns env A) s t)
    (hclean : s.Clean env A) : t.Clean env A ∧ ∀ {m n}, s.Named m n → t.Named m n := by
  refine h.invariant (I := fun t => t.Clean env A ∧ ∀ {m n}, s.Named m n → t.Named m n)
    ⟨hclean, id⟩ ?_
  rintro t ⟨fuel, op⟩ u ⟨ht, hnamed⟩ hop hstep
  obtain ⟨r, hrun⟩ := loadStep_eq_some hstep
  have hapart := call_apart henv hop ht hrun
  exact ⟨hapart.clean, fun hn => hapart.isNamed (hnamed hn)⟩

theorem init_clean (env : Env) (A : Name → Prop) : Mods.init.Clean env A :=
  ⟨by simp [Mods.init], by simp [Mods.init]⟩

/-- A definition under a name in `A` is in no import. -/
theorem named_not_imported (henv : env.Outside A) (hop : shuns env A s (fuel, op))
    (hclean : s.Clean env A)
    (hrun : LoadOp.run env fuel op s = some (r, s')) (ha : A a) (hm : s'.Named m a) :
      .imported n m ∉ s'.log := by
  intro hmem
  rcases (call_apart henv hop hclean hrun).imports hmem with hmem | ⟨hn, d, hd, hname⟩
  · exact absurd hmem List.not_mem_nil
  · obtain ⟨d', hd', hname'⟩ := hm
    cases hd.symm.trans hd'
    exact hn (hname.symm.trans hname' ▸ ha)

/-- When nothing that is still to be resolved imports the name of an anonymous module, and
nobody does from then on, none of these modules is bound to an import, and running one leaves
every other name bound to what it was. -/
theorem anonymous_unreachable (henv : env.Outside A) (hclean : s.Clean env A)
    (hop : shuns env A s (fuel, op))
    (hname : op.Evaluates env a) (hanon : anonymous a) (hrun : LoadOp.run env fuel op s = some (r, s')) :
    (∀ {m}, r = .ok (.evaluates m) → (∀ n, .imported n m ∉ s'.log) ∧
      ∀ {t fuel op r u}, Machine.Reaches (loadStep env) (shuns env A) s' t → shuns env A t (fuel, op) →
        LoadOp.run env fuel op t = some (r, u) → ∀ n, .imported n m ∉ u.log) ∧
    ∀ {n row}, ¬ A n → s.findModule n = some row → (∀ i shadows, .read i shadows ∈ s'.log → ¬ s'.Named i n) →
      (∀ l, .purged l ∉ s'.log) ∨ (∀ m, s.findLoaded n = some m → s.Resolved m) → Bound s s' n row := by
  have ha : A a := hop.2 hname hanon
  have hapart := call_apart henv hop hclean hrun
  refine ⟨?_, fun {n row} hn hrow hreads hstays => ⟨fun m hm => ?_, fun hnone m hm => ?_⟩⟩
  · rintro m rfl
    have hm : s'.Named m a := (call_names hname).ok hrun m rfl
    refine ⟨fun n => named_not_imported henv hop hclean hrun ha hm,
      fun {t fuel op r u} hlater hop' hrun' n => ?_⟩
    obtain ⟨ht, hnamed⟩ := reaches_apart henv hlater hapart.clean
    exact named_not_imported henv hop' ht hrun' ha
      ((call_apart henv hop' ht hrun').isNamed (hnamed hm))
  · obtain ⟨hl, hfirst⟩ := findLoaded_eq_some_iff.mp hm
    have hretains := (evaluates_retains hname).elim hrun
    refine findLoaded_eq_some_iff.mpr
      ⟨hretains.lists hl (hstays.imp_right fun hres => hres m hm), ?_⟩
    intro i hi hl'
    exact hfirst i hi (hapart.old (Nat.lt_trans hi hl.lt) hl')
  · have hl := findLoaded_eq_some hm
    rcases hapart.new hn hrow hl with hl' | ⟨shadows, hread⟩ | hcompiled
    · exact absurd hnone (findLoaded_ne_none hl')
    · obtain ⟨d, hd, -, hname⟩ := hl
      exact absurd ⟨d, hd, hname⟩ (hreads m shadows hread)
    · exact hcompiled

end Runs

theorem anonymous_unreachable_registered : ∃ s s' row,
    LoadOp.run twoModules 3 (.registerModule (ascii "x") []) .init = some (.ok (.registered (ascii "x")), s) ∧
    LoadOp.run twoModules 3 (.evalModule (ascii "import 'x';") (ascii "<m>")) s = some (.ok (.evaluates 0), s') ∧
    (∀ n, .imported n 0 ∉ s'.log) ∧ s.findModule (ascii "x") = some row ∧ Bound s s' (ascii "x") row := by
  let A : Name → Prop := fun n => n = ascii "<m>"
  have henv : twoModules.Outside A := ⟨by simp [twoModules], by simp [twoModules]⟩
  have hregister : shuns twoModules A .init (3, .registerModule (ascii "x") []) :=
    ⟨by rintro _ ⟨⟩; simp, fun hname => hname.elim⟩
  have heval : ∀ s, shuns twoModules A s (3, .evalModule (ascii "import 'x';") (ascii "<m>")) := fun s =>
    ⟨by rintro _ ⟨⟩; decide, fun hname _ => hname.symm⟩
  obtain ⟨s, hreg, s', hrun, row, hrow, hlog⟩ : ∃ s,
      LoadOp.run twoModules 3 (.registerModule (ascii "x") []) .init = some (.ok (.registered (ascii "x")), s) ∧ ∃ s',
      LoadOp.run twoModules 3 (.evalModule (ascii "import 'x';") (ascii "<m>")) s = some (.ok (.evaluates 0), s') ∧
      ∃ row, s.findModule (ascii "x") = some row ∧ s'.log = [.imported (ascii "x") 1] :=
    ⟨_, rfl, _, rfl, _, rfl, rfl⟩
  have hstep : loadStep twoModules .init (3, .registerModule (ascii "x") []) = some s := by
    rw [loadStep, hreg]; rfl
  have hreaches := (Machine.Reaches.refl Mods.init).tail hregister hstep
  have hclean := (reaches_apart henv hreaches (init_clean _ A)).1
  have hapart := anonymous_unreachable henv hclean (heval s) rfl rfl hrun
  refine ⟨s, s', row, hreg, hrun, (hapart.1 rfl).1, hrow, hapart.2 (by decide) hrow ?_ (.inl ?_)⟩
  · simp [hlog]
  · simp [hlog]

/-- A module that was evaluated as `<m>` is what an import of `<m>` gets. -/
theorem anonymous_module_imported :
    ¬ ∀ env s fuel op a m s' t fuel' op' r u n, Machine.Reaches (loadStep env) Machine.always .init s →
      LoadOp.Evaluates env a op → anonymous a →
      LoadOp.run env fuel op s = some (.ok (.evaluates m), s') →
      Machine.Reaches (loadStep env) Machine.always s' t → LoadOp.run env fuel' op' t = some (r, u) →
      .imported n m ∉ u.log := by
  intro h
  obtain ⟨s', hrun, u, himport, hmem⟩ : ∃ s',
      LoadOp.run twoModules 3 (.evalModule [] (ascii "<m>")) .init = some (.ok (.evaluates 0), s') ∧ ∃ u,
      LoadOp.run twoModules 3 (.dynamicImport (ascii "<m>")) s' = some (.ok (.evaluates 0), u) ∧
      .imported (ascii "<m>") 0 ∈ u.log := ⟨_, rfl, _, rfl, List.mem_cons_self⟩
  exact h twoModules .init 3 (.evalModule [] (ascii "<m>")) (ascii "<m>") 0 s' s' 3 _ _ u _ (.refl _) rfl rfl hrun
    (.refl _) himport hmem

end QuickJsKmp
