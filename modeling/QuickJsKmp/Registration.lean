import QuickJsKmp.ModuleLaws

/-!
# Names that stay

A row without a source relies on a definition in the engine's list, and the engine
drops definitions on its own: `js_free_modules` drops all that are not resolved
when a resolution fails, whoever's they are. A row with a source relies on its
name not being in the list already.
-/

namespace QuickJsKmp

open Fallible (Prog Triple Keeps Yields Composes Chains Runs)

/-- Neither a claimed definition dropped nor one read under a name in use. -/
def Event.orderly : Event → Bool
  | .purged claimed => claimed.isEmpty
  | .read _ shadows => !shadows
  | _ => true

def Mods.Orderly (s : Mods) : Prop := ∀ e ∈ s.log, e.orderly

instance (s : Mods) : Decidable s.Orderly := inferInstanceAs (Decidable (∀ e ∈ s.log, _))

def Mods.originOf (s : Mods) (i : ℕ) : Option Origin := s.defs[i]?.map ModuleDef.origin

/-- The definition is the one that the row was made for. -/
def Belongs (s : Mods) (r : KmpModule) (i : ℕ) : Prop :=
  match r.source with
  | some code => s.originOf i = some (.table code)
  | none => r.kind = .bytecode → r.defn = some i

/-- The two stores agree. -/
structure Durable (s : Mods) : Prop where
  kept : ∀ r ∈ s.rows, r.source = none → ∃ m, r.defn = some m ∧ s.Lists m r.name
  own : ∀ {n r i}, anonymous n = false → s.findModule n = some r → s.Lists i n → Belongs s r i

/-- The rows stay, and the stores still agree, as long as the log is orderly. An import
of a name with a row was answered with the row's own definition. -/
structure Lasts (s s' : Mods) : Prop where
  log : s.log <:+ s'.log
  rows : s.rows <+: s'.rows
  origins : ∀ {i o}, s.originOf i = some o → s'.originOf i = some o
  durable : s'.Orderly → Durable s → Durable s'
  imports : s'.Orderly → Durable s → ∀ {n r m}, anonymous n = false → s.findModule n = some r →
    .imported n m ∈ s'.log → .imported n m ∈ s.log ∨ Belongs s' r m

variable {s s' : Mods}

theorem Mods.Orderly.before (h : s'.Orderly) (hlog : s.log <:+ s'.log) : s.Orderly :=
  fun e he => h e (hlog.subset he)

theorem Belongs.lasts (h : Belongs s r i)
    (ho : ∀ {i o}, s.originOf i = some o → s'.originOf i = some o) :
    Belongs s' r i := by
  unfold Belongs at h ⊢
  split
  · rename_i code hsource
    rw [hsource] at h
    exact ho h
  · rename_i hsource
    rw [hsource] at h
    exact h

theorem lasts_composes : Composes Lasts where
  refl := fun s => ⟨List.suffix_refl _, List.prefix_refl _, id, fun _ => id,
    fun _ _ _ _ _ _ _ hm => .inl hm⟩
  trans := by
    intro s t u h h'
    have hmid : u.Orderly → t.Orderly := fun horderly => horderly.before h'.log
    refine ⟨h.log.trans h'.log, h.rows.trans h'.rows, fun ho => h'.origins (h.origins ho), ?_, ?_⟩
    · exact fun horderly hs => h'.durable horderly (h.durable (hmid horderly) hs)
    · intro horderly hs n r m hn hr hm
      have ht := h.durable (hmid horderly) hs
      rcases h'.imports horderly ht hn (findModule_stays h.rows hr) hm with hm | hown
      · exact (h.imports (hmid horderly) hs hn hr hm).imp_right fun hown => hown.lasts h'.origins
      · exact .inr hown

-- ---------------------------------------------------------------------------
-- Steps
-- ---------------------------------------------------------------------------

/-- No import is noted. -/
def Quiet (s s' : Mods) : Prop := s'.log = s.log ∨ ∃ e, s'.log = e :: s.log ∧ ∀ n m, e ≠ .imported n m

theorem Quiet.suffix (h : Quiet s s') : s.log <:+ s'.log := by
  rcases h with hlog | ⟨e, hlog, -⟩
  · exact hlog ▸ List.suffix_refl _
  · exact hlog ▸ List.suffix_cons _ _

theorem Quiet.imported (h : Quiet s s') (hm : .imported n m ∈ s'.log) : .imported n m ∈ s.log := by
  rcases h with hlog | ⟨e, hlog, he⟩
  · exact hlog ▸ hm
  · rw [hlog] at hm
    exact (List.mem_cons.mp hm).resolve_left fun h => he n m h.symm

theorem Lasts.quiet (hlog : Quiet s s') (hrows : s.rows <+: s'.rows)
    (ho : ∀ {i o}, s.originOf i = some o → s'.originOf i = some o)
    (hdurable : s'.Orderly → Durable s → Durable s') : Lasts s s' where
  log := hlog.suffix
  rows := hrows
  origins := ho
  durable := hdurable
  imports := fun _ _ _ _ _ _ _ hm => .inl (hlog.imported hm)

/-- The rows are the same, and no definition of theirs is lost. -/
theorem Durable.sameRows (h : Durable s) (hrows : s'.rows = s.rows)
    (ho : ∀ {i o}, s.originOf i = some o → s'.originOf i = some o)
    (hlists : ∀ {i n}, s'.Lists i n → s.Lists i n)
    (hkept : ∀ r ∈ s.rows, ∀ {i}, r.defn = some i → s.Lists i r.name → s'.Lists i r.name) :
    Durable s' where
  kept := by
    intro r hr hsource
    rw [hrows] at hr
    obtain ⟨m, hm, hl⟩ := h.kept r hr hsource
    exact ⟨m, hm, hkept r hr hm hl⟩
  own := by
    intro n r i hn hr hl
    rw [Mods.findModule, hrows] at hr
    exact (h.own hn hr (hlists hl)).lasts ho

theorem Durable.sameStores (h : Durable s) (hrows : s'.rows = s.rows) (hdefs : s'.defs = s.defs) :
    Durable s' := by
  have hlists : ∀ {i n}, s'.Lists i n ↔ s.Lists i n := by
    simp only [Mods.Lists, hdefs, implies_true]
  refine h.sameRows hrows (fun ho => by rwa [Mods.originOf, hdefs]) hlists.mp ?_
  exact fun _ _ _ _ => hlists.mpr

theorem Waits.lasts (h : Waits s s') : Lasts s s' := by
  refine .quiet (.inl h.log) (h.rows ▸ List.prefix_refl _)
    (fun ho => by rwa [Mods.originOf, h.defs]) ?_
  exact fun _ hs => hs.sameStores h.rows h.defs

theorem Lasts.note (s : Mods) (h : ∀ n m, e ≠ .imported n m) : Lasts s (s.note e) :=
  .quiet (.inr ⟨e, rfl, h⟩) (List.prefix_refl _) id fun _ hs => hs.sameStores rfl rfl

theorem Lasts.imported (h : s.Lists m n) : Lasts s (s.note (.imported n m)) where
  log := List.suffix_cons _ _
  rows := List.prefix_refl _
  origins := id
  durable := fun _ hs => ⟨hs.kept, hs.own⟩
  imports := by
    intro _ hs n' r m' hn hr hm
    rcases List.mem_cons.mp hm with heq | hm
    · cases heq
      exact .inr (hs.own hn hr h)
    · exact .inl hm

theorem originOf_setDef {f : ModuleDef → ModuleDef} (hf : ∀ d, (f d).origin = d.origin) (i : ℕ) :
    (s.setDef m f).originOf i = s.originOf i := by
  simp only [Mods.originOf, getElem?_setDef, Option.map_map]
  congr 1
  funext d
  simp only [Function.comp]
  split
  · exact hf d
  · rfl

theorem Lasts.setDef {f : ModuleDef → ModuleDef}
    (hf : ∀ d, (f d).listed = d.listed ∧ (f d).name = d.name ∧ (f d).origin = d.origin)
    (s : Mods) (m : ℕ) :
    Lasts s (s.setDef m f) := by
  have ho : ∀ {i o}, s.originOf i = some o → (s.setDef m f).originOf i = some o :=
    fun ho => (originOf_setDef (fun d => (hf d).2.2) _).trans ho
  have hlists : ∀ {i n}, (s.setDef m f).Lists i n ↔ s.Lists i n :=
    lists_setDef fun d => ⟨(hf d).1, (hf d).2.1⟩
  refine .quiet (.inl rfl) (List.prefix_refl _) ho fun _ hs => ?_
  exact hs.sameRows rfl ho hlists.mp fun _ _ _ _ => hlists.mpr

/-- The name of the definition is free, or the row's source is what it comes from. -/
def Fits (s : Mods) (d : ModuleDef) : Prop :=
  anonymous d.name = false → ∀ r, s.findModule d.name = some r →
    ∃ code, r.source = some code ∧ d.origin = .table code

theorem originOf_add (h : s.originOf i = some o) : (s.add d).originOf i = some o := by
  obtain ⟨d', hd', horigin⟩ := Option.map_eq_some_iff.mp h
  have hlt := (List.getElem?_eq_some_iff.mp hd').1
  rw [Mods.originOf, Mods.add, List.getElem?_append_left hlt, hd', Option.map_some, horigin]

theorem Durable.add (h : Durable s) (hfits : Fits s d) : Durable (s.add d) where
  kept := by
    intro r hr hsource
    obtain ⟨m, hm, hl⟩ := h.kept r hr hsource
    exact ⟨m, hm, lists_add.mpr (.inl hl)⟩
  own := by
    intro n r i hn hr hl
    rcases lists_add.mp hl with hl | ⟨rfl, -, rfl⟩
    · exact (h.own hn hr hl).lasts originOf_add
    · obtain ⟨code, hsource, horigin⟩ := hfits hn r hr
      simp [Belongs, hsource, Mods.originOf, Mods.add, horigin]

theorem Lasts.add (hfits : Fits s d) : Lasts s (s.add d) :=
  .quiet (.inl rfl) (List.prefix_refl _) originOf_add fun _ hs => hs.add hfits

/-- A definition that was read, whose name was not in use. -/
theorem Lasts.read (s : Mods) (d : Name × List Name) :
    Lasts s ((s.add (readDef d)).note (.read s.defs.length (s.shadows d.1))) := by
  refine .quiet (.inr ⟨_, rfl, by simp⟩) (List.prefix_refl _) originOf_add fun horderly hs => ?_
  have hshadows : s.shadows d.1 = false := by
    have := horderly _ List.mem_cons_self
    simpa [Event.orderly] using this
  refine (hs.add (d := readDef d) fun hanon r hr => ?_).sameStores rfl rfl
  have hfind : s.findModule d.1 = some r := hr
  have hanon : anonymous d.1 = false := hanon
  simp [Mods.shadows, hanon, hfind] at hshadows

theorem Lasts.withRead (s : Mods) (ds : List (Name × List Name)) : Lasts s (s.withRead ds) := by
  induction ds generalizing s with
  | nil => exact lasts_composes.refl s
  | cons d ds ih => exact lasts_composes.trans (Lasts.read s d) (ih _)

theorem Lasts.afterRead (s : Mods) (env : Env) (body : Bytes) : Lasts s (s.afterRead env body) := by
  exact lasts_composes.trans (waits_tick s).lasts (Lasts.withRead _ _)

theorem Lasts.claim (hkept : row.source = none → ∃ m, row.defn = some m ∧ s.Lists m row.name)
    (hown : s.Orderly → anonymous row.name = false → s.findModule row.name = none →
      ∀ i, s.Lists i row.name → Belongs s row i) :
    Lasts s { s with rows := s.rows ++ [row] } := by
  refine .quiet (.inl rfl) (List.prefix_append _ _) id fun horderly hs =>
    ⟨fun r hr hsource => ?_, ?_⟩
  · rcases List.mem_append.mp hr with hr | hr
    · exact hs.kept r hr hsource
    · obtain rfl := List.mem_singleton.mp hr
      exact hkept hsource
  · intro n r i hn hr hl
    have hl : s.Lists i n := hl
    rw [findModule_claim] at hr
    cases hold : s.findModule n with
    | some r' =>
      rw [hold] at hr
      cases hr
      exact hs.own hn hold hl
    | none =>
      rw [hold, Option.none_or] at hr
      split at hr
      · rename_i hname
        cases hr
        subst hname
        exact hown horderly hn hold i hl
      · cases hr

/-- A new definition is freed again; no row was made for it. -/
theorem Lasts.free (h : Lasts s s') (hg : Grows (some s.defs.length) (s.add d) s') :
    Lasts s (s'.free s.defs.length) := by
  have ho : ∀ {i o}, s'.originOf i = some o →
    (s'.free s.defs.length).originOf i = some o := fun ho =>
    (originOf_setDef (f := fun d => { d with listed := false }) (fun _ => rfl) _).trans ho
  refine ⟨h.log.trans (List.suffix_cons _ _), h.rows, fun h' => ho (h.origins h'), ?_, ?_⟩
  · intro horderly hs
    have hs' := h.durable (horderly.before (List.suffix_cons _ _)) hs
    refine ⟨fun r hr hsource => ?_, fun hn hr hl => (hs'.own hn hr (lists_free.mp hl).2).lasts ho⟩
    obtain ⟨m, hm, hl⟩ := hs'.kept r hr hsource
    refine ⟨m, hm, lists_free.mpr ⟨?_, hl⟩⟩
    rcases hg.fresh r hr with hold | ⟨m', hm', hle⟩
    · obtain ⟨m', hm', hl'⟩ := hs.kept r hold hsource
      cases hm.symm.trans hm'
      exact Nat.ne_of_lt hl'.lt
    · cases hm.symm.trans hm'
      simp only [Mods.add, List.length_append, List.length_singleton] at hle
      exact Nat.ne_of_gt hle
  · intro horderly hs n r m hn hr hm
    have hm : .imported n m ∈ s'.log := (List.mem_cons.mp hm).resolve_left (by simp)
    have horderly' := horderly.before (s := s') (List.suffix_cons _ _)
    exact (h.imports horderly' hs hn hr hm).imp_right fun hown => hown.lasts ho

/-- All definitions that have a row were resolved. -/
theorem Lasts.purge (s : Mods) : Lasts s s.purge := by
  have ho : ∀ {i o}, s.originOf i = some o → s.purge.originOf i = some o := by
    intro i o ho
    simp only [Mods.originOf, Mods.purge, Mods.note, List.getElem?_map, Option.map_map] at ho ⊢
    exact ho
  refine .quiet (.inr ⟨_, rfl, by simp⟩) (List.prefix_refl _) ho fun horderly hs => ?_
  refine hs.sameRows rfl ho ?_ ?_
  · intro i n hl
    obtain ⟨d, hd, hl, -, hname⟩ := lists_purge.mp hl
    exact ⟨d, hd, hl, hname⟩
  · intro r hr i hi hl
    obtain ⟨d, hd, hl, hname⟩ := hl
    refine lists_purge.mpr ⟨d, hd, hl, ?_, hname⟩
    refine Classical.byContradiction fun hres => ?_
    have hempty := horderly _ List.mem_cons_self
    simp only [Event.orderly, List.isEmpty_iff] at hempty
    have hmem : i ∈ s.unresolved.filter fun m => s.rows.any fun r => r.defn = some m := by
      refine List.mem_filter.mpr ⟨?_, List.any_eq_true.mpr ⟨r, hr, by simpa using hi⟩⟩
      simp only [Mods.unresolved, List.mem_filter, List.mem_range, hd, Option.any_some]
      exact ⟨(List.getElem?_eq_some_iff.mp hd).1, by simp [hl, hres]⟩
    simp [hempty] at hmem

-- ---------------------------------------------------------------------------
-- Imports
-- ---------------------------------------------------------------------------

/-- A failure for want of a module is about a name without a row. -/
def Blames (e : Failure) (s s' : Mods) : Prop :=
  s'.Orderly → Durable s → ∀ n, e.missing = some n → s.findModule n = none

def Faults (e : Failure) (s s' : Mods) : Prop := Lasts s s' ∧ Blames e s s'

/-- Every run lasts. -/
abbrev Endures (m : L α) (s : Mods) : Prop := Runs Lasts Faults m s

theorem Blames.of_none (h : e.missing = none) : Blames e s s' := by
  intro _ _ n hn
  simp [h] at hn

theorem Blames.before (hlasts : Lasts s t) (hlog : t.log <:+ s'.log) (h : Blames e t s') :
    Blames e s s' := by
  intro horderly hs n hn
  have ht := hlasts.durable (horderly.before hlog) hs
  exact findModule_before hlasts.rows (h horderly ht n hn)

theorem lasts_chains : Chains Lasts Faults where
  composes := lasts_composes
  fails := fun h h' => ⟨lasts_composes.trans h h'.1, h'.2.before h h'.1.log⟩

theorem Faults.of_none (h : e.missing = none) : Faults e s s := ⟨lasts_composes.refl s, .of_none h⟩

theorem Faults.clean (h : Faults e s t) (hclean : Lasts t s') : Faults e s s' :=
  ⟨lasts_composes.trans h.1 hclean, fun horderly => h.2 (horderly.before hclean.log)⟩

theorem Checks.endures {m : L α} (h : Checks m) (s : Mods) : Endures m s :=
  (h s).mono (fun _ _ hw => hw.lasts) fun _ _ h => ⟨h.1.lasts, .of_none h.2⟩

section Imports

variable {env : Env} {resolve : ℕ → L Unit}

/-- What the pieces of an import ask of the resolution below them. -/
structure Enduring (resolve : ℕ → L Unit) : Prop where
  grows : ∀ m, Keeps (Grows none) (resolve m)
  lasts : ∀ m s, Endures (resolve m) s

theorem evalBody_endures (hres : Enduring resolve) : Endures (evalBody env resolve code m) s := by
  unfold evalBody
  split
  · exact .throw (.of_none rfl)
  · refine .bind lasts_chains (allocate_checks.endures s) fun _ t _ =>
      .modify_bind lasts_chains ?_ (hres.lasts m _)
    refine .setDef ?_ t m
    exact fun _ => ⟨rfl, rfl, rfl⟩

theorem jsEval_endures (hres : Enduring resolve) (hfits : Fits s ⟨name, [], false, true, origin⟩) :
    Endures (jsEval env resolve code name origin) s := by
  refine .bind_of lasts_chains (allocate_checks.endures s) (allocate_checks.waits s) fun _ t _ hw =>
    newModuleDef_bind ?_
  have hadd : Lasts t (t.add ⟨name, [], false, true, origin⟩) := by
    refine .add fun hanon r hr => hfits hanon r ?_
    rwa [Mods.findModule, hw.rows] at hr
  refine .bind (.onError ((Triple.and (evalBody_endures hres) (evalBody_grows hres.grows _)).mono ?_ ?_))
  · exact fun _ _ h => .pure (lasts_composes.trans hadd h.1)
  · rintro e s₂ ⟨⟨hlasts, hblames⟩, hg⟩
    refine ⟨(lasts_composes.trans hadd hlasts).free hg, fun horderly => ?_⟩
    exact hblames.before hadd hlasts.log (horderly.before (List.suffix_cons _ _))

theorem Fits.waits (h : Fits s d) (hw : Waits s s') : Fits s' d := by
  intro hanon r hr
  rw [Mods.findModule, hw.rows] at hr
  exact h hanon r hr

theorem compileModule_endures (hres : Enduring resolve)
    (hfits : Fits s ⟨name, [], false, true, origin⟩) :
    Endures (compileModule env resolve code name origin) s :=
  .bind lasts_chains (jsEval_endures hres hfits) fun m t _ =>
    .bind lasts_chains (allocate_checks.endures t) fun _ u _ => .pure lasts_chains m u

theorem readBytecodeBody_endures : Endures (readBytecodeBody env body kind) s := by
  refine (readBytecodeBody_spec env body kind s).mono ?_ ?_
  · rintro _ _ ⟨rfl, -⟩
    exact .afterRead s env body
  · rintro _ _ ⟨rfl, hmissing⟩
    exact ⟨.afterRead s env body, .of_none hmissing⟩

theorem moduleFromBytecode_endures : Endures (moduleFromBytecode env name buf) s := by
  refine .bind lasts_chains (checkLoaderBytecode_checks.endures s) fun _ t _ =>
    .bind lasts_chains readBytecodeBody_endures fun _ u _ => ?_
  exact .bind lasts_chains (allocate_checks.endures u) fun _ v _ => asModule_checks.endures v

theorem Fits.of_none (h : s.findModule name = none) :
    Fits s ⟨name, reqs, resolved, listed, origin⟩ := by
  intro _ r hr
  simp [h] at hr

theorem moduleFromHost_endures (hres : Enduring resolve) (hnone : s.findModule name = none) :
    Endures (moduleFromHost env resolve loader name) s := by
  refine Triple.get_bind (Runs.bind_of lasts_chains (tick_checks.endures s) (tick_checks.waits s) fun t s₁ _ hw => ?_)
  have hnone₁ : s₁.findModule name = none := by rwa [Mods.findModule, hw.rows]
  refine .modify_bind lasts_chains (.note s₁ (by simp)) ?_
  split
  · exact .throw (.of_none rfl)
  · refine .bind_of lasts_chains (allocate_checks.endures _)
      (allocate_checks.waits _) fun _ s₂ _ hw => ?_
    have hnone₂ : s₂.findModule name = none := by
      rw [Mods.findModule, hw.rows]
      exact hnone₁
    exact compileModule_endures hres (.of_none hnone₂)
  · exact moduleFromBytecode_endures
  · refine .throw ⟨lasts_composes.refl _, fun _ _ n hn => ?_⟩
    cases hn
    exact hnone₁
  · exact .throw (.of_none rfl)

theorem claimModuleName_endures
    (hkept : source = none → ∃ m, defn = some m ∧ s.Lists m name)
    (hown : s.Orderly → anonymous name = false → s.findModule name = none →
      ∀ i, s.Lists i name → Belongs s ⟨name, kind, source, defn⟩ i) :
    Endures (claimModuleName env name kind source defn) s := by
  refine .bind_of lasts_chains (makeRoom_checks.endures s)
    (makeRoom_checks.waits s) fun _ t _ hw => ?_
  have hlists : ∀ {i}, t.Lists i name ↔ s.Lists i name := by
    simp only [Mods.Lists, hw.defs, implies_true]
  refine Triple.modify (Lasts.claim ?_ ?_)
  · intro hsource
    obtain ⟨m, hm, hl⟩ := hkept hsource
    exact ⟨m, hm, hlists.mpr hl⟩
  · intro horderly hanon hnone i hl
    rw [Mods.findModule, hw.rows] at hnone
    rw [Mods.Orderly, hw.log] at horderly
    exact (hown horderly hanon hnone i (hlists.mp hl)).lasts hw.lasts.origins

theorem loadFromHost_endures (hres : Enduring resolve) (hnone : s.findModule name = none) :
    Endures (loadFromHost env resolve loader name) s := by
  refine .bind_of lasts_chains (moduleFromHost_endures hres hnone)
    (moduleFromHost_makes hres.grows) fun m t _ h => ?_
  refine .bind lasts_chains (claimModuleName_endures ?_ ?_) fun _ u _ => .pure lasts_chains m u
  · exact fun _ => ⟨m, rfl, h.lists⟩
  · exact fun _ _ _ _ _ hkind => by cases hkind

theorem kmpModuleLoader_endures (hres : Enduring resolve) (hnone : s.findLoaded name = none) :
    Endures (kmpModuleLoader env resolve name) s := by
  refine Triple.get_bind ?_
  split
  · rename_i hrow
    refine compileModule_endures hres fun _ r hr => ?_
    cases hrow.symm.trans hr
    exact ⟨_, rfl, rfl⟩
  · exact loadFromHost_endures hres ‹_›
  · rename_i hnosource _
    refine Runs.throw ⟨lasts_composes.refl s, fun _ hs n hn => ?_⟩
    cases hn
    cases hrow : s.findModule name with
    | none => rfl
    | some r =>
      obtain ⟨hmem, rfl⟩ := findModule_mem hrow
      obtain ⟨n, kind, source, defn⟩ := r
      cases source with
      | some code => exact (hnosource _ _ code _ hrow).elim
      | none =>
        obtain ⟨m, -, hl⟩ := hs.kept _ hmem rfl
        exact absurd hnone (findLoaded_ne_none hl)

theorem hostResolve_endures (hres : Enduring resolve) :
    Endures (hostResolveImportedModule env resolve name) s := by
  have hlookup : Endures (lookupModule env resolve name) s := by
    refine .bind lasts_chains (allocate_checks.endures s) fun _ t _ => Triple.get_bind ?_
    split
    · exact Runs.pure lasts_chains _ t
    · exact kmpModuleLoader_endures hres ‹_›
  refine .bind_of lasts_chains hlookup (lookupModule_finds hres.grows) fun m t _ h => ?_
  exact .modify_bind lasts_chains (.imported h.lists) (.pure lasts_chains m _)

theorem resolveEntry_endures (hres : Enduring resolve) :
    Endures (resolveEntry env resolve m i name) s := by
  refine .bind lasts_chains (hostResolve_endures hres) fun m1 t _ => .modify_bind lasts_chains ?_ ?_
  · refine .setDef ?_ t m
    exact fun _ => ⟨rfl, rfl, rfl⟩
  · exact (hres.lasts m1 _).onError fun _ u h => h.clean (.note u (by simp))

theorem resolveEntries_endures (hres : Enduring resolve) :
    Endures (resolveEntries env resolve m i names) s := by
  induction names generalizing i s with
  | nil => exact .pure lasts_chains () s
  | cons name names ih => exact .bind lasts_chains (resolveEntry_endures hres) fun _ _ _ => ih

theorem resolveModule_enduring (env : Env) (fuel : ℕ) : Enduring (resolveModule env fuel) := by
  induction fuel with
  | zero => exact ⟨resolveModule_grows env 0, fun _ _ => Triple.stop⟩
  | succ fuel ih =>
    refine ⟨resolveModule_grows env _, fun m s => Triple.get_bind ?_⟩
    split
    · exact .stop
    · split
      · exact Runs.pure lasts_chains () s
      · refine Runs.modify_bind lasts_chains ?_ (resolveEntries_endures ih)
        refine .setDef ?_ s m
        exact fun _ => ⟨rfl, rfl, rfl⟩

theorem jsResolveModule_endures : Endures (jsResolveModule env fuel m) s := by
  refine ((resolveModule_enduring env fuel).lasts m s).onError fun _ t h => h.clean ?_
  exact lasts_composes.trans (.note t (by simp)) (.purge _)

end Imports

-- ---------------------------------------------------------------------------
-- Calls
-- ---------------------------------------------------------------------------

section Calls

variable {env : Env}

/-- A module that was read is the only one of its name. -/
theorem withRead_sole (hnone : s.findLoaded n = none) (hnested : n ∉ ds.map Prod.fst)
    (h : (s.withRead ((n, reqs) :: ds)).Lists i n) : i = s.defs.length := by
  obtain ⟨d, hd, hl, rfl⟩ := h
  rw [withRead_defs] at hd
  rcases Nat.lt_trichotomy i s.defs.length with hlt | heq | hgt
  · rw [List.getElem?_append_left hlt] at hd
    exact absurd hnone (findLoaded_ne_none ⟨d, hd, hl, rfl⟩)
  · exact heq
  · obtain ⟨k, hk⟩ := Nat.exists_eq_add_of_lt hgt
    rw [List.getElem?_append_right (Nat.le_of_lt hgt), hk, Nat.add_assoc, Nat.add_sub_cancel_left,
      List.map_cons, List.getElem?_cons_succ] at hd
    obtain ⟨p, hp, rfl⟩ := List.mem_map.mp (List.mem_of_getElem? hd)
    exact absurd (List.mem_map.mpr ⟨p, hp, rfl⟩) hnested

/-- The module in the bytecode, with the names of those that come with it. -/
def Env.moduleIn (env : Env) (buf : Bytes) : Option (Name × List Name) :=
  match env.readObject (buf.drop headerSize) with
  | .module name _ nested => some (name, nested.map Prod.fst)
  | _ => none

/-- A name without a row is not in the list when it is registered, and bytecode brings
it only once. -/
def LoadOp.Free (env : Env) (s : Mods) : LoadOp → Prop
  | .registerModule name _ => s.findModule name = none → s.findLoaded name = none
  | .registerModuleBytecode buf => ∀ p ∈ env.moduleIn buf, anonymous p.1 = false →
      s.findModule p.1 = none → s.findLoaded p.1 = none ∧ p.1 ∉ p.2
  | _ => True

theorem registerModule_endures (h : LoadOp.Free env s (.registerModule name code)) :
    Endures (kmpjsRegisterModule env name code) s := by
  show Endures (if _ then _ else _) _
  split
  · exact .throw (.of_none rfl)
  · refine .bind_of lasts_chains (moduleNameTaken_checks.endures s)
      (moduleNameTaken_spec name s) fun _ t _ ht => ?_
    obtain ⟨rfl, hnone⟩ := ht
    refine .bind lasts_chains (claimModuleName_endures (by simp) ?_) fun _ u _ =>
      .pure lasts_chains _ u
    exact fun _ _ _ i hl => absurd (h hnone) (findLoaded_ne_none hl)

theorem registerModuleBytecode_endures (h : LoadOp.Free env s (.registerModuleBytecode buf)) :
    Endures (kmpjsRegisterModuleBytecode env buf) s := by
  refine .bind_of lasts_chains (registerChecks_checks.endures s) (registerChecks_spec env buf s) ?_
  rintro ⟨body, name⟩ t - ⟨hw, hheader, hanon, hnone, reqs, nested, hobj⟩
  obtain ⟨hfree, hnested⟩ : s.findLoaded name = none ∧ name ∉ nested.map Prod.fst := by
    refine h (name, nested.map Prod.fst) ?_ hanon hnone
    have hbody : body = buf.drop headerSize := checkBytecodeHeader_body hheader
    simp only [Env.moduleIn, ← hbody, hobj, Option.mem_def]
  refine .bind_of lasts_chains readBytecodeBody_endures
    (readBytecodeBody_spec env body .module t) ?_
  rintro (_ | m) _ - ⟨rfl, hread⟩
  · cases hread
  · obtain ⟨-, rfl, name', reqs', nested', hread⟩ := hread
    have hobj' := readNow_module hread
    rw [hobj] at hobj'
    cases hobj'
    have hlists := afterRead_lists hread
    have hsole : ∀ i, (t.afterRead env body).Lists i name → i = t.defs.length := by
      intro i hl
      simp only [Mods.afterRead, hread, Read.defs] at hl
      have hunlisted : Mods.findLoaded { t with clock := t.clock + 1 } name = none := by
        simpa only [Mods.findLoaded, hw.defs] using hfree
      have hnew := withRead_sole hunlisted hnested hl
      exact hnew
    refine .bind_of lasts_chains (allocate_checks.endures _)
      (allocate_checks.waits _) fun _ u _ hw' => ?_
    have hlists' : ∀ {i}, u.Lists i name ↔ (t.afterRead env body).Lists i name := by
      simp only [Mods.Lists, hw'.defs, implies_true]
    refine .bind lasts_chains (claimModuleName_endures ?_ ?_) fun _ v _ => .pure lasts_chains _ v
    · exact fun _ => ⟨_, rfl, hlists'.mpr hlists⟩
    · exact fun _ _ _ i hl _ => congrArg some (hsole i (hlists'.mp hl)).symm

/-- A definition that was evaluated takes its name. -/
theorem claimEvaluated_endures (h : s.Lists m name) :
    Endures (unlessAnonymous name (claimModuleName env name .evaluated none (some m))) s := by
  unfold unlessAnonymous
  split
  · exact .pure lasts_chains () s
  · refine claimModuleName_endures (fun _ => ⟨m, rfl, h⟩) ?_
    exact fun _ _ _ _ _ hkind => by cases hkind

theorem evalModule_endures : Endures (kmpjsEvalModule env fuel code name) s := by
  have hgrows := resolveModule_grows env fuel
  refine .bind_of lasts_chains ((unlessAnonymous_checks moduleNameTaken_checks).endures s)
    (unlessTaken_spec name s) fun _ t _ ht => ?_
  obtain ⟨rfl, hnone⟩ := ht
  refine .bind_of lasts_chains (allocate_checks.endures t)
    (allocate_checks.waits t) fun _ u _ hw => ?_
  refine .bind_of lasts_chains (compileModule_endures (resolveModule_enduring env fuel) ?_)
    (compileModule_makes hgrows) ?_
  · intro hanon r hr
    have hr : u.findModule name = some r := hr
    rw [Mods.findModule, hw.rows] at hr
    cases (hnone hanon).symm.trans hr
  · exact fun m v _ hmakes => .bind lasts_chains (claimEvaluated_endures hmakes.lists) fun _ w _ =>
      .pure lasts_chains _ w

theorem runBytecode_endures : Endures (kmpjsRunBytecode env fuel buf) s := by
  refine .bind_of lasts_chains (runChecks_checks.endures s) (runChecks_spec env buf s) ?_
  rintro ⟨kind, body, name⟩ t - ⟨-, -, hname⟩
  refine .bind_of lasts_chains readBytecodeBody_endures (readBytecodeBody_spec env body kind t) ?_
  rintro (_ | m) _ - ⟨rfl, hread⟩
  · exact .pure lasts_chains _ _
  · obtain ⟨rfl, rfl, name', reqs', nested', hread⟩ := hread
    obtain ⟨-, reqs, nested, hobj⟩ := hname rfl
    have hobj' := readNow_module hread
    rw [hobj] at hobj'
    cases hobj'
    refine .bind_of lasts_chains (allocate_checks.endures _)
      (allocate_checks.waits _) fun _ u _ hw => ?_
    have hlists : u.Lists t.defs.length name :=
      (afterRead_lists hread).grows (hw.grows : Grows none _ _)
    have hgrows : Triple (jsResolveModule env fuel t.defs.length) u (fun _ => Grows none u) (fun _ _ => True) :=
      .onError ((resolveModule_grows env fuel _ u).mono (fun _ _ h => h) fun _ _ _ => trivial)
    refine .bind_of lasts_chains jsResolveModule_endures hgrows fun _ v _ hg => ?_
    exact .bind lasts_chains (claimEvaluated_endures (hlists.grows hg)) fun _ w _ =>
      .pure lasts_chains _ w

theorem call_endures (op : LoadOp) (fuel : ℕ) (h : op.Free env s) : Endures (op.call env fuel) s := by
  cases op with
  | registerModule name code => exact registerModule_endures h
  | registerModuleBytecode buf => exact registerModuleBytecode_endures h
  | evalModule code name => exact evalModule_endures
  | runBytecode buf => exact runBytecode_endures
  | dynamicImport name =>
    refine .bind lasts_chains (hostResolve_endures (resolveModule_enduring env fuel)) fun m t _ => ?_
    exact .bind lasts_chains jsResolveModule_endures fun _ u _ => .pure lasts_chains _ u

/-- The row of a name that was registered. -/
def LoadOp.row (s : Mods) (name : Name) : LoadOp → KmpModule
  | .registerModule _ code => ⟨name, .source, some code, none⟩
  | _ => ⟨name, .bytecode, none, some s.defs.length⟩

theorem claim_registers (hnone : s.findModule name = none) :
    Triple (claimModuleName env name kind source defn) s
      (fun _ s' => s'.findModule name = some ⟨name, kind, source, defn⟩) (fun _ _ => True) := by
  refine (claimModuleName_spec env name kind source defn s).mono ?_ fun _ _ _ => trivial
  rintro _ _ ⟨t, hw, rfl⟩
  have hnone : t.findModule name = none := by rwa [Mods.findModule, hw.rows]
  rw [findModule_claim, hnone, Option.none_or, if_pos rfl]

theorem call_registers (op : LoadOp) (fuel : ℕ) (s : Mods) :
    Triple (op.call env fuel) s
      (fun out s' => ∀ n, out = .registered n → s'.findModule n = some (op.row s n))
      (fun _ _ => True) := by
  cases op with
  | registerModule name code =>
    show Triple (if _ then _ else _) _ _ _
    split
    · exact .throw trivial
    · refine .bind ((moduleNameTaken_spec name s).mono ?_ fun _ _ _ => trivial)
      rintro _ _ ⟨rfl, hnone⟩
      refine .bind ((claim_registers hnone).mono (fun _ t ht => .pure ?_) fun _ _ _ => trivial)
      rintro _ ⟨⟩
      exact ht
  | registerModuleBytecode buf =>
    refine .bind ((registerChecks_spec env buf s).mono ?_ fun _ _ _ => trivial)
    rintro ⟨body, name⟩ t ⟨hw, -, -, hnone, -⟩
    refine .bind ((readBytecodeBody_spec env body .module t).mono ?_ fun _ _ _ => trivial)
    rintro (_ | m) _ ⟨rfl, hread⟩
    · cases hread
    · obtain ⟨-, rfl, -⟩ := hread
      refine .bind ((allocate_checks.waits _).mono (fun _ u hw' => .bind ?_) fun _ _ _ => trivial)
      have hnone' : u.findModule name = none := by
        rw [Mods.findModule, hw'.rows, Mods.afterRead, withRead_rows]
        exact hw.rows ▸ hnone
      refine (claim_registers hnone').mono (fun _ v hv => .pure ?_) fun _ _ _ => trivial
      rintro _ ⟨⟩
      rw [hv, hw.defs]
      rfl
  | evalModule code name =>
    exact .skip fun _ _ => .skip fun _ _ => .skip fun _ _ => .skip fun _ _ => .pure (by simp)
  | runBytecode buf =>
    refine .skip fun _ _ => .skip fun obj _ => ?_
    cases obj with
    | none => exact .pure (by simp)
    | some m => exact .skip fun _ _ => .skip fun _ _ => .skip fun _ _ => .pure (by simp)
  | dynamicImport name => exact .skip fun _ _ => .skip fun _ _ => .pure (by simp)

end Calls

-- ---------------------------------------------------------------------------
-- Runs
-- ---------------------------------------------------------------------------

instance (env : Env) (s : Mods) : (op : LoadOp) → Decidable (op.Free env s)
  | .registerModule name _ =>
    inferInstanceAs (Decidable (s.findModule name = none → s.findLoaded name = none))
  | .registerModuleBytecode buf =>
    inferInstanceAs (Decidable (∀ p ∈ env.moduleIn buf, anonymous p.1 = false →
      s.findModule p.1 = none → s.findLoaded p.1 = none ∧ p.1 ∉ p.2))
  | .evalModule _ _ | .runBytecode _ | .dynamicImport _ => .isTrue trivial

/-- The call takes no name that is in use and drops no definition with a row. -/
def orderly (env : Env) (s : Mods) (a : ℕ × LoadOp) : Prop :=
  a.2.Free env s ∧ ∀ p ∈ a.2.run env a.1 s, p.2.Orderly

instance (env : Env) (s : Mods) (a : ℕ × LoadOp) : Decidable (orderly env s a) :=
  inferInstanceAs (Decidable (_ ∧ ∀ p ∈ a.2.run env a.1 s, _))

section Runs

variable {env : Env}

theorem init_durable : Durable .init where
  kept := by simp [Mods.init]
  own := by
    intro n r i _ hr
    simp [Mods.init, Mods.findModule] at hr

/-- What a call from a state in which the stores agree comes to. -/
theorem call_lasts {s : Mods} (ha : orderly env s a)
    (hrun : a.2.call env a.1 { s with log := [] } = some (r, s')) :
    s'.Orderly ∧ Lasts { s with log := [] } s' ∧
      ∀ e, r = .error e → Blames e { s with log := [] } s' := by
  have hfree : a.2.Free env { s with log := [] } := by
    have hs := ha.1
    cases hop : a.2 with
    | registerModule name code =>
      rw [hop] at hs
      exact hs
    | registerModuleBytecode buf =>
      rw [hop] at hs
      exact hs
    | _ => trivial
  have hend : Endures (a.2.call env a.1) { s with log := [] } := call_endures a.2 a.1 hfree
  refine ⟨ha.2 (r, s') hrun, ?_⟩
  cases r with
  | ok a => exact ⟨hend.ok hrun, by simp⟩
  | error e =>
    obtain ⟨hlasts, hblames⟩ := hend.error hrun
    refine ⟨hlasts, ?_⟩
    rintro _ ⟨⟩
    exact hblames

theorem reaches_durable (h : Machine.Reaches (loadStep env) (orderly env) s t) (hs : Durable s) :
    Durable t ∧ s.rows <+: t.rows := by
  refine h.invariant (I := fun t => Durable t ∧ s.rows <+: t.rows) ⟨hs, List.prefix_refl _⟩ ?_
  rintro t a u ⟨ht, hrows⟩ ha hstep
  obtain ⟨r, hrun⟩ := loadStep_eq_some hstep
  obtain ⟨horderly, hlasts, -⟩ := call_lasts ha hrun
  exact ⟨hlasts.durable horderly (ht.sameStores rfl rfl), hrows.trans hlasts.rows⟩

/-- A name that was registered stays registered: every row without a source has
its definition, no import of the name fails for want of it, and each is answered
with what was registered. -/
theorem registration_durable (h : Machine.Reaches (loadStep env) (orderly env) .init s)
    (ha : orderly env s (fuel, op)) (hrun : op.run env fuel s = some (.ok (.registered n), s₁))
    (hanon : anonymous n = false) (hlater : Machine.Reaches (loadStep env) (orderly env) s₁ t) :
    (∀ r ∈ t.rows, r.source = none → ∃ m, r.defn = some m ∧ t.Lists m r.name) ∧
    t.findModule n = some (op.row s n) ∧
    ∀ {fuel op' r u}, orderly env t (fuel, op') → op'.run env fuel t = some (r, u) →
      r ≠ .error (.notRegistered n) ∧ ∀ m, .imported n m ∈ u.log → Belongs u (op.row s n) m := by
  obtain ⟨hs, -⟩ := reaches_durable h init_durable
  obtain ⟨horderly, hlasts, -⟩ := call_lasts ha hrun
  have hs₁ : Durable s₁ := hlasts.durable horderly (hs.sameStores rfl rfl)
  obtain ⟨ht, hrows⟩ := reaches_durable hlater hs₁
  have hrow : t.findModule n = some (op.row s n) :=
    findModule_stays hrows ((call_registers op fuel _).ok hrun n rfl)
  refine ⟨ht.kept, hrow, fun {fuel' op' r u} ha' hrun' => ?_⟩
  obtain ⟨horderly', hlasts', hblames⟩ := call_lasts ha' hrun'
  have ht' : Durable { t with log := [] } := ht.sameStores rfl rfl
  have hrow' : Mods.findModule { t with log := [] } n = some (op.row s n) := hrow
  refine ⟨?_, fun m hm => ?_⟩
  · rintro rfl
    have hnone := hblames _ rfl horderly' ht' n rfl
    simp [hrow'] at hnone
  · exact (hlasts'.imports horderly' ht' hanon hrow' hm).resolve_left List.not_mem_nil

end Runs

theorem registration_durable_bytecode :
    ∃ s₁ t, LoadOp.run twoModules 0 (.registerModuleBytecode (bytecodeHeader .module ++ moduleBody 98 [])) .init =
        some (.ok (.registered (ascii "b")), s₁) ∧
      Machine.exec (loadStep twoModules) (orderly twoModules) s₁
        [(3, .dynamicImport (ascii "x")), (3, .dynamicImport (ascii "b"))] = some t ∧
      t.findModule (ascii "b") = some ⟨ascii "b", .bytecode, none, some 0⟩ := by
  obtain ⟨s₁, hrun, t, hexec⟩ : ∃ s₁,
      LoadOp.run twoModules 0 (.registerModuleBytecode (bytecodeHeader .module ++ moduleBody 98 [])) .init =
        some (.ok (.registered (ascii "b")), s₁) ∧
      ∃ t, Machine.exec (loadStep twoModules) (orderly twoModules) s₁
        [(3, .dynamicImport (ascii "x")), (3, .dynamicImport (ascii "b"))] = some t := ⟨_, rfl, _, rfl⟩
  have ha : orderly twoModules .init
      (0, .registerModuleBytecode (bytecodeHeader .module ++ moduleBody 98 [])) := by decide
  have hdurable := registration_durable (.refl _) ha hrun rfl (Machine.reaches_of_exec hexec)
  exact ⟨s₁, t, hrun, hexec, hdurable.2.1⟩

/-- The failed import of one module drops another, which was registered. -/
theorem failed_import_drops_registered :
    ¬ ∀ env s fuel op n s₁ t fuel' op' u, Machine.Reaches (loadStep env) Machine.always .init s →
      LoadOp.run env fuel op s = some (.ok (.registered n), s₁) → anonymous n = false →
      Machine.Reaches (loadStep env) Machine.always s₁ t →
      LoadOp.run env fuel' op' t ≠ some (.error (.notRegistered n), u) := by
  intro h
  obtain ⟨s₁, hrun, t, hexec, u, hfails⟩ : ∃ s₁,
      LoadOp.run twoModules 0 (.registerModuleBytecode (bytecodeHeader .module ++ moduleBody 98 [])) .init =
        some (.ok (.registered (ascii "b")), s₁) ∧
      ∃ t, Machine.exec (loadStep twoModules) Machine.always s₁
        [(3, .runBytecode (bytecodeHeader .module ++ moduleBody 109 [120]))] = some t ∧
      ∃ u, LoadOp.run twoModules 3 (.dynamicImport (ascii "b")) t =
        some (.error (.notRegistered (ascii "b")), u) := ⟨_, rfl, _, rfl, _, rfl⟩
  exact h twoModules .init 0 _ (ascii "b") s₁ t 3 _ u (.refl _) hrun rfl (Machine.reaches_of_exec hexec) hfails

end QuickJsKmp
