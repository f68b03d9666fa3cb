import QuickJsKmp.Resolution

/-!
# Imports that succeed

An import succeeds when all it leads to can be had: in the list, in the table or
from the loader. `names` bounds what it leads to.
-/

namespace QuickJsKmp

open Fallible (Prog Triple Keeps Yields Composes)

def ModuleDef.imports (d : ModuleDef) : List Name := d.reqs.map ReqModuleEntry.name

/-- A module of the name, whose imports are among the names. -/
def Serves (env : Env) (names : List Name) (name : Name) : LoaderAnswer → Prop
  | .source code => ∃ reqs, env.parse code = some reqs ∧ reqs ⊆ names
  | .bytecode buf => ∃ body reqs, checkBytecodeHeader buf = .ok (.module, body) ∧
      env.readObject body = .module name reqs [] ∧ reqs ⊆ names
  | _ => False

/-- Where a module of the name can be had, with its imports among the names. -/
inductive Supplied (env : Env) (names : List Name) (s : Mods) (name : Name) : Prop
  | listed (hfind : s.findLoaded name = some m) (hd : s.defs[m]? = some d)
      (himports : d.resolved ∨ d.imports ⊆ names)
  | registered (hnone : s.findLoaded name = none) (hrow : s.findModule name = some row)
      (hsource : row.source = some code) (hparse : env.parse code = some reqs) (hreqs : reqs ⊆ names)
  | served (hnone : s.findLoaded name = none) (hrow : s.findModule name = none)
      (hloader : env.loader = some loader) (hserves : ∀ t, s.clock ≤ t → Serves env names name (loader t name))

/-- From now on no allocation is refused. -/
def Steady (env : Env) (s : Mods) : Prop := ∀ t, s.clock ≤ t → env.refused t = false ∧ env.cut t = none

/-- All of the names can be had. -/
structure Available (env : Env) (names : List Name) (s : Mods) : Prop where
  steady : Steady env s
  supplied : ∀ n ∈ names, Supplied env names s n

/-- What an import that succeeds does to the list. -/
structure Later (s s' : Mods) : Prop where
  found : ∀ {n m}, s.findLoaded n = some m → s'.findLoaded n = some m
  marked : ∀ {m}, s.Resolved m → s'.Resolved m
  tidy : s.Tidy → s'.Tidy

theorem later_composes : Composes Later where
  refl := fun _ => ⟨id, id, id⟩
  trans := fun h h' => ⟨fun hf => h'.found (h.found hf), fun hm => h'.marked (h.marked hm),
    fun ht => h'.tidy (h.tidy ht)⟩

variable {env : Env} {names : List Name} {s s' : Mods}

-- ---------------------------------------------------------------------------
-- The list
-- ---------------------------------------------------------------------------

theorem findLoaded_setDef {f : ModuleDef → ModuleDef}
    (hf : ∀ d, (f d).listed = d.listed ∧ (f d).name = d.name)
    (s : Mods) (m : ℕ) (name : Name) : (s.setDef m f).findLoaded name = s.findLoaded name := by
  simp only [Mods.findLoaded, Mods.setDef]
  generalize s.defs = defs
  induction defs generalizing m with
  | nil => cases m <;> rfl
  | cons d defs ih =>
    cases m with
    | zero => simp [List.findIdx?_cons, hf]
    | succ m => simp only [List.modify_succ_cons, List.findIdx?_cons, ih]

theorem findLoaded_add (s : Mods) (d : ModuleDef) (name : Name) : (s.add d).findLoaded name =
    (s.findLoaded name).or (if d.listed ∧ d.name = name then some s.defs.length else none) := by
  simp only [Mods.findLoaded, Mods.add, List.findIdx?_append, List.findIdx?_singleton]
  congr 1
  split <;> simp_all

theorem Later.add (s : Mods) (d : ModuleDef) : Later s (s.add d) where
  found := by
    intro n m h
    rw [findLoaded_add, h, Option.some_or]
  marked := by
    rintro m ⟨d', hd', hr⟩
    obtain ⟨d'', hd'', hext, -⟩ := (add_grows s d : Grows none _ _).defs hd'
    exact ⟨d'', hd'', hext.resolved hr⟩
  tidy := id

theorem Later.setDef {f : ModuleDef → ModuleDef}
    (hf : ∀ d, (f d).listed = d.listed ∧ (f d).name = d.name)
    (hr : ∀ d, d.resolved → (f d).resolved) (s : Mods) (m : ℕ) : Later s (s.setDef m f) where
  found := fun h => (findLoaded_setDef hf s m _).trans h
  marked := by
    rintro i ⟨d, hd, hres⟩
    refine ⟨if m = i then f d else d, by rw [getElem?_setDef, hd]; rfl, ?_⟩
    split
    · exact hr d hres
    · exact hres
  tidy := id

theorem Later.same (h : s'.defs = s.defs) (htidy : s.Tidy → s'.Tidy) : Later s s' where
  found := fun hf => by rwa [Mods.findLoaded, h]
  marked := fun hm => by rwa [Mods.Resolved, h]
  tidy := htidy

theorem Waits.later (h : Waits s s') : Later s s' :=
  .same h.defs fun htidy => by rwa [Mods.Tidy, h.log]

theorem Later.note (s : Mods) (he : e.tidy) : Later s (s.note e) :=
  .same rfl fun htidy => List.forall_mem_cons.mpr ⟨he, htidy⟩

theorem Later.withRead (s : Mods) (ds : List (Name × List Name)) : Later s (s.withRead ds) := by
  induction ds generalizing s with
  | nil => exact later_composes.refl s
  | cons d ds ih =>
    have hread : (Event.read s.defs.length (s.shadows d.1)).tidy := rfl
    have hnote := later_composes.trans (Later.add s (readDef d)) (Later.note _ hread)
    exact later_composes.trans hnote (ih _)

theorem Later.afterRead (s : Mods) (env : Env) (body : Bytes) : Later s (s.afterRead env body) := by
  exact later_composes.trans (waits_tick s).later (Later.withRead _ _)

-- ---------------------------------------------------------------------------
-- What stays available
-- ---------------------------------------------------------------------------

/-- The stores are read the same, and time passed. -/
theorem Supplied.same (h : Supplied env names s n) (hdefs : s'.defs = s.defs)
    (hrows : s'.rows = s.rows)
    (hclock : s.clock ≤ s'.clock) : Supplied env names s' n := by
  have hfind : s'.findLoaded n = s.findLoaded n := by simp only [Mods.findLoaded, hdefs]
  have hrow : s'.findModule n = s.findModule n := by simp only [Mods.findModule, hrows]
  cases h with
  | listed hf hd himports => exact .listed (hfind.trans hf) (hdefs ▸ hd) himports
  | registered hnone hr hsource hparse hreqs =>
    exact .registered (hfind.trans hnone) (hrow.trans hr) hsource hparse hreqs
  | served hnone hr hloader hserves =>
    exact .served (hfind.trans hnone) (hrow.trans hr) hloader
      fun t ht => hserves t (Nat.le_trans hclock ht)

theorem Available.same (h : Available env names s) (hdefs : s'.defs = s.defs)
    (hrows : s'.rows = s.rows)
    (hclock : s.clock ≤ s'.clock) : Available env names s' where
  steady := fun t ht => h.steady t (Nat.le_trans hclock ht)
  supplied := fun n hn => (h.supplied n hn).same hdefs hrows hclock

theorem Available.waits (h : Available env names s) (hw : Waits s s') : Available env names s' :=
  h.same hw.defs hw.rows hw.clock

/-- All of the names can be had, once a definition of this name is made. -/
def Provided (env : Env) (names : List Name) (s : Mods) (name : Name) : Prop :=
  Steady env s ∧ ∀ n ∈ names, Supplied env names s n ∨ (name = n ∧ s.findLoaded n = none)

theorem Available.provided (h : Available env names s) : Provided env names s name :=
  ⟨h.steady, fun n hn => .inl (h.supplied n hn)⟩

theorem Supplied.add {d : ModuleDef} (h : Supplied env names s n) (himports : d.imports ⊆ names) :
    Supplied env names (s.add d) n := by
  have hfind := findLoaded_add s d n
  cases h with
  | listed hf hd himports =>
    refine .listed ((Later.add s d).found hf) ?_ himports
    exact (List.getElem?_append_left (List.getElem?_eq_some_iff.mp hd).1).trans hd
  | registered hnone hr hsource hparse hreqs =>
    rw [hnone, Option.none_or] at hfind
    split at hfind
    · exact .listed hfind List.getElem?_concat_length (.inr himports)
    · exact .registered hfind hr hsource hparse hreqs
  | served hnone hr hloader hserves =>
    rw [hnone, Option.none_or] at hfind
    split at hfind
    · exact .listed hfind List.getElem?_concat_length (.inr himports)
    · exact .served hfind hr hloader hserves

theorem find_new {d : ModuleDef} (hnone : s.findLoaded name = none) (hl : d.listed)
    (hname : d.name = name) :
    (s.add d).findLoaded name = some s.defs.length := by
  rw [findLoaded_add, hnone, Option.none_or, if_pos ⟨hl, hname⟩]

theorem Provided.add {d : ModuleDef} (h : Provided env names s name) (hl : d.listed)
    (hname : d.name = name)
    (himports : d.imports ⊆ names) : Available env names (s.add d) where
  steady := h.1
  supplied := by
    intro n hn
    rcases h.2 n hn with h | ⟨rfl, hnone⟩
    · exact h.add himports
    · exact .listed (find_new hnone hl hname) List.getElem?_concat_length (.inr himports)

theorem Available.setDef {f : ModuleDef → ModuleDef} (h : Available env names s)
    (hf : ∀ d, (f d).listed = d.listed ∧ (f d).name = d.name) (m : ℕ)
    (himports : ∀ d, d.resolved ∨ d.imports ⊆ names → (f d).resolved ∨ (f d).imports ⊆ names) :
    Available env names (s.setDef m f) where
  steady := h.steady
  supplied := by
    intro n hn
    have hfind := findLoaded_setDef hf s m n
    cases h.supplied n hn with
    | listed hf hd hok =>
      refine .listed (hfind.trans hf) ((getElem?_setDef s m _ f).trans (congrArg _ hd)) ?_
      split
      · exact himports _ hok
      · exact hok
    | registered hnone hr hsource hparse hreqs =>
      exact .registered (hfind.trans hnone) hr hsource hparse hreqs
    | served hnone hr hloader hserves => exact .served (hfind.trans hnone) hr hloader hserves

/-- A row for a name that is listed. -/
theorem Available.claim (h : Available env names s) (hfind : s.findLoaded row.name = some m) :
    Available env names { s with rows := s.rows ++ [row] } where
  steady := h.steady
  supplied := by
    intro n hn
    have hrow : s.findLoaded n = none →
      Mods.findModule { s with rows := s.rows ++ [row] } n = s.findModule n := by
      intro hnone
      have hne : row.name ≠ n := by
        rintro rfl
        simp [hfind] at hnone
      simp [Mods.findModule, List.find?_append, hne]
    cases h.supplied n hn with
    | listed hf hd himports => exact .listed hf hd himports
    | registered hnone hr hsource hparse hreqs =>
      exact .registered hnone ((hrow hnone).trans hr) hsource hparse hreqs
    | served hnone hr hloader hserves => exact .served hnone ((hrow hnone).trans hr) hloader hserves

-- ---------------------------------------------------------------------------
-- What is left to resolve
-- ---------------------------------------------------------------------------

def Mods.settled (s : Mods) (name : Name) : Bool :=
  (s.findLoaded name).any fun m => s.defs[m]?.any ModuleDef.resolved

def Mods.pending (s : Mods) (names : List Name) : ℕ := names.countP fun n => !s.settled n

/-- `js_resolve_module` marks the definition. -/
def Mods.mark (s : Mods) (m : ℕ) : Mods := s.setDef m fun d => { d with resolved := true }

theorem settled_iff (s : Mods) (name : Name) :
    s.settled name ↔ ∃ m, s.findLoaded name = some m ∧ s.Resolved m := by
  simp only [Mods.settled, Mods.Resolved, Option.any_eq_true]

theorem Later.settled (h : Later s s') (hset : s.settled name) : s'.settled name := by
  obtain ⟨m, hfind, hr⟩ := (settled_iff s name).mp hset
  exact (settled_iff s' name).mpr ⟨m, h.found hfind, h.marked hr⟩

theorem Later.unsettled (h : Later s s') (name : Name) (hset : !s'.settled name) :
    !s.settled name := by
  rw [Bool.not_eq_true'] at hset ⊢
  exact Bool.eq_false_iff.mpr fun hset' => Bool.eq_false_iff.mp hset (h.settled hset')

theorem Later.pending_le (h : Later s s') (names : List Name) :
    s'.pending names ≤ s.pending names :=
  List.countP_mono_left fun n _ => h.unsettled n

theorem Later.mark (s : Mods) (m : ℕ) : Later s (s.mark m) := by
  refine .setDef ?_ ?_ s m
  · exact fun _ => ⟨rfl, rfl⟩
  · exact fun _ _ => rfl

theorem countP_lt_countP {l : List α} {p q : α → Bool} (hpq : ∀ x ∈ l, p x → q x) (hx : x ∈ l)
    (hp : p x = false) (hq : q x) : l.countP p < l.countP q := by
  induction l with
  | nil => simp at hx
  | cons y l ih =>
    have hle : l.countP p ≤ l.countP q :=
      List.countP_mono_left fun z hz => hpq z (List.mem_cons_of_mem _ hz)
    simp only [List.countP_cons]
    rcases List.mem_cons.mp hx with rfl | hx
    · simp only [hp, hq]
      simpa using Nat.lt_succ_of_le hle
    · have hlt := ih (fun z hz => hpq z (List.mem_cons_of_mem _ hz)) hx
      have hy := hpq y List.mem_cons_self
      cases hpy : p y with
      | false =>
        simp only [Bool.false_eq_true, if_false, Nat.add_zero]
        exact Nat.lt_add_right _ hlt
      | true =>
        simp only [hy hpy, if_true]
        exact Nat.succ_lt_succ hlt

/-- A definition that is found under one of the names and marked is one less. -/
theorem pending_mark_lt (hn : name ∈ names) (hfind : s.findLoaded name = some m)
    (hd : s.defs[m]? = some d) (hr : d.resolved = false) :
    (s.mark m).pending names < s.pending names := by
  have hlater := Later.mark s m
  refine countP_lt_countP (fun n _ => hlater.unsettled n) hn ?_ ?_
  · rw [Bool.not_eq_false']
    refine (settled_iff _ _).mpr ⟨m, hlater.found hfind, { d with resolved := true }, ?_, rfl⟩
    simp [Mods.mark, getElem?_setDef, hd]
  · simp [Mods.settled, hfind, hd, hr]

-- ---------------------------------------------------------------------------
-- Imports
-- ---------------------------------------------------------------------------

/-- The names are available still. -/
structure Goes (env : Env) (names : List Name) (s s' : Mods) : Prop where
  avail : Available env names s'
  later : Later s s'

theorem Goes.trans (h : Later s t) (h' : Goes env names t s') : Goes env names s s' :=
  ⟨h'.avail, later_composes.trans h h'.later⟩

theorem Goes.waits (h : Goes env names s t) (hw : Waits t s') : Goes env names s s' :=
  ⟨h.avail.waits hw, later_composes.trans h.later hw.later⟩

theorem allocate_yields (h : Steady env s) : Yields (allocate env) s (fun _ => Waits s) := by
  refine ⟨(), { s with clock := s.clock + 1 }, ?_, waits_tick s⟩
  simp [allocate, tick, bind, pure, Fallible.get, Fallible.modify, h s.clock (Nat.le_refl _)]

theorem Steady.waits (h : Steady env s) (hw : Waits s s') : Steady env s' :=
  fun t ht => h t (Nat.le_trans hw.clock ht)

theorem makeRoom_yields (h : Steady env s) : Yields (makeRoom env) s (fun _ => Waits s) := by
  suffices hgrow : Yields (growModules env) s (fun _ => Waits s) from
    .bind (hgrow.mono fun _ s₁ hw => (allocate_yields (h.waits hw)).mono fun _ _ => waits_composes.trans hw)
  refine .get_bind ?_
  split
  · refine .bind ((allocate_yields h).mono fun _ s₁ hw => .modify ?_)
    exact waits_composes.trans hw (waits_grow s₁)
  · exact .pure (waits_composes.refl s)

section Imports

variable {resolve : ℕ → L Unit}

/-- What `js_new_module_def` appends. -/
def newDef (name : Name) (reqs : List Name) (origin : Origin) : ModuleDef :=
  ⟨name, reqs.map fun n => ⟨n, none⟩, false, true, origin⟩

theorem newDef_imports (name : Name) (reqs : List Name) (origin : Origin) :
    (newDef name reqs origin).imports = reqs := by
  simp [ModuleDef.imports, newDef, Function.comp_def]

theorem setReqs_newDef (s : Mods) (name : Name) (reqs : List Name) (origin : Origin)
    (h : s.defs[m]? = some (newDef name [] origin)) :
    (s.setDef m fun d => { d with reqs := reqs.map fun n => ⟨n, none⟩ }).defs[m]? =
      some (newDef name reqs origin) := by
  rw [getElem?_setDef, h]
  simp [newDef]

/-- A new definition of a source, which `resolve` is then given. -/
theorem jsEval_yields (h : Available env names (s.add (newDef name [] origin)))
    (hparse : env.parse code = some reqs) (hreqs : reqs ⊆ names)
    (hres : ∀ {t}, Available env names t → Later (s.add (newDef name [] origin)) t →
      t.defs[s.defs.length]? = some (newDef name reqs origin) →
      Yields (resolve s.defs.length) t (fun _ => Goes env names t)) :
    Yields (jsEval env resolve code name origin) s
      (fun m s' => m = s.defs.length ∧ Goes env names (s.add (newDef name [] origin)) s') := by
  have hsteady : Steady env s := h.steady
  refine .bind ((allocate_yields hsteady).mono fun _ s₁ hw => .bind ⟨_, _, rfl, ?_⟩)
  have hadd : Waits (s.add (newDef name [] origin)) (s₁.add (newDef name [] origin)) :=
    ⟨by rw [Mods.add, hw.defs]; rfl, hw.rows, hw.log, hw.cap, hw.clock⟩
  have hsteady₁ : Steady env (s₁.add (newDef name [] origin)) := (h.waits hadd).steady
  rw [hw.defs]
  suffices hbody : Yields (evalBody env resolve code s.defs.length) (s₁.add (newDef name [] origin))
      (fun _ => Goes env names (s.add (newDef name [] origin))) from
    .bind (hbody.onError.mono fun _ _ hgoes => .pure ⟨rfl, hgoes⟩)
  simp only [evalBody, hparse]
  refine .bind ((allocate_yields hsteady₁).mono fun _ s₂ hw₂ => .bind (.modify ?_))
  have hwaits := waits_composes.trans hadd hw₂
  have hnew : s₂.defs[s.defs.length]? = some (newDef name [] origin) := by
    rw [hwaits.defs]
    exact List.getElem?_concat_length
  have hlater : Later s₂ (s₂.setDef s.defs.length fun d => { d with reqs := reqs.map fun n => ⟨n, none⟩ }) := by
    refine .setDef ?_ ?_ s₂ _
    · exact fun _ => ⟨rfl, rfl⟩
    · exact fun _ => id
  have havail : Available env names
      (s₂.setDef s.defs.length fun d => { d with reqs := reqs.map fun n => ⟨n, none⟩ }) := by
    refine (h.waits hwaits).setDef ?_ _ ?_
    · exact fun _ => ⟨rfl, rfl⟩
    · exact fun _ _ => .inr (by simpa [ModuleDef.imports, Function.comp_def] using hreqs)
  have hlater' := later_composes.trans hwaits.later hlater
  exact (hres havail hlater' (setReqs_newDef s₂ name reqs origin hnew)).mono fun _ _ =>
    .trans hlater'

theorem compileModule_yields (h : Available env names (s.add (newDef name [] origin)))
    (hparse : env.parse code = some reqs) (hreqs : reqs ⊆ names)
    (hres : ∀ {t}, Available env names t → Later (s.add (newDef name [] origin)) t →
      t.defs[s.defs.length]? = some (newDef name reqs origin) →
      Yields (resolve s.defs.length) t (fun _ => Goes env names t)) :
    Yields (compileModule env resolve code name origin) s
      (fun m s' => m = s.defs.length ∧ Goes env names (s.add (newDef name [] origin)) s') := by
  refine .bind ((jsEval_yields h hparse hreqs hres).mono fun m s₁ h₁ => ?_)
  exact .bind ((allocate_yields h₁.2.avail.steady).mono fun _ s₂ hw => .pure ⟨h₁.1, h₁.2.waits hw⟩)

/-- What an import that succeeds asks of the resolution below it, while no more
than so many of the names are pending. -/
def Works (env : Env) (names : List Name) (bound : ℕ) (resolve : ℕ → L Unit) : Prop :=
  ∀ {s n m}, Available env names s → s.pending names ≤ bound → n ∈ names → s.findLoaded n = some m →
    Yields (resolve m) s (fun _ => Goes env names s)

/-- The import of a name was answered. -/
structure Found (env : Env) (names : List Name) (name : Name) (s : Mods) (m : ℕ) (s' : Mods) : Prop where
  goes : Goes env names s s'
  find : s'.findLoaded name = some m

theorem Found.later (h : Found env names name s m t) (hlater : Later t s')
    (havail : Available env names s') : Found env names name s m s' :=
  ⟨⟨havail, later_composes.trans h.goes.later hlater⟩, hlater.found h.find⟩

theorem Found.waits (h : Found env names name s m t) (hw : Waits t s') :
    Found env names name s m s' :=
  h.later hw.later (h.goes.avail.waits hw)

theorem Found.trans (h : Later s t) (h' : Found env names name t m s') :
    Found env names name s m s' :=
  ⟨.trans h h'.goes, h'.find⟩

/-- The source of a name that is not listed. -/
theorem compileModule_found (hres : Works env names bound resolve) (h : Available env names s)
    (hp : s.pending names ≤ bound) (hn : name ∈ names) (hnone : s.findLoaded name = none)
    (hparse : env.parse code = some reqs) (hreqs : reqs ⊆ names) :
    Yields (compileModule env resolve code name origin) s (Found env names name s) := by
  have hlater := Later.add s (newDef name [] origin)
  have hfind : (s.add (newDef name [] origin)).findLoaded name = some s.defs.length :=
    find_new hnone rfl rfl
  refine (compileModule_yields (h.provided.add rfl rfl (by simp [newDef_imports])) hparse hreqs ?_).mono ?_
  · intro t ht hlater' _
    refine hres ht ?_ hn (hlater'.found hfind)
    exact Nat.le_trans ((later_composes.trans hlater hlater').pending_le names) hp
  · rintro _ s' ⟨rfl, hgoes⟩
    exact ⟨.trans hlater hgoes, hgoes.later.found hfind⟩

theorem readNow_steady (h : Steady env s) (body : Bytes) :
    env.readNow s.clock body = env.readObject body := by
  simp [Env.readNow, (h s.clock (Nat.le_refl _)).2]

theorem peekModuleName_yields (h : Steady env s)
    (hread : env.readObject body = .module name reqs nested) :
    Yields (peekModuleName env body) s (fun compiled s' => compiled = name ∧ Waits s s') := by
  refine .bind ((allocate_yields h).mono fun _ s₁ hw => .bind ⟨_, _, readAt_run env body s₁, ?_⟩)
  have hw₁ : Waits s { s₁ with clock := s₁.clock + 1 } :=
    waits_composes.trans hw (waits_tick s₁)
  rw [readNow_steady (h.waits hw), hread]
  refine .bind ((allocate_yields (h.waits hw₁)).mono fun _ s₂ hw₂ => .pure ⟨rfl, ?_⟩)
  exact waits_composes.trans hw₁ hw₂

theorem readBytecodeBody_yields (h : Steady env s)
    (hread : env.readObject body = .module name reqs nested) :
    Yields (readBytecodeBody env body .module) s
      (fun obj s' => obj = some s.defs.length ∧ s' = s.afterRead env body) := by
  refine ⟨some s.defs.length, s.afterRead env body, ?_, rfl, rfl⟩
  simp only [readBytecodeBody, bind, readAt_run, Fallible.get, addRead_run, readNow_steady h, hread]
  simp only [Mods.afterRead, readNow_steady h, hread]
  rfl

theorem afterRead_available (h : Provided env names s name)
    (hread : env.readObject body = .module name reqs []) (hreqs : reqs ⊆ names) :
    Available env names (s.afterRead env body) ∧
      (s.afterRead env body).defs = (s.add (newDef name reqs .read)).defs := by
  have hdefs : (s.afterRead env body).defs = (s.add (newDef name reqs .read)).defs := by
    simp [Mods.afterRead, withRead_defs, readNow_steady h.1, hread, Read.defs, Mods.add,
      readDef, newDef]
  have hrows : (s.afterRead env body).rows = s.rows := withRead_rows _ _
  have hclock : s.clock ≤ (s.afterRead env body).clock :=
    (afterRead_grows s env body : Grows none _ _).clock
  have havail : Available env names (s.add (newDef name reqs .read)) :=
    h.add rfl rfl (by rwa [newDef_imports])
  exact ⟨havail.same hdefs hrows hclock, hdefs⟩

theorem afterRead_found (h : Available env names s)
    (hread : env.readObject body = .module name reqs [])
    (hreqs : reqs ⊆ names) (hnone : s.findLoaded name = none) :
    Found env names name s s.defs.length (s.afterRead env body) := by
  obtain ⟨havail, hdefs⟩ := afterRead_available h.provided hread hreqs
  refine ⟨⟨havail, Later.afterRead s env body⟩, ?_⟩
  rw [Mods.findLoaded, hdefs]
  exact find_new hnone rfl rfl

theorem checkHeader_yields (h : checkBytecodeHeader buf = .ok r) :
    Yields (checkHeader buf) s (fun r' s' => r' = r ∧ s' = s) := by
  simp only [checkHeader, h]
  exact .pure ⟨rfl, rfl⟩

theorem moduleFromBytecode_found (h : Available env names s)
    (hheader : checkBytecodeHeader buf = .ok (.module, body))
    (hread : env.readObject body = .module name reqs []) (hreqs : reqs ⊆ names)
    (hnone : s.findLoaded name = none) :
    Yields (moduleFromBytecode env name buf) s (Found env names name s) := by
  have hcheck : Yields (checkLoaderBytecode env name buf) s (fun body' s' => body' = body ∧
    Waits s s') := by
    refine .bind ((checkHeader_yields hheader).mono ?_)
    rintro _ _ ⟨rfl, rfl⟩
    refine .bind ((peekModuleName_yields h.steady hread).mono ?_)
    rintro _ s₁ ⟨rfl, hw⟩
    rw [if_pos rfl]
    exact .pure ⟨rfl, hw⟩
  refine .bind (hcheck.mono ?_)
  rintro _ s₁ ⟨rfl, hw⟩
  have h₁ := h.waits hw
  have hnone₁ : s₁.findLoaded name = none := by rwa [Mods.findLoaded, hw.defs]
  refine .bind ((readBytecodeBody_yields h₁.steady hread).mono ?_)
  rintro _ _ ⟨rfl, rfl⟩
  have hfound := afterRead_found h₁ hread hreqs hnone₁
  refine .bind ((allocate_yields hfound.goes.avail.steady).mono fun _ s₃ hw₃ => .pure ?_)
  exact .trans hw.later (hfound.waits hw₃)

theorem moduleFromHost_found (hres : Works env names bound resolve) (h : Available env names s)
    (hp : s.pending names ≤ bound) (hn : name ∈ names) (hnone : s.findLoaded name = none)
    (hserves : ∀ t, s.clock ≤ t → Serves env names name (loader t name)) :
    Yields (moduleFromHost env resolve loader name) s (Found env names name s) := by
  refine .get_bind (.bind ⟨s.clock, { s with clock := s.clock + 1 }, rfl, .bind (.modify ?_)⟩)
  have hnow := hserves s.clock (Nat.le_refl _)
  have havail : Available env names (Mods.note { s with clock := s.clock + 1 } (.asked name (s.knows name) s.clock (loader s.clock name))) :=
    h.same rfl rfl (Nat.le_succ _)
  have hlater : Later s (Mods.note { s with clock := s.clock + 1 } (.asked name (s.knows name) s.clock (loader s.clock name))) :=
    later_composes.trans (waits_tick s).later (.note _ rfl)
  generalize loader s.clock name = answer at hnow havail hlater ⊢
  cases answer with
  | source code =>
    obtain ⟨reqs, hparse, hreqs⟩ := hnow
    refine .bind ((allocate_yields havail.steady).mono fun _ s₁ hw => ?_)
    have hlater₁ : Later s s₁ := later_composes.trans hlater hw.later
    have hnone₁ : s₁.findLoaded name = none := by
      rw [Mods.findLoaded, hw.defs]
      exact hnone
    have hp₁ := Nat.le_trans (hlater₁.pending_le names) hp
    refine (compileModule_found hres (havail.waits hw) hp₁ hn hnone₁ hparse hreqs).mono ?_
    exact fun _ _ => .trans hlater₁
  | bytecode buf =>
    obtain ⟨body, reqs, hheader, hread, hreqs⟩ := hnow
    exact (moduleFromBytecode_found havail hheader hread hreqs hnone).mono fun _ _ => .trans hlater
  | unknown | other | failed => exact hnow.elim

theorem loadFromHost_found (hres : Works env names bound resolve) (h : Available env names s)
    (hp : s.pending names ≤ bound) (hn : name ∈ names) (hnone : s.findLoaded name = none)
    (hserves : ∀ t, s.clock ≤ t → Serves env names name (loader t name)) :
    Yields (loadFromHost env resolve loader name) s (Found env names name s) := by
  refine .bind ((moduleFromHost_found hres h hp hn hnone hserves).mono fun m s₁ hfound => .bind (.bind ?_))
  refine (makeRoom_yields hfound.goes.avail.steady).mono fun _ s₂ hw => .modify (.pure ?_)
  have hfound₂ := hfound.waits hw
  exact hfound₂.later (.same rfl id) (hfound₂.goes.avail.claim hfound₂.find)

theorem kmpModuleLoader_found (hres : Works env names bound resolve) (h : Available env names s)
    (hp : s.pending names ≤ bound) (hn : name ∈ names) (hnone : s.findLoaded name = none) :
    Yields (kmpModuleLoader env resolve name) s (Found env names name s) := by
  refine .get_bind ?_
  cases h.supplied name hn with
  | listed hf => simp [hnone] at hf
  | @registered row code reqs _ hrow hsource hparse hreqs =>
    obtain ⟨_, _, _, _⟩ := row
    cases hsource
    rw [hrow]
    exact compileModule_found hres h hp hn hnone hparse hreqs
  | served _ hrow hloader hserves =>
    rw [hrow, hloader]
    exact loadFromHost_found hres h hp hn hnone hserves

theorem hostResolve_found (hres : Works env names bound resolve) (h : Available env names s)
    (hp : s.pending names ≤ bound) (hn : name ∈ names) :
    Yields (hostResolveImportedModule env resolve name) s (Found env names name s) := by
  suffices hlookup : Yields (lookupModule env resolve name) s (Found env names name s) from
    .bind (hlookup.mono fun m s₁ hfound => .bind (.modify (.pure
      (hfound.later (.note s₁ rfl) (hfound.goes.avail.same rfl rfl (Nat.le_refl _))))))
  refine .bind ((allocate_yields h.steady).mono fun _ s₁ hw => .get_bind ?_)
  have h₁ := h.waits hw
  split
  · rename_i m hfind
    exact .pure ⟨⟨h₁, hw.later⟩, hfind⟩
  · rename_i hnone
    have hp₁ := Nat.le_trans (hw.later.pending_le names) hp
    exact (kmpModuleLoader_found hres h₁ hp₁ hn hnone).mono fun _ _ => .trans hw.later

theorem names_modify (reqs : List ReqModuleEntry) (i m1 : ℕ) :
    (reqs.modify i fun e => { e with module := some m1 }).map ReqModuleEntry.name =
      reqs.map ReqModuleEntry.name := by
  refine List.ext_getElem? fun j => ?_
  rw [List.getElem?_map, List.getElem?_modify, List.getElem?_map]
  cases reqs[j]? with
  | none => rfl
  | some e => simp only [Option.map_some]; split <;> rfl

theorem Available.bindEntry (h : Available env names s) (m i m1 : ℕ) :
    Goes env names s (s.bindEntry m i m1) := by
  refine ⟨h.setDef ?_ m ?_, .setDef ?_ ?_ s m⟩
  · exact fun _ => ⟨rfl, rfl⟩
  · rintro d (hr | himports)
    · exact .inl hr
    · refine .inr ?_
      rwa [ModuleDef.imports, names_modify]
  · exact fun _ => ⟨rfl, rfl⟩
  · exact fun _ => id

theorem resolveEntry_yields (hres : Works env names bound resolve) (h : Available env names s)
    (hp : s.pending names ≤ bound) (hn : name ∈ names) :
    Yields (resolveEntry env resolve m i name) s (fun _ => Goes env names s) := by
  refine .bind ((hostResolve_found hres h hp hn).mono fun m1 s₁ hfound => .bind (.modify ?_))
  have hbind := hfound.goes.avail.bindEntry m i m1
  have hlater := later_composes.trans hfound.goes.later hbind.later
  have hp₁ := Nat.le_trans (hlater.pending_le names) hp
  exact .onError ((hres hbind.avail hp₁ hn (hbind.later.found hfound.find)).mono fun _ _ => .trans hlater)

theorem resolveEntries_yields (hres : Works env names bound resolve) (h : Available env names s)
    (hp : s.pending names ≤ bound) (hsub : xs ⊆ names) :
    Yields (resolveEntries env resolve m i xs) s (fun _ => Goes env names s) := by
  induction xs generalizing i s with
  | nil => exact .pure ⟨h, later_composes.refl s⟩
  | cons x xs ih =>
    obtain ⟨hx, hxs⟩ := List.cons_subset.mp hsub
    refine .bind ((resolveEntry_yields hres h hp hx).mono fun _ s₁ hgoes => ?_)
    have hp₁ := Nat.le_trans (hgoes.later.pending_le names) hp
    exact (ih hgoes.avail hp₁ hxs).mono fun _ _ => .trans hgoes.later

theorem works_of (h : ∀ {s m d}, Available env names s → s.defs[m]? = some d →
      (d.resolved ∨ d.imports ⊆ names ∧ (s.mark m).pending names < bound) →
      Yields (resolve m) s (fun _ => Goes env names s)) :
    Works env names bound resolve := by
  intro s n m havail hp hn hfind
  cases havail.supplied n hn with
  | registered hnone => simp [hfind] at hnone
  | served hnone => simp [hfind] at hnone
  | listed hfind' hd hok =>
    obtain rfl := Option.some.inj (hfind.symm.trans hfind')
    refine h havail hd (Classical.or_iff_not_imp_left.mpr fun hr => ⟨hok.resolve_left hr, ?_⟩)
    exact Nat.lt_of_lt_of_le (pending_mark_lt hn hfind hd (by simpa using hr)) hp

/-- The depth is bounded by the names that are pending once the mark is set. -/
theorem resolveModule_yields (fuel : ℕ) (h : Available env names s) (hd : s.defs[m]? = some d)
    (hok : d.resolved ∨ d.imports ⊆ names ∧ (s.mark m).pending names < fuel) :
    Yields (resolveModule env (fuel + 1) m) s (fun _ => Goes env names s) := by
  induction fuel generalizing s m d with
  | zero =>
    have hr : d.resolved := hok.resolve_right fun h => absurd h.2 (Nat.not_lt_zero _)
    refine .get_bind ?_
    simp only [hd, hr, if_true]
    exact .pure ⟨h, later_composes.refl s⟩
  | succ fuel ih =>
    refine .get_bind ?_
    simp only [hd]
    split
    · exact .pure ⟨h, later_composes.refl s⟩
    · obtain ⟨himports, hp⟩ := hok.resolve_left ‹_›
      have hmark : Available env names (s.mark m) := by
        refine h.setDef ?_ m ?_
        · exact fun _ => ⟨rfl, rfl⟩
        · exact fun _ _ => .inl rfl
      refine .bind (.modify ?_)
      exact (resolveEntries_yields (works_of ih) hmark (Nat.le_of_lt_succ hp) himports).mono
        fun _ _ => .trans (Later.mark s m)

end Imports

-- ---------------------------------------------------------------------------
-- Calls
-- ---------------------------------------------------------------------------

/-- The call evaluates a module, and all that this leads to can be had. -/
def Repeats (env : Env) (names : List Name) (s : Mods) : LoadOp → Prop
  | .dynamicImport name => name ∈ names ∧ Available env names s
  | .evalModule code name => (anonymous name ∨ s.findModule name = none) ∧ Provided env names s name ∧
      ∃ reqs, env.parse code = some reqs ∧ reqs ⊆ names
  | .runBytecode buf => ∃ body name reqs, checkBytecodeHeader buf = .ok (.module, body) ∧
      env.readObject body = .module name reqs [] ∧ (anonymous name ∨ s.findModule name = none) ∧
      Provided env names s name ∧ reqs ⊆ names
  | _ => False

theorem Provided.same (h : Provided env names s name) (hdefs : s'.defs = s.defs)
    (hrows : s'.rows = s.rows)
    (hclock : s.clock ≤ s'.clock) : Provided env names s' name := by
  refine ⟨fun t ht => h.1 t (Nat.le_trans hclock ht), fun n hn => ?_⟩
  rcases h.2 n hn with hsupplied | ⟨hname, hnone⟩
  · exact .inl (hsupplied.same hdefs hrows hclock)
  · exact .inr ⟨hname, by rwa [Mods.findLoaded, hdefs]⟩

theorem moduleNameTaken_yields (h : anonymous name ∨ s.findModule name = none) :
    Yields (unlessAnonymous name (moduleNameTaken name)) s (fun _ s' => s' = s) := by
  unfold unlessAnonymous
  split
  · exact .pure rfl
  · rename_i hanon
    refine .get_bind ?_
    rw [h.resolve_left hanon]
    exact .pure rfl

theorem claim_yields (h : Goes env names s t) :
    Yields (unlessAnonymous name (claimModuleName env name kind source defn)) t
      (fun _ s' => s'.defs = t.defs ∧ (t.Tidy → s'.Tidy)) := by
  unfold unlessAnonymous
  split
  · exact .pure ⟨rfl, id⟩
  · refine .bind ((makeRoom_yields h.avail.steady).mono fun _ s₁ hw => .modify ⟨hw.defs, ?_⟩)
    exact hw.later.tidy

theorem pending_lt (s : Mods) (hfuel : names.length < fuel) : s.pending names < fuel :=
  Nat.lt_of_le_of_lt List.countP_le_length hfuel

theorem jsResolveModule_yields (h : Available env names s) (hd : s.defs[m]? = some d)
    (himports : d.resolved ∨ d.imports ⊆ names) (hfuel : names.length < fuel) :
    Yields (jsResolveModule env (fuel + 1) m) s (fun _ => Goes env names s) := by
  refine (resolveModule_yields fuel h hd (himports.imp_right fun h => ⟨h, ?_⟩)).onError
  exact pending_lt _ hfuel

theorem jsLoadModule_yields (h : Available env names s) (hn : name ∈ names)
    (hfuel : names.length < fuel) :
    Yields (jsLoadModule env (fuel + 1) name) s
      (fun out s' => (∃ m, out = .evaluates m) ∧ (s.Tidy → s'.Tidy)) := by
  have hworks : Works env names fuel (resolveModule env (fuel + 1)) :=
    works_of (resolveModule_yields fuel)
  refine .bind ((hostResolve_found hworks h (Nat.le_of_lt (pending_lt s hfuel)) hn).mono fun m s₁ hfound => ?_)
  cases hfound.goes.avail.supplied name hn with
  | registered hnone => simp [hfound.find] at hnone
  | served hnone => simp [hfound.find] at hnone
  | listed hfind hd himports =>
    obtain rfl := Option.some.inj (hfound.find.symm.trans hfind)
    refine .bind ((jsResolveModule_yields hfound.goes.avail hd himports hfuel).mono fun _ s₂ hgoes => .pure ?_)
    exact ⟨⟨m, rfl⟩, fun htidy => hgoes.later.tidy (hfound.goes.later.tidy htidy)⟩

theorem kmpjsEvalModule_yields (hname : anonymous name ∨ s.findModule name = none)
    (h : Provided env names s name) (hparse : env.parse code = some reqs) (hreqs : reqs ⊆ names)
    (hfuel : names.length < fuel) :
    Yields (kmpjsEvalModule env (fuel + 1) code name) s
      (fun out s' => (∃ m, out = .evaluates m) ∧ (s.Tidy → s'.Tidy)) := by
  refine .bind ((moduleNameTaken_yields hname).mono ?_)
  rintro _ _ rfl
  refine .bind ((allocate_yields h.1).mono fun _ s₁ hw => ?_)
  have hadd : Available env names (s₁.add (newDef name [] .eval)) :=
    (h.same hw.defs hw.rows hw.clock).add rfl rfl (by simp [newDef_imports])
  have hlater := later_composes.trans hw.later (Later.add s₁ (newDef name [] .eval))
  refine .bind ((compileModule_yields hadd hparse hreqs ?_).mono ?_)
  · intro t ht _ hd
    exact resolveModule_yields fuel ht hd (.inr ⟨by rwa [newDef_imports], pending_lt _ hfuel⟩)
  · rintro m s₂ ⟨rfl, hgoes⟩
    refine .bind ((claim_yields hgoes).mono fun _ s₃ hclaim => .pure ⟨⟨_, rfl⟩, fun htidy => ?_⟩)
    exact hclaim.2 (hgoes.later.tidy (hlater.tidy htidy))

theorem runChecks_yields (hsteady : Steady env s)
    (hheader : checkBytecodeHeader buf = .ok (.module, body))
    (hread : env.readObject body = .module name reqs nested)
    (hname : anonymous name ∨ s.findModule name = none) :
    Yields (runChecks env buf) s (fun r s' => r = (.module, body, name) ∧ Waits s s') := by
  refine .bind ((checkHeader_yields hheader).mono ?_)
  rintro _ _ ⟨rfl, rfl⟩
  refine .bind ((peekModuleName_yields hsteady hread).mono ?_)
  rintro compiled s₁ ⟨rfl, hw⟩
  have hname₁ : anonymous compiled ∨ s₁.findModule compiled = none := by
    rwa [Mods.findModule, hw.rows]
  refine .bind ((moduleNameTaken_yields hname₁).mono ?_)
  rintro _ _ rfl
  exact .pure ⟨rfl, hw⟩

theorem kmpjsRunBytecode_yields (hheader : checkBytecodeHeader buf = .ok (.module, body))
    (hread : env.readObject body = .module name reqs [])
    (hname : anonymous name ∨ s.findModule name = none) (h : Provided env names s name)
    (hreqs : reqs ⊆ names) (hfuel : names.length < fuel) :
    Yields (kmpjsRunBytecode env (fuel + 1) buf) s
      (fun out s' => (∃ m, out = .evaluates m) ∧ (s.Tidy → s'.Tidy)) := by
  refine .bind ((runChecks_yields h.1 hheader hread hname).mono ?_)
  rintro _ s₁ ⟨rfl, hw⟩
  have h₁ : Provided env names s₁ name := h.same hw.defs hw.rows hw.clock
  refine .bind ((readBytecodeBody_yields h₁.1 hread).mono ?_)
  rintro _ _ ⟨rfl, rfl⟩
  obtain ⟨havail, hdefs⟩ := afterRead_available h₁ hread hreqs
  have hlater := later_composes.trans hw.later (Later.afterRead s₁ env body)
  refine .bind ((allocate_yields havail.steady).mono fun _ s₂ hw₂ => ?_)
  have hnew : s₂.defs[s₁.defs.length]? = some (newDef name reqs .read) := by
    rw [hw₂.defs, hdefs]
    exact List.getElem?_concat_length
  have himports : (newDef name reqs .read).imports ⊆ names := by rwa [newDef_imports]
  refine .bind ((jsResolveModule_yields (havail.waits hw₂) hnew (.inr himports) hfuel).mono fun _ s₃ hgoes => ?_)
  refine .bind ((claim_yields hgoes).mono fun _ s₄ hclaim => .pure ⟨⟨_, rfl⟩, fun htidy => ?_⟩)
  exact hclaim.2 (hgoes.later.tidy (hw₂.later.tidy (hlater.tidy htidy)))

theorem run_yields (h : Repeats env names s op) (hfuel : names.length + 1 < fuel) :
    ∃ m s', op.run env fuel s = some (.ok (.evaluates m), s') ∧ s'.Tidy := by
  obtain ⟨fuel, rfl⟩ : ∃ k, fuel = k + 1 := ⟨fuel - 1, by omega⟩
  have hfuel : names.length < fuel := Nat.lt_of_succ_lt_succ hfuel
  suffices hcall : Yields (op.call env (fuel + 1)) { s with log := [] }
      (fun out s' => (∃ m, out = .evaluates m) ∧ (Mods.Tidy { s with log := [] } → s'.Tidy)) by
    obtain ⟨_, s', hrun, ⟨m, rfl⟩, htidy⟩ := hcall
    exact ⟨m, s', hrun, htidy fun e he => absurd he List.not_mem_nil⟩
  cases op with
  | registerModule | registerModuleBytecode => exact h.elim
  | dynamicImport name => exact jsLoadModule_yields (h.2.same rfl rfl (Nat.le_refl _)) h.1 hfuel
  | evalModule code name =>
    obtain ⟨hname, h, reqs, hparse, hreqs⟩ := h
    exact kmpjsEvalModule_yields hname (h.same rfl rfl (Nat.le_refl _)) hparse hreqs hfuel
  | runBytecode buf =>
    obtain ⟨body, name, reqs, hheader, hread, hname, h, hreqs⟩ := h
    exact kmpjsRunBytecode_yields hheader hread hname (h.same rfl rfl (Nat.le_refl _)) hreqs hfuel

-- ---------------------------------------------------------------------------
-- Runs
-- ---------------------------------------------------------------------------

/-- In a run whose calls leave nothing half done, what is evaluated leads to bound
definitions only, and a call whose imports can be had succeeds, whatever failed
before it. -/
theorem evaluation_bound_and_repeatable
    (h : Machine.Reaches (loadStep env) (tidily env) .init s) :
    (∀ {fuel op m s₁ t i}, tidily env s (fuel, op) →
      op.run env fuel s = some (.ok (.evaluates m), s₁) →
      Machine.Reaches (loadStep env) (tidily env) s₁ t → Leads t m i → t.Bound i) ∧
    ∀ {names fuel op}, Repeats env names s op → names.length + 1 < fuel →
      ∃ m s₁, op.run env fuel s = some (.ok (.evaluates m), s₁) ∧ ∀ i, Leads s₁ m i → s₁.Bound i := by
  have hsound := reaches_sound h init_sound
  refine ⟨fun ha hrun hlater hleads => evaluated_bound hsound ha hrun hlater hleads, ?_⟩
  intro names fuel op hrepeats hfuel
  obtain ⟨m, s₁, hrun, htidy⟩ := run_yields hrepeats hfuel
  refine ⟨m, s₁, hrun, fun i hleads => ?_⟩
  have ha : tidily env s (fuel, op) := by
    intro p hp
    obtain rfl := Option.some.inj (hp.symm.trans hrun)
    exact htidy
  exact evaluated_bound hsound ha hrun (.refl s₁) hleads

/-- `a` is source, and its import fails before `x` is there. -/
def failedImport : List (ℕ × LoadOp) :=
  [(0, .registerModule (ascii "a") (ascii "import 'x';")), (3, .dynamicImport (ascii "a")),
    (0, .registerModule (ascii "x") [])]

theorem evaluation_bound_and_repeatable_source :
    ∃ s, Machine.exec (loadStep twoModules) (tidily twoModules) .init failedImport = some s ∧
      ∃ m s₁, LoadOp.run twoModules 4 (.dynamicImport (ascii "a")) s = some (.ok (.evaluates m), s₁) ∧
        ∀ i, Leads s₁ m i → s₁.Bound i := by
  obtain ⟨s, hrun, hrepeats⟩ : ∃ s,
      Machine.exec (loadStep twoModules) (tidily twoModules) .init failedImport = some s ∧
        Repeats twoModules [ascii "a", ascii "x"] s (.dynamicImport (ascii "a")) := by
    refine ⟨_, rfl, List.mem_cons_self, fun _ _ => ⟨rfl, rfl⟩, ?_⟩
    refine List.forall_mem_cons.mpr ⟨?_, List.forall_mem_singleton.mpr ?_⟩
    · exact .registered rfl rfl rfl rfl (by decide)
    · exact .registered rfl rfl rfl rfl (by decide)
  exact ⟨s, hrun, (evaluation_bound_and_repeatable (Machine.reaches_of_exec hrun)).2 hrepeats (by decide)⟩

/-- Bytecode whose import fails stays in the list with the mark, and the next import
of it evaluates it as it is. -/
theorem failed_run_evaluates_unbound :
    ¬ ∀ env s fuel op m s₁ i, Machine.Reaches (loadStep env) Machine.always .init s →
      LoadOp.run env fuel op s = some (.ok (.evaluates m), s₁) → Leads s₁ m i → s₁.Bound i := by
  intro h
  have hrun : ∃ s, Machine.exec (loadStep twoModules) Machine.always .init
      [(3, .runBytecode (bytecodeHeader .module ++ moduleBody 109 [120]))] = some s ∧
      ∃ s₁, LoadOp.run twoModules 3 (.dynamicImport (ascii "m")) s = some (.ok (.evaluates 0), s₁) ∧
        s₁.defs = [⟨ascii "m", [⟨ascii "x", none⟩], true, true, .read⟩] := ⟨_, rfl, _, rfl, rfl⟩
  obtain ⟨s, hreaches, s₁, hrun, hdefs⟩ := hrun
  obtain ⟨d, hd, hbound⟩ := h twoModules s 3 _ 0 s₁ 0 (Machine.reaches_of_exec hreaches) hrun .refl
  rw [hdefs] at hd
  cases hd
  exact hbound _ List.mem_cons_self rfl

end QuickJsKmp
