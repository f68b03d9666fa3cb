import QuickJsKmp.Modules

/-!
# What an import leaves alone

Resolving a module may make definitions and rows, at any depth. What was there
before stays: no row goes, no definition goes, and a resolved one keeps its
entries.
-/

namespace QuickJsKmp

open Fallible (Prog Triple Keeps Yields Composes)

-- ---------------------------------------------------------------------------
-- Checks
-- ---------------------------------------------------------------------------

/-- Time passed, and nothing else. -/
structure Waits (s s' : Mods) : Prop where
  defs : s'.defs = s.defs
  rows : s'.rows = s.rows
  log : s'.log = s.log
  cap : s.cap ≤ s'.cap
  clock : s.clock ≤ s'.clock

theorem waits_composes : Composes Waits where
  refl := fun _ => ⟨rfl, rfl, rfl, Nat.le_refl _, Nat.le_refl _⟩
  trans := fun h h' => ⟨h'.defs.trans h.defs, h'.rows.trans h.rows, h'.log.trans h.log,
    Nat.le_trans h.cap h'.cap, Nat.le_trans h.clock h'.clock⟩

theorem waits_tick (s : Mods) : Waits s { s with clock := s.clock + 1 } :=
  ⟨rfl, rfl, rfl, Nat.le_refl _, Nat.le_succ _⟩

theorem waits_grow (s : Mods) : Waits s { s with cap := if s.cap = 0 then 8 else s.cap * 2 } :=
  ⟨rfl, rfl, rfl, by simp only; split <;> omega, Nat.le_refl _⟩

/-- The module that is not there. -/
def Failure.missing : Failure → Option Name
  | .notRegistered name => some name
  | _ => none

/-- Nothing changes, and no failure is about a module that is not there. -/
def Checks (m : L α) : Prop :=
  ∀ s, Triple m s (fun _ => Waits s) (fun e s' => Waits s s' ∧ e.missing = none)

theorem Checks.waits {m : L α} (h : Checks m) : Keeps Waits m :=
  fun s => (h s).mono (fun _ _ hw => hw) fun _ _ hw => hw.1

theorem Checks.pure (a : α) : Checks (pure a) := fun s => .pure (waits_composes.refl s)

theorem Checks.throw (h : e.missing = none) : Checks (Fallible.throw e : L α) :=
  fun s => .throw ⟨waits_composes.refl s, h⟩

theorem Checks.get : Checks Fallible.get := fun s => .get (waits_composes.refl s)

theorem Checks.modify {f : Mods → Mods} (h : ∀ s, Waits s (f s)) : Checks (Fallible.modify f) :=
  fun s => .modify (h s)

theorem Checks.bind {m : L α} {k : α → L β} (hm : Checks m) (hk : ∀ a, Checks (k a)) :
    Checks (m >>= k) := by
  intro s
  refine .bind ((hm s).mono (fun a s' h => ?_) fun _ _ h => h)
  exact (hk a s').mono (fun _ _ h' => waits_composes.trans h h')
    fun _ _ h' => ⟨waits_composes.trans h h'.1, h'.2⟩

theorem Checks.ite {c : Prop} [Decidable c] {m m' : L α} (hm : Checks m) (hm' : Checks m') :
    Checks (if c then m else m') := by
  split
  · exact hm
  · exact hm'

section Checks

variable {env : Env}

theorem tick_checks : Checks tick :=
  .bind .get fun _ => .bind (.modify waits_tick) fun _ => .pure _

theorem allocate_checks : Checks (allocate env) :=
  .bind tick_checks fun _ => .ite (.throw rfl) (.pure _)

theorem allocate_run (h : env.refused s.clock = false) :
    allocate env s = some (.ok (), { s with clock := s.clock + 1 }) := by
  show (if env.refused s.clock then Fallible.throw .outOfMemory else pure () : L Unit) _ = _
  rw [if_neg (by simp [h])]
  rfl

theorem makeRoom_checks : Checks (makeRoom env) := by
  have hgrow : Checks (growModules env) := by
    refine .bind .get fun s => .ite (.bind allocate_checks fun _ => ?_) (.pure _)
    exact .modify waits_grow
  exact .bind hgrow fun _ => allocate_checks

theorem moduleNameTaken_checks : Checks (moduleNameTaken name) := by
  refine .bind .get fun s => ?_
  split
  · exact .throw rfl
  · exact .pure _

theorem unlessAnonymous_checks (h : Checks m) : Checks (unlessAnonymous name m) :=
  .ite (.pure _) h

theorem checkBytecodeHeader_missing (h : checkBytecodeHeader buf = .error e) :
    e.missing = none := by
  unfold checkBytecodeHeader at h
  split at h
  · cases h
    rfl
  · split at h
    · cases h
      rfl
    · split at h
      · cases h
        rfl
      · cases h

theorem checkHeader_checks : Checks (checkHeader buf) := by
  unfold checkHeader
  split
  · exact .pure _
  · exact .throw (checkBytecodeHeader_missing ‹_›)

theorem readAt_checks : Checks (readAt env body) := by
  refine .bind tick_checks fun t => ?_
  split <;> exact .pure _

theorem peekModuleName_checks : Checks (peekModuleName env body) := by
  refine .bind allocate_checks fun _ => .bind readAt_checks fun obj => ?_
  split
  · exact .throw rfl
  · exact .throw rfl
  · exact .bind allocate_checks fun _ => .pure _

theorem checkLoaderBytecode_checks : Checks (checkLoaderBytecode env name buf) := by
  refine .bind checkHeader_checks ?_
  rintro ⟨_ | _, body⟩
  · exact .throw rfl
  · refine .bind peekModuleName_checks fun compiled => ?_
    exact .ite (.pure _) (.throw rfl)

theorem runChecks_checks : Checks (runChecks env buf) := by
  refine .bind checkHeader_checks ?_
  rintro ⟨_ | _, body⟩
  · exact .pure _
  · refine .bind peekModuleName_checks fun name => ?_
    exact .bind (unlessAnonymous_checks moduleNameTaken_checks) fun _ => .pure _

theorem registerChecks_checks : Checks (registerChecks env buf) := by
  refine .bind checkHeader_checks ?_
  rintro ⟨_ | _, body⟩
  · exact .throw rfl
  · refine .bind peekModuleName_checks fun name => ?_
    refine .ite (.throw rfl) ?_
    exact .bind moduleNameTaken_checks fun _ => .pure _

theorem asModule_checks : Checks (asModule obj) := by
  cases obj with
  | none => exact .throw rfl
  | some m => exact .pure _

end Checks

-- ---------------------------------------------------------------------------
-- Growth
-- ---------------------------------------------------------------------------

/-- What the later life of a definition keeps. -/
structure Extends (d d' : ModuleDef) : Prop where
  name : d'.name = d.name
  origin : d'.origin = d.origin
  listed : d.listed → d'.listed
  resolved : d.resolved → d'.resolved

/-- Every definition and every row stays, and a resolved definition, except
perhaps the one that is just worked on, keeps its entries. New rows are for new
definitions. -/
structure Grows (work : Option ℕ) (s s' : Mods) : Prop where
  defs : ∀ {i d}, s.defs[i]? = some d → ∃ d', s'.defs[i]? = some d' ∧ Extends d d' ∧
    (work ≠ some i → d.resolved → d'.reqs = d.reqs)
  rows : s.rows <+: s'.rows
  fresh : ∀ r ∈ s'.rows, r ∈ s.rows ∨ ∃ m, r.defn = some m ∧ s.defs.length ≤ m
  log : s.log <:+ s'.log
  clock : s.clock ≤ s'.clock

theorem Grows.length_le (h : Grows work s s') : s.defs.length ≤ s'.defs.length := by
  refine Nat.le_of_not_lt fun hlt => ?_
  obtain ⟨d', hd', -⟩ := h.defs (List.getElem?_eq_getElem hlt)
  exact Nat.lt_irrefl _ (List.getElem?_eq_some_iff.mp hd').1

theorem grows_composes (work : Option ℕ) : Composes (Grows work) where
  refl := fun s => ⟨fun h => ⟨_, h, ⟨rfl, rfl, id, id⟩, fun _ _ => rfl⟩, List.prefix_refl _,
    fun r hr => .inl hr, List.suffix_refl _, Nat.le_refl _⟩
  trans := by
    intro s t u h h'
    refine ⟨?_, h.rows.trans h'.rows, ?_, h.log.trans h'.log, Nat.le_trans h.clock h'.clock⟩
    · intro i d hd
      obtain ⟨d₁, hd₁, hext₁, hreqs₁⟩ := h.defs hd
      obtain ⟨d₂, hd₂, hext₂, hreqs₂⟩ := h'.defs hd₁
      refine ⟨d₂, hd₂, ⟨hext₂.name.trans hext₁.name, hext₂.origin.trans hext₁.origin,
        fun hl => hext₂.listed (hext₁.listed hl), fun hr => hext₂.resolved (hext₁.resolved hr)⟩, ?_⟩
      exact fun hw hr => (hreqs₂ hw (hext₁.resolved hr)).trans (hreqs₁ hw hr)
    · intro r hr
      rcases h'.fresh r hr with hr | ⟨m, hm, hle⟩
      · exact h.fresh r hr
      · exact .inr ⟨m, hm, Nat.le_trans h.length_le hle⟩

theorem Waits.grows (h : Waits s s') : Grows work s s' where
  defs := fun hd => ⟨_, h.defs ▸ hd, ⟨rfl, rfl, id, id⟩, fun _ _ => rfl⟩
  rows := h.rows ▸ List.prefix_refl _
  fresh := fun _ hr => .inl (h.rows ▸ hr)
  log := h.log ▸ List.suffix_refl _
  clock := h.clock

theorem keeps_grows {m : L α} (h : Keeps Waits m) : Keeps (Grows work) m :=
  fun s => (h s).mono (fun _ _ h => h.grows) fun _ _ h => h.grows

theorem note_grows : Keeps (Grows work) (note e) := by
  refine .modify fun s => ⟨fun hd => ⟨_, hd, ⟨rfl, rfl, id, id⟩, fun _ _ => rfl⟩,
    List.prefix_refl _, fun _ hr => .inl hr, List.suffix_cons _ _, Nat.le_refl _⟩

theorem getElem?_setDef (s : Mods) (m i : ℕ) (f : ModuleDef → ModuleDef) :
    (s.setDef m f).defs[i]? = (s.defs[i]?).map fun d => if m = i then f d else d := by
  simp only [Mods.setDef, List.getElem?_modify]
  cases s.defs[i]? <;> simp

theorem setDef_grows {f : ModuleDef → ModuleDef} (hf : ∀ d, Extends d (f d))
    (hreqs : work = some m ∨ ∀ d, (f d).reqs = d.reqs) (s : Mods) :
      Grows work s (s.setDef m f) where
  defs := by
    intro i d hd
    refine ⟨if m = i then f d else d, by simp [getElem?_setDef, hd], ?_, ?_⟩
    · split
      · exact hf d
      · exact ⟨rfl, rfl, id, id⟩
    · intro hw _
      split
      · rename_i hmi
        subst hmi
        exact hreqs.resolve_left hw d
      · rfl
  rows := List.prefix_refl _
  fresh := fun _ hr => .inl hr
  log := List.suffix_refl _
  clock := Nat.le_refl _

theorem setResolved_grows : Keeps (Grows work) (setResolved m) :=
  .modify (setDef_grows (fun _ => ⟨rfl, rfl, id, fun _ => rfl⟩) (.inr fun _ => rfl))

theorem bindEntry_grows (s : Mods) (m i m1 : ℕ) : Grows (some m) s (s.bindEntry m i m1) := by
  refine setDef_grows ?_ (.inl rfl) s
  exact fun _ => ⟨rfl, rfl, id, id⟩

theorem setReqs_grows : Keeps (Grows (some m)) (setReqs m reqs) :=
  .modify (setDef_grows (fun _ => ⟨rfl, rfl, id, id⟩) (.inl rfl))

/-- The state with a new definition, at the end. -/
def Mods.add (s : Mods) (d : ModuleDef) : Mods := { s with defs := s.defs ++ [d] }

theorem add_grows (s : Mods) (d : ModuleDef) : Grows work s (s.add d) where
  defs := by
    intro i d' hd
    refine ⟨d', ?_, ⟨rfl, rfl, id, id⟩, fun _ _ => rfl⟩
    exact List.getElem?_append_left (List.getElem?_eq_some_iff.mp hd).1 ▸ hd
  rows := List.prefix_refl _
  fresh := fun _ hr => .inl hr
  log := List.suffix_refl _
  clock := Nat.le_refl _

theorem Grows.weaken (h : Grows none s s') : Grows work s s' :=
  ⟨fun hd => by
    obtain ⟨d', hd', hext, hreqs⟩ := h.defs hd
    exact ⟨d', hd', hext, fun _ => hreqs (by simp)⟩, h.rows, h.fresh, h.log, h.clock⟩

theorem keeps_weaken {m : L α} (h : Keeps (Grows none) m) : Keeps (Grows work) m :=
  fun s => (h s).mono (fun _ _ h => h.weaken) fun _ _ h => h.weaken

/-- Work on a new definition, which may then be freed, is no work on the old. -/
theorem Grows.ofNew (h : Grows (some s.defs.length) (s.add d) s') :
    Grows none s s' ∧ Grows none s (s'.free s.defs.length) := by
  have hdefs : ∀ {i d}, s.defs[i]? = some d → i ≠ s.defs.length ∧ ∃ d', s'.defs[i]? = some d' ∧
      Extends d d' ∧ (d.resolved → d'.reqs = d.reqs) := by
    intro i d hd
    have hlt := (List.getElem?_eq_some_iff.mp hd).1
    obtain ⟨d', hd', hext, hreqs⟩ := h.defs (List.getElem?_append_left hlt ▸ hd)
    exact ⟨by omega, d', hd', hext, hreqs (by simp; omega)⟩
  have hfresh : ∀ r ∈ s'.rows, r ∈ s.rows ∨ ∃ m, r.defn = some m ∧ s.defs.length ≤ m := by
    intro r hr
    refine (h.fresh r hr).imp_right ?_
    rintro ⟨m, hm, hle⟩
    refine ⟨m, hm, ?_⟩
    simp only [Mods.add, List.length_append, List.length_singleton] at hle
    omega
  refine ⟨⟨?_, h.rows, hfresh, h.log, h.clock⟩, ⟨?_, h.rows, hfresh, ?_, h.clock⟩⟩
  · intro i d hd
    obtain ⟨-, d', hd', hext, hreqs⟩ := hdefs hd
    exact ⟨d', hd', hext, fun _ => hreqs⟩
  · intro i d hd
    obtain ⟨hne, d', hd', hext, hreqs⟩ := hdefs hd
    refine ⟨d', ?_, hext, fun _ => hreqs⟩
    simp only [Mods.free, Mods.note, getElem?_setDef, hd', Option.map_some, hne.symm, if_false]
  · exact h.log.trans (List.suffix_cons _ _)

-- ---------------------------------------------------------------------------
-- Reading bytecode
-- ---------------------------------------------------------------------------

/-- What a read of the body at this time comes to. -/
def Env.readNow (env : Env) (t : ℕ) (body : Bytes) : Read :=
  match env.cut t with
  | none => env.readObject body
  | some reqs => (env.readObject body).refuse reqs

theorem readAt_run (env : Env) (body : Bytes) (s : Mods) :
    readAt env body s = some (.ok (env.readNow s.clock body), { s with clock := s.clock + 1 }) := by
  simp only [readAt, tick, Env.readNow, bind, pure, Fallible.get, Fallible.modify]
  cases env.cut s.clock <;> rfl

def readDef (d : Name × List Name) : ModuleDef := ⟨d.1, d.2.map fun n => ⟨n, none⟩, false, true, .read⟩

/-- The state with what a read added. -/
def Mods.withRead (s : Mods) : List (Name × List Name) → Mods
  | [] => s
  | d :: ds => Mods.withRead ((s.add (readDef d)).note (.read s.defs.length (s.shadows d.1))) ds

theorem addRead_run (ds : List (Name × List Name)) (s : Mods) :
    addRead ds s = some (.ok (), s.withRead ds) := by
  induction ds generalizing s with
  | nil => rfl
  | cons d ds ih => exact ih _

theorem withRead_defs (s : Mods) (ds : List (Name × List Name)) :
    (s.withRead ds).defs = s.defs ++ ds.map readDef := by
  induction ds generalizing s with
  | nil => simp [Mods.withRead]
  | cons d ds ih => simp [Mods.withRead, ih, Mods.note, Mods.add]

theorem withRead_rows (s : Mods) (ds : List (Name × List Name)) :
    (s.withRead ds).rows = s.rows := by
  induction ds generalizing s with
  | nil => rfl
  | cons d ds ih => exact ih _

theorem withRead_grows (s : Mods) (ds : List (Name × List Name)) :
    Grows work s (s.withRead ds) := by
  induction ds generalizing s with
  | nil => exact (grows_composes work).refl s
  | cons d ds ih =>
    refine (grows_composes work).trans (add_grows s (readDef d)) ?_
    exact (grows_composes work).trans (note_grows.elim rfl) (ih _)

/-- The context after a read holds all it made, however the read ended. -/
def Mods.afterRead (s : Mods) (env : Env) (body : Bytes) : Mods :=
  Mods.withRead { s with clock := s.clock + 1 } (env.readNow s.clock body).defs

theorem afterRead_grows (s : Mods) (env : Env) (body : Bytes) :
    Grows work s (s.afterRead env body) := by
  exact (grows_composes work).trans (waits_tick s).grows (withRead_grows _ _)

theorem readNow_module (h : Env.readNow env t body = .module name reqs nested) :
    env.readObject body = .module name reqs nested := by
  unfold Env.readNow at h
  split at h
  · exact h
  · cases h

/-- A module that was read is the first definition that the read added. -/
theorem readBytecodeBody_spec (env : Env) (body : Bytes) (kind : BytecodeKind) (s : Mods) :
    Triple (readBytecodeBody env body kind) s
      (fun obj s' => s' = s.afterRead env body ∧ match obj with
        | some m => kind = .module ∧ m = s.defs.length ∧ ∃ name reqs nested,
            env.readNow s.clock body = .module name reqs nested
        | none => kind = .script)
      (fun e s' => s' = s.afterRead env body ∧ e.missing = none) := by
  intro r s' h
  simp only [readBytecodeBody, bind, readAt_run, Fallible.get, addRead_run] at h
  cases hread : env.readNow s.clock body with
  | exception defs =>
    rw [hread] at h
    cases h
    simp [Mods.afterRead, hread, Failure.missing]
  | module name reqs nested =>
    rw [hread] at h
    cases kind <;> cases h <;> simp [Mods.afterRead, hread, Failure.missing]
  | other defs =>
    rw [hread] at h
    cases kind <;> cases h <;> simp [Mods.afterRead, hread, Failure.missing]

-- ---------------------------------------------------------------------------
-- Imports
-- ---------------------------------------------------------------------------

/-- The definition is in the list under this name. -/
def Mods.Lists (s : Mods) (m : ℕ) (name : Name) : Prop :=
  ∃ d, s.defs[m]? = some d ∧ d.listed ∧ d.name = name

/-- Listed or not. -/
def Mods.Named (s : Mods) (m : ℕ) (n : Name) : Prop := ∃ d, s.defs[m]? = some d ∧ d.name = n

theorem Mods.Lists.grows (h : Mods.Lists s m name) (hg : Grows work s s') : s'.Lists m name := by
  obtain ⟨d, hd, hl, rfl⟩ := h
  obtain ⟨d', hd', hext, -⟩ := hg.defs hd
  exact ⟨d', hd', hext.listed hl, hext.name⟩

/-- A new definition was made and stays. -/
structure Makes (name : Name) (s : Mods) (m : ℕ) (s' : Mods) : Prop where
  grows : Grows none s s'
  new : s.defs.length ≤ m
  lists : s'.Lists m name

theorem findLoaded_eq_some (h : Mods.findLoaded s name = some m) : s.Lists m name := by
  obtain ⟨hlt, hp, -⟩ := List.findIdx?_eq_some_iff_getElem.mp h
  simp only [decide_eq_true_eq] at hp
  exact ⟨_, List.getElem?_eq_getElem hlt, hp.1, hp.2⟩

section Lookups

variable {s s' : Mods}

theorem findModule_stays (h : s.rows <+: s'.rows) (hr : s.findModule n = some r) :
    s'.findModule n = some r := by
  obtain ⟨rows, hrows⟩ := h
  rw [Mods.findModule, ← hrows, List.find?_append]
  exact (congrArg (Option.or · _) hr).trans rfl

theorem findModule_before (h : s.rows <+: s'.rows) (hr : s'.findModule n = none) :
    s.findModule n = none := by
  cases hrow : s.findModule n with
  | none => rfl
  | some r => simp [findModule_stays h hrow] at hr

theorem findModule_claim (s : Mods) (row : KmpModule) (n : Name) :
    Mods.findModule { s with rows := s.rows ++ [row] } n =
      (s.findModule n).or (if row.name = n then some row else none) := by
  simp only [Mods.findModule, List.find?_append, List.find?_singleton, decide_eq_true_eq]

theorem findModule_mem (h : s.findModule n = some r) : r ∈ s.rows ∧ r.name = n :=
  ⟨List.mem_of_find?_eq_some h, by simpa using List.find?_some h⟩

theorem findLoaded_ne_none (h : s.Lists m n) : s.findLoaded n ≠ none := by
  obtain ⟨d, hd, hl, hname⟩ := h
  intro hnone
  have := List.findIdx?_eq_none_iff.mp hnone d (List.mem_of_getElem? hd)
  simp [hl, hname] at this

theorem Mods.Lists.lt (h : s.Lists m n) : m < s.defs.length := by
  obtain ⟨d, hd, -⟩ := h
  exact (List.getElem?_eq_some_iff.mp hd).1

theorem lists_setDef {f : ModuleDef → ModuleDef}
    (hf : ∀ d, (f d).listed = d.listed ∧ (f d).name = d.name) :
    (s.setDef m f).Lists i n ↔ s.Lists i n := by
  simp only [Mods.Lists, getElem?_setDef]
  cases s.defs[i]? with
  | none => simp
  | some d =>
    simp only [Option.map_some, Option.some.injEq, exists_eq_left']
    split
    · rw [(hf d).1, (hf d).2]
    · exact Iff.rfl

theorem lists_add : (s.add d).Lists i n ↔ s.Lists i n ∨
    (i = s.defs.length ∧ d.listed ∧ d.name = n) := by
  simp only [Mods.Lists, Mods.add]
  rcases Nat.lt_trichotomy i s.defs.length with hlt | rfl | hgt
  · simp [List.getElem?_append_left hlt, Nat.ne_of_lt hlt]
  · simp
  · have hnone : (s.defs ++ [d])[i]? = none := List.getElem?_eq_none (by simp; omega)
    simp [hnone, Nat.ne_of_gt hgt, Nat.le_of_lt hgt]

theorem lists_free : (s.free m).Lists i n ↔ i ≠ m ∧ s.Lists i n := by
  simp only [Mods.Lists, Mods.free, Mods.note, getElem?_setDef]
  by_cases him : m = i
  · cases s.defs[i]? <;> simp [him]
  · cases s.defs[i]? <;> simp [him, Ne.symm him]

theorem lists_purge : s.purge.Lists i n ↔ ∃ d, s.defs[i]? = some d ∧ d.listed ∧ d.resolved ∧
    d.name = n := by
  simp only [Mods.Lists, Mods.purge, Mods.note, List.getElem?_map]
  cases s.defs[i]? <;> simp [and_assoc]

end Lookups

section Imports

variable {env : Env} {resolve : ℕ → L Unit}

theorem newModuleDef_bind {k : ℕ → L α}
    (h : Triple (k s.defs.length) (s.add ⟨name, reqs.map fun n => ⟨n, none⟩, false, true, origin⟩) Q E) :
    Triple (newModuleDef name reqs origin >>= k) s Q E := h

theorem evalBody_grows (hres : ∀ m, Keeps (Grows none) (resolve m)) :
    Keeps (Grows (some m)) (evalBody env resolve code m) := by
  have hR := grows_composes (some m)
  unfold evalBody
  split
  · exact .throw hR _
  · refine .bind hR (keeps_grows allocate_checks.waits) fun _ => .bind hR setReqs_grows fun _ => ?_
    exact keeps_weaken (hres m)

theorem jsEval_makes (hres : ∀ m, Keeps (Grows none) (resolve m)) :
    Triple (jsEval env resolve code name origin) s (Makes name s) (fun _ => Grows none s) := by
  have hR := grows_composes none
  refine .bind ((allocate_checks.waits s).mono (fun _ s₀ hw => newModuleDef_bind ?_) fun _ _ h => h.grows)
  refine .bind (.onError ((evalBody_grows hres _).mono (fun _ s₂ h => .pure ?_) fun _ s₂ h => ?_))
  · refine ⟨hR.trans hw.grows h.ofNew.1, Nat.le_of_eq (congrArg List.length hw.defs).symm, ?_⟩
    exact Mods.Lists.grows ⟨_, List.getElem?_concat_length, rfl, rfl⟩ h
  · exact hR.trans hw.grows h.ofNew.2

theorem compileModule_makes (hres : ∀ m, Keeps (Grows none) (resolve m)) :
    Triple (compileModule env resolve code name origin) s (Makes name s)
      (fun _ => Grows none s) := by
  have hR := grows_composes none
  refine .bind ((jsEval_makes hres).mono (fun m s₁ h => ?_) fun _ _ h => h)
  refine .bind ((allocate_checks.waits s₁).mono (fun _ s₂ hw => .pure ?_) fun _ _ hw => ?_)
  · exact ⟨hR.trans h.grows hw.grows, h.new, h.lists.grows (hw.grows : Grows none _ _)⟩
  · exact hR.trans h.grows hw.grows

theorem peekModuleName_spec (env : Env) (body : Bytes) (s : Mods) :
    Triple (peekModuleName env body) s
      (fun name s' => Waits s s' ∧ ∃ reqs nested, env.readObject body = .module name reqs nested)
      (fun _ => Waits s) := by
  suffices h : Triple (peekModuleName env body) s
      (fun name _ => ∃ reqs nested, env.readObject body = .module name reqs nested) (fun _ _ => True) from
    ((peekModuleName_checks.waits s).and h).mono (fun _ _ h => h) fun _ _ h => h.1
  refine .bind ((allocate_checks.waits s).mono (fun _ s₁ _ => .bind ?_) fun _ _ _ => trivial)
  rintro _ _ hread
  rw [readAt_run] at hread
  cases hread
  cases hnow : env.readNow s₁.clock body with
  | exception | other => exact .throw trivial
  | module name reqs nested =>
    refine .bind ((allocate_checks.waits _).mono (fun _ _ _ => .pure ?_) fun _ _ _ => trivial)
    exact ⟨reqs, nested, readNow_module hnow⟩

theorem checkHeader_spec (buf : Bytes) (s : Mods) :
    Triple (checkHeader buf) s (fun r s' => s' = s ∧ checkBytecodeHeader buf = .ok r)
      (fun _ => Waits s) := by
  unfold checkHeader
  split
  · exact .pure ⟨rfl, ‹_›⟩
  · exact .throw (waits_composes.refl s)

theorem checkLoaderBytecode_spec (env : Env) (name : Name) (buf : Bytes) (s : Mods) :
    Triple (checkLoaderBytecode env name buf) s
      (fun body s' => Waits s s' ∧ checkBytecodeHeader buf = .ok (.module, body) ∧
        ∃ reqs nested, env.readObject body = .module name reqs nested)
      (fun _ => Waits s) := by
  refine .bind ((checkHeader_spec buf s).mono ?_ fun _ _ h => h)
  rintro ⟨_ | _, body⟩ _ ⟨rfl, hheader⟩
  · exact .throw (waits_composes.refl _)
  · refine .bind ((peekModuleName_spec env body _).mono ?_ fun _ _ hw => hw)
    rintro compiled s₂ ⟨hw, hmodule⟩
    split
    · rename_i hname
      exact .pure ⟨hw, hheader, hname ▸ hmodule⟩
    · exact .throw hw

theorem afterRead_lists (h : Env.readNow env s.clock body = .module name reqs nested) :
    (Mods.afterRead s env body).Lists s.defs.length name := by
  refine ⟨readDef (name, reqs), ?_, rfl, rfl⟩
  simp [Mods.afterRead, withRead_defs, h, Read.defs]

theorem moduleFromBytecode_makes :
    Triple (moduleFromBytecode env name buf) s (Makes name s) (fun _ => Grows none s) := by
  have hR := grows_composes none
  refine .bind ((checkLoaderBytecode_spec env name buf s).mono ?_ fun _ _ hw => hw.grows)
  rintro body s₁ ⟨hw, -, reqs, nested, hobj⟩
  refine .bind ((readBytecodeBody_spec env body .module s₁).mono ?_ ?_)
  · rintro obj s₂ ⟨rfl, hcases⟩
    have hgrows : Grows none s (s₁.afterRead env body) := hR.trans hw.grows (afterRead_grows _ _ _)
    refine .bind ((allocate_checks.waits _).mono (fun _ s₃ hw' => ?_) fun _ _ hw' => hR.trans hgrows hw'.grows)
    cases obj with
    | none => cases hcases
    | some m =>
      obtain ⟨-, rfl, name', reqs', nested', hnow⟩ := hcases
      rw [readNow_module hnow] at hobj
      cases hobj
      refine .pure ⟨hR.trans hgrows hw'.grows, Nat.le_of_eq (congrArg List.length hw.defs).symm, ?_⟩
      exact (afterRead_lists hnow).grows (hw'.grows : Grows none _ _)
  · rintro _ _ ⟨rfl, -⟩
    exact hR.trans hw.grows (afterRead_grows _ _ _)

theorem moduleFromHost_makes (hres : ∀ m, Keeps (Grows none) (resolve m)) :
    Triple (moduleFromHost env resolve loader name) s (Makes name s) (fun _ => Grows none s) := by
  have hR := grows_composes none
  have hlater : ∀ {s s₁ m s'}, Grows none s s₁ → Makes name s₁ m s' → Makes name s m s' :=
    fun h h' => ⟨hR.trans h h'.grows, Nat.le_trans h.length_le h'.new, h'.lists⟩
  refine .get_bind (.bind ((tick_checks.waits s).mono (fun t s₁ hw => ?_) fun _ _ hw => hw.grows))
  refine .bind ((note_grows s₁).mono (fun _ s₂ hnote => ?_) fun _ _ hnote => hR.trans hw.grows hnote)
  have hgrows : Grows none s s₂ := hR.trans hw.grows hnote
  split
  · exact .throw hgrows
  · refine .bind ((allocate_checks.waits s₂).mono (fun _ s₃ hw' => ?_) fun _ _ hw' => hR.trans hgrows hw'.grows)
    have hgrows' : Grows none s s₃ := hR.trans hgrows hw'.grows
    exact (compileModule_makes hres).mono (fun _ _ h => hlater hgrows' h) fun _ _ h =>
      hR.trans hgrows' h
  · exact moduleFromBytecode_makes.mono (fun _ _ h => hlater hgrows h) fun _ _ h =>
      hR.trans hgrows h
  · exact .throw hgrows
  · exact .throw hgrows

theorem claimModuleName_spec (env : Env) (name : Name) (kind : ModuleKind) (source : Option Bytes)
    (defn : Option ℕ) (s : Mods) :
    Triple (claimModuleName env name kind source defn) s
      (fun _ s' => ∃ s₁, Waits s s₁ ∧
        s' = { s₁ with rows := s₁.rows ++ [⟨name, kind, source, defn⟩] })
      (fun _ => Waits s) := by
  exact .bind ((makeRoom_checks.waits s).mono (fun _ s₁ hw => .modify ⟨s₁, hw, rfl⟩) fun _ _ hw => hw)

theorem claim_grows (s : Mods) (r : KmpModule) (hdefn : r.defn = some m) (hle : s₀.defs.length ≤ m)
    (h : Grows none s₀ s) : Grows none s₀ { s with rows := s.rows ++ [r] } where
  defs := h.defs
  rows := h.rows.trans (List.prefix_append _ _)
  fresh := by
    intro r' hr'
    rcases List.mem_append.mp hr' with hr' | hr'
    · exact h.fresh r' hr'
    · obtain rfl := List.mem_singleton.mp hr'
      exact .inr ⟨m, hdefn, hle⟩
  log := h.log
  clock := h.clock

/-- The module that an import of the name found or made. -/
structure Finds (name : Name) (s : Mods) (m : ℕ) (s' : Mods) : Prop where
  grows : Grows none s s'
  lists : s'.Lists m name

theorem loadFromHost_finds (hres : ∀ m, Keeps (Grows none) (resolve m)) :
    Triple (loadFromHost env resolve loader name) s (Finds name s) (fun _ => Grows none s) := by
  have hR := grows_composes none
  refine .bind ((moduleFromHost_makes hres).mono (fun m s₁ h => ?_) fun _ _ h => h)
  refine .bind ((claimModuleName_spec env name .loaded none (some m) s₁).mono ?_ ?_)
  · rintro _ _ ⟨s₂, hw, rfl⟩
    have hgrows : Grows none s s₂ := hR.trans h.grows hw.grows
    have hlists : s₂.Lists m name := h.lists.grows (hw.grows : Grows none _ _)
    exact .pure ⟨claim_grows s₂ _ rfl h.new hgrows, hlists⟩
  · exact fun _ _ hw => hR.trans h.grows hw.grows

theorem kmpModuleLoader_finds (hres : ∀ m, Keeps (Grows none) (resolve m)) :
    Triple (kmpModuleLoader env resolve name) s (Finds name s) (fun _ => Grows none s) := by
  refine .get_bind ?_
  split
  · exact (compileModule_makes hres).mono (fun _ _ h => ⟨h.grows, h.lists⟩) fun _ _ h => h
  · exact loadFromHost_finds hres
  · exact .throw ((grows_composes none).refl s)

theorem lookupModule_finds (hres : ∀ m, Keeps (Grows none) (resolve m)) :
    Triple (lookupModule env resolve name) s (Finds name s) (fun _ => Grows none s) := by
  have hR := grows_composes none
  refine .bind ((allocate_checks.waits s).mono (fun _ s₁ hw => .get_bind ?_) fun _ _ hw => hw.grows)
  split
  · exact .pure ⟨hw.grows, findLoaded_eq_some ‹_›⟩
  · exact (kmpModuleLoader_finds hres).mono (fun _ _ h => ⟨hR.trans hw.grows h.grows, h.lists⟩)
      fun _ _ h => hR.trans hw.grows h

theorem hostResolve_finds (hres : ∀ m, Keeps (Grows none) (resolve m)) :
    Triple (hostResolveImportedModule env resolve name) s (Finds name s)
      (fun _ => Grows none s) := by
  have hR := grows_composes none
  refine .bind ((lookupModule_finds hres).mono (fun m s₁ h => ?_) fun _ _ h => h)
  refine .bind (.modify (.pure ?_))
  have hnote : Grows none s₁ (s₁.note (.imported name m)) := note_grows.elim rfl
  exact ⟨hR.trans h.grows hnote, h.lists.grows hnote⟩

theorem resolveEntry_grows (hres : ∀ m, Keeps (Grows none) (resolve m)) :
    Keeps (Grows (some m)) (resolveEntry env resolve m i name) := by
  intro s
  have hR := grows_composes (some m)
  refine .bind ((hostResolve_finds hres).mono (fun m1 s₁ h => ?_) fun _ _ h => h.weaken)
  refine .modify_bind ?_
  have hgrows : Grows (some m) s (s₁.bindEntry m i m1) :=
    hR.trans h.grows.weaken (bindEntry_grows _ _ _ _)
  refine .onError ((hres m1 _).mono (fun _ _ h' => hR.trans hgrows h'.weaken) fun _ s₃ h' => ?_)
  exact hR.trans (hR.trans hgrows h'.weaken) (note_grows.elim rfl)

theorem resolveEntries_grows (hres : ∀ m, Keeps (Grows none) (resolve m)) :
    Keeps (Grows (some m)) (resolveEntries env resolve m i names) := by
  have hR := grows_composes (some m)
  induction names generalizing i with
  | nil => exact .pure hR _
  | cons name names ih => exact .bind hR (resolveEntry_grows hres) fun _ => ih

/-- Whatever an unresolved definition has for entries before it is resolved. -/
theorem Grows.ofUnresolved (h : Grows (some m) s s') (hd : s.defs[m]? = some d)
    (hr : d.resolved = false) :
    Grows none s s' := by
  refine ⟨?_, h.rows, h.fresh, h.log, h.clock⟩
  intro i d' hd'
  obtain ⟨d'', hd'', hext, hreqs⟩ := h.defs hd'
  refine ⟨d'', hd'', hext, fun _ hres => ?_⟩
  by_cases him : i = m
  · subst him
    rw [hd] at hd'
    cases hd'
    simp [hr] at hres
  · exact hreqs (by simpa using Ne.symm him) hres

theorem resolveModule_grows (env : Env) (fuel m : ℕ) :
    Keeps (Grows none) (resolveModule env fuel m) := by
  induction fuel generalizing m with
  | zero => exact .stop
  | succ fuel ih =>
    intro s
    refine .get_bind ?_
    split
    · exact .stop
    · rename_i d hd
      split
      · exact .pure ((grows_composes none).refl s)
      · have hrun : Keeps (Grows (some m))
            (do setResolved m; resolveEntries env (resolveModule env fuel) m 0 (d.reqs.map ReqModuleEntry.name)) :=
          .bind (grows_composes _) setResolved_grows fun _ => resolveEntries_grows ih
        have hfalse : d.resolved = false := by simpa using ‹¬ d.resolved = true›
        exact (hrun s).mono (fun _ _ h => h.ofUnresolved hd hfalse) fun _ _ h =>
          h.ofUnresolved hd hfalse

/-- The definition is marked as resolved. -/
def Mods.Resolved (s : Mods) (m : ℕ) : Prop := ∃ d, s.defs[m]? = some d ∧ d.resolved

theorem resolveModule_marks (env : Env) (fuel m : ℕ) (s : Mods) :
    Triple (resolveModule env fuel m) s (fun _ s' => s'.Resolved m)
      (fun _ s' => s'.Resolved m) := by
  cases fuel with
  | zero => exact .stop
  | succ fuel =>
    refine .get_bind ?_
    split
    · exact .stop
    · rename_i d hd
      split
      · exact .pure ⟨d, hd, ‹_›⟩
      · refine .modify_bind ?_
        have hmark : (s.setDef m fun d => { d with resolved := true }).defs[m]? =
            some { d with resolved := true } := by simp [getElem?_setDef, hd]
        have hstays : ∀ {s'}, Grows (some m) (s.setDef m fun d => { d with resolved := true }) s' →
            s'.Resolved m := by
          intro s' h
          obtain ⟨d', hd', hext, -⟩ := h.defs hmark
          exact ⟨d', hd', hext.resolved rfl⟩
        exact (resolveEntries_grows (resolveModule_grows env fuel) _).mono (fun _ _ h => hstays h)
          fun _ _ h => hstays h

theorem moduleNameTaken_spec (name : Name) (s : Mods) :
    Triple (moduleNameTaken name) s (fun _ s' => s' = s ∧ s.findModule name = none)
      (fun _ _ => True) := by
  refine .get_bind ?_
  split
  · exact .throw trivial
  · exact .pure ⟨rfl, ‹_›⟩

theorem registerChecks_spec (env : Env) (buf : Bytes) (s : Mods) :
    Triple (registerChecks env buf) s
      (fun r s' => Waits s s' ∧ checkBytecodeHeader buf = .ok (.module, r.1) ∧
        anonymous r.2 = false ∧
        s.findModule r.2 = none ∧ ∃ reqs nested, env.readObject r.1 = .module r.2 reqs nested)
      (fun _ _ => True) := by
  refine .bind ((checkHeader_spec buf s).mono ?_ fun _ _ _ => trivial)
  rintro ⟨_ | _, body⟩ _ ⟨rfl, hheader⟩
  · exact .throw trivial
  · refine .bind ((peekModuleName_spec env body _).mono ?_ fun _ _ _ => trivial)
    rintro name s₂ ⟨hw₂, hread⟩
    show Triple (if _ then _ else _) _ _ _
    split
    · exact .throw trivial
    · rename_i hanon
      refine .bind ((moduleNameTaken_spec name s₂).mono ?_ fun _ _ _ => trivial)
      rintro _ _ ⟨rfl, hnone⟩
      rw [Mods.findModule, hw₂.rows] at hnone
      exact .pure ⟨hw₂, hheader, by simpa using fun h => hanon (.inl h), hnone, hread⟩

/-- The name that is not anonymous is free. -/
theorem unlessTaken_spec (name : Name) (s : Mods) :
    Triple (unlessAnonymous name (moduleNameTaken name)) s
      (fun _ s' => s' = s ∧ (anonymous name = false → s.findModule name = none))
      (fun _ _ => True) := by
  unfold unlessAnonymous
  split
  · exact .pure ⟨rfl, by simp_all⟩
  · exact (moduleNameTaken_spec name s).mono (fun _ _ h => ⟨h.1, fun _ => h.2⟩) fun _ _ _ => trivial

theorem runChecks_spec (env : Env) (buf : Bytes) (s : Mods) :
    Triple (runChecks env buf) s
      (fun r s' => Waits s s' ∧ checkBytecodeHeader buf = .ok (r.1, r.2.1) ∧ (r.1 = .module →
        (anonymous r.2.2 = false → s.findModule r.2.2 = none) ∧
          ∃ reqs nested, env.readObject r.2.1 = .module r.2.2 reqs nested))
      (fun _ _ => True) := by
  refine .bind ((checkHeader_spec buf s).mono ?_ fun _ _ _ => trivial)
  rintro ⟨_ | _, body⟩ _ ⟨rfl, hheader⟩
  · exact .pure ⟨waits_composes.refl _, hheader, by simp⟩
  · refine .bind ((peekModuleName_spec env body _).mono ?_ fun _ _ _ => trivial)
    rintro name s₂ ⟨hw₂, hread⟩
    refine .bind ((unlessTaken_spec name s₂).mono ?_ fun _ _ _ => trivial)
    rintro _ _ ⟨rfl, hfree⟩
    rw [Mods.findModule, hw₂.rows] at hfree
    exact .pure ⟨hw₂, hheader, fun _ => ⟨hfree, hread⟩⟩

end Imports

theorem loadStep_eq_some (h : loadStep env s a = some s') :
    ∃ r, a.2.call env a.1 { s with log := [] } = some (r, s') := by
  obtain ⟨⟨r, s''⟩, hrun, rfl⟩ := Option.map_eq_some_iff.mp h
  exact ⟨r, hrun⟩

end QuickJsKmp
