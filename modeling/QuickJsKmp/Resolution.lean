import QuickJsKmp.ModuleLaws

/-!
# Resolution and what it leaves half done

`js_resolve_module` marks a definition as resolved before it binds its entries,
so that a cycle of imports ends. If a dependency then fails, the mark stays. A
definition that `JS_Eval` was just making is freed again; every other one stays
in the list, and passes for resolved from then on.
-/

namespace QuickJsKmp

open Fallible (Prog Triple Keeps Yields Composes)

/-- Neither of the two ways in which a failure leaves an entry unbound or bound
to a freed definition. -/
def Event.tidy : Event → Bool
  | .gaveUp _ => false
  | .freed _ referrers => referrers.isEmpty
  | _ => true

def Mods.Tidy (s : Mods) : Prop := ∀ e ∈ s.log, e.tidy

instance (s : Mods) : Decidable s.Tidy := inferInstanceAs (Decidable (∀ e ∈ s.log, _))

/-- The definition is listed and passes for resolved. -/
def Mods.Ready (s : Mods) (m : ℕ) : Prop := ∃ d, s.defs[m]? = some d ∧ d.listed ∧ d.resolved

/-- The entry is bound, to a definition that is ready. -/
def Linked (s : Mods) (e : ReqModuleEntry) : Prop := ∃ t, e.module = some t ∧ s.Ready t

/-- Every definition that passes for resolved is, except the ones that are just
being worked on. -/
def Sound (work : List ℕ) (s : Mods) : Prop :=
  ∀ i d, s.defs[i]? = some d → d.listed → d.resolved → i ∉ work → ∀ e ∈ d.reqs, Linked s e

/-- `Sound`, as long as nothing went wrong. -/
def Safe (work : List ℕ) (s : Mods) : Prop := s.Tidy → Sound work s

variable {s s' : Mods}

theorem Mods.Tidy.before (h : s'.Tidy) (hlog : s.log <:+ s'.log) : s.Tidy :=
  fun e he => h e (hlog.subset he)

theorem Mods.Ready.grows (h : s.Ready m) (hg : Grows work s s') : s'.Ready m := by
  obtain ⟨d, hd, hl, hr⟩ := h
  obtain ⟨d', hd', hext, -⟩ := hg.defs hd
  exact ⟨d', hd', hext.listed hl, hext.resolved hr⟩

theorem Linked.grows (h : Linked s e) (hg : Grows work s s') : Linked s' e := by
  obtain ⟨t, ht, hready⟩ := h
  exact ⟨t, ht, hready.grows hg⟩

theorem ready_of_marked (hl : s.Lists m name) (hr : s.Resolved m) : s.Ready m := by
  obtain ⟨d, hd, hl, -⟩ := hl
  obtain ⟨d', hd', hr⟩ := hr
  rw [hd] at hd'
  cases hd'
  exact ⟨d, hd, hl, hr⟩

/-- Whatever is listed, resolved and not worked on afterwards was so before, with
the same entries. -/
theorem Sound.grows (h : Sound work s) (hg : Grows w s s')
    (hold : ∀ i d', s'.defs[i]? = some d' → d'.listed → d'.resolved → i ∉ work' →
      ∃ d, s.defs[i]? = some d ∧ d.listed ∧ d.resolved ∧ i ∉ work ∧ d'.reqs = d.reqs) :
    Sound work' s' := by
  intro i d' hd' hl hr hi e he
  obtain ⟨d, hd, hl, hr, hi, hreqs⟩ := hold i d' hd' hl hr hi
  exact (h i d hd hl hr hi e (hreqs ▸ he)).grows hg

theorem Safe.sameDefs (h : Safe work s) (hdefs : s'.defs = s.defs) (hlog : s.log <:+ s'.log) :
    Safe work s' := by
  intro htidy i d hd
  have hsound := h (htidy.before hlog) i d (hdefs ▸ hd)
  simpa only [Linked, Mods.Ready, hdefs] using hsound

-- ---------------------------------------------------------------------------
-- Steps
-- ---------------------------------------------------------------------------

/-- The runs that stay safe. -/
def StaysSafe (work : List ℕ) (s s' : Mods) : Prop := Safe work s → Safe work s'

theorem staysSafe_composes (work : List ℕ) : Composes (StaysSafe work) where
  refl := fun _ h => h
  trans := fun h h' hs => h' (h hs)

theorem keeps_safe {m : L α} (h : Keeps Waits m) : Keeps (StaysSafe work) m := by
  have hwaits : ∀ {s s'}, Waits s s' → StaysSafe work s s' := fun hw hs =>
    hs.sameDefs hw.defs (hw.log ▸ List.suffix_refl _)
  exact fun s => (h s).mono (fun _ _ => hwaits) fun _ _ => hwaits

/-- A run need only be followed from a safe state. -/
theorem staysSafe_of {m : L α} (h : Safe work s →
    Triple m s (fun _ => Safe work) (fun _ => Safe work)) :
    Triple m s (fun _ => StaysSafe work s) (fun _ => StaysSafe work s) := by
  intro r s' hrun
  cases r with
  | ok a => exact fun hs => (h hs).ok hrun
  | error e => exact fun hs => (h hs).error hrun

theorem note_safe : Keeps (StaysSafe work) (note e) :=
  .modify fun _ hs => hs.sameDefs rfl (List.suffix_cons _ _)

theorem claimModuleName_safe : Keeps (StaysSafe work) (claimModuleName env name kind source defn) :=
  .bind (staysSafe_composes work) (keeps_safe makeRoom_checks.waits) fun _ =>
    .modify fun _ hs => hs.sameDefs rfl (List.suffix_refl _)

theorem Safe.add (h : Safe work s) (hd : d.resolved = false) : Safe work (s.add d) := by
  intro htidy
  refine (h htidy).grows (add_grows s d : Grows none _ _) ?_
  intro i d' hd' hl hr hi
  rcases Nat.lt_or_ge i s.defs.length with hlt | hge
  · rw [Mods.add, List.getElem?_append_left hlt] at hd'
    exact ⟨d', hd', hl, hr, hi, rfl⟩
  · rw [Mods.add, List.getElem?_append_right hge] at hd'
    obtain rfl : d' = d := by simpa using List.mem_of_getElem? hd'
    simp [hd] at hr

theorem Safe.withRead (h : Safe work s) (ds : List (Name × List Name)) :
    Safe work (s.withRead ds) := by
  induction ds generalizing s with
  | nil => exact h
  | cons d ds ih => exact ih ((h.add rfl).sameDefs rfl (List.suffix_cons _ _))

theorem Safe.afterRead (h : Safe work s) (env : Env) (body : Bytes) :
    Safe work (s.afterRead env body) := by
  have hlater : Safe work { s with clock := s.clock + 1 } := h.sameDefs rfl (List.suffix_refl _)
  exact hlater.withRead _

/-- Work on a definition that is worked on anyway. -/
theorem Safe.setDef {f : ModuleDef → ModuleDef} (h : Safe work s) (hf : ∀ d, Extends d (f d))
    (hm : m ∈ work') (hwork : ∀ i, i ∉ work' → i ∉ work) : Safe work' (s.setDef m f) := by
  intro htidy
  refine (h htidy).grows (setDef_grows hf (.inl rfl) s) ?_
  intro i d' hd' hl hr hi
  rw [getElem?_setDef, Option.map_eq_some_iff] at hd'
  obtain ⟨d, hd, rfl⟩ := hd'
  have hne : m ≠ i := by
    rintro rfl
    exact hi hm
  rw [if_neg hne] at hl hr ⊢
  exact ⟨d, hd, hl, hr, hwork i hi, rfl⟩

theorem Safe.free (h : Safe (m :: work) s) : Safe work (s.free m) := by
  intro htidy i d' hd' hl hr hi e he
  have hempty : s.referrers m = [] := by
    have := htidy _ List.mem_cons_self
    simpa [Event.tidy] using this
  have hsound := h (htidy.before (List.suffix_cons _ _))
  simp only [Mods.free, Mods.note, getElem?_setDef, Option.map_eq_some_iff] at hd'
  obtain ⟨d, hd, rfl⟩ := hd'
  by_cases hmi : m = i
  · simp [hmi] at hl
  · rw [if_neg hmi] at hl hr he
    obtain ⟨t, ht, dt, hdt, hlt, hrt⟩ := hsound i d hd hl hr (by simp [hi, Ne.symm hmi]) e he
    have htm : m ≠ t := by
      rintro rfl
      have hmem : i ∈ s.referrers m := by
        simp only [Mods.referrers, List.mem_filter, List.mem_range, decide_eq_true_eq]
        refine ⟨(List.getElem?_eq_some_iff.mp hd).1, Ne.symm hmi, ?_⟩
        simp only [hd, Option.any_some, ModuleDef.refersTo, hl, Bool.true_and, List.any_eq_true]
        exact ⟨e, he, by simpa using ht⟩
      simp [hempty] at hmem
    refine ⟨t, ht, dt, ?_, hlt, hrt⟩
    simp only [Mods.free, Mods.note, getElem?_setDef, hdt, Option.map_some, htm, if_false]

-- ---------------------------------------------------------------------------
-- Imports
-- ---------------------------------------------------------------------------

/-- What the pieces of an import ask of the resolution below them. -/
structure Resolving (resolve : ℕ → L Unit) : Prop where
  grows : ∀ m, Keeps (Grows none) (resolve m)
  marks : ∀ m s, Triple (resolve m) s (fun _ s' => s'.Resolved m) (fun _ s' => s'.Resolved m)
  safe : ∀ {work s} m, Safe work s → Triple (resolve m) s (fun _ => Safe work) (fun _ => Safe (m :: work))

section Imports

variable {env : Env} {resolve : ℕ → L Unit}

/-- The entries of an unresolved definition are nobody's concern. -/
theorem Safe.setReqs (h : Safe work s) (hm : ∀ d, s.defs[m]? = some d → d.resolved = false)
    (reqs : List Name) :
    Safe work (s.setDef m fun d => { d with reqs := reqs.map fun n => ⟨n, none⟩ }) := by
  intro htidy
  refine (h htidy).grows (setReqs_grows.elim rfl : Grows (some m) _ _) ?_
  intro i d' hd' hl hr hi
  rw [getElem?_setDef, Option.map_eq_some_iff] at hd'
  obtain ⟨d, hd, rfl⟩ := hd'
  by_cases hmi : m = i
  · subst hmi
    simp [hm d hd] at hr
  · rw [if_neg hmi] at hl hr ⊢
    exact ⟨d, hd, hl, hr, hi, rfl⟩

theorem Safe.weaken (h : Safe work s) : Safe (m :: work) s :=
  fun htidy i d hd hl hr hi => h htidy i d hd hl hr fun hmem => hi (List.mem_cons_of_mem _ hmem)

theorem evalBody_safe (hres : Resolving resolve) (h : Safe work s)
    (hm : ∀ d, s.defs[m]? = some d → d.resolved = false) :
    Triple (evalBody env resolve code m) s (fun _ => Safe work) (fun _ => Safe (m :: work)) := by
  unfold evalBody
  split
  · exact .throw h.weaken
  · have hkeeps : Keeps (StaysSafe work) (allocate env) := keeps_safe allocate_checks.waits
    refine .bind (((allocate_checks.waits s).and (hkeeps s)).mono ?_ ?_)
    · rintro _ s₁ ⟨hw, hsafe⟩
      refine .modify_bind (hres.safe m ((hsafe h).setReqs ?_ _))
      exact fun d hd => hm d (hw.defs ▸ hd)
    · exact fun _ _ hsafe => (hsafe.2 h).weaken

theorem jsEval_safe (hres : Resolving resolve) :
    Keeps (StaysSafe work) (jsEval env resolve code name origin) := by
  have hR := staysSafe_composes work
  refine .bind hR (keeps_safe allocate_checks.waits) fun _ s =>
    staysSafe_of fun h => newModuleDef_bind ?_
  have hnew : ∀ d, (s.add ⟨name, [], false, true, origin⟩).defs[s.defs.length]? = some d →
      d.resolved = false := by
    intro d hd
    rw [Mods.add, List.getElem?_concat_length] at hd
    cases hd
    rfl
  refine .bind (.onError ((evalBody_safe hres (h.add rfl) hnew).mono ?_ ?_))
  · exact fun _ _ h' => .pure h'
  · exact fun _ _ h' => h'.free

theorem compileModule_safe (hres : Resolving resolve) :
    Keeps (StaysSafe work) (compileModule env resolve code name origin) := by
  have hR := staysSafe_composes work
  exact .bind hR (jsEval_safe hres) fun _ =>
    .bind hR (keeps_safe allocate_checks.waits) fun _ => .pure hR _

theorem readBytecodeBody_safe : Keeps (StaysSafe work) (readBytecodeBody env body kind) := by
  refine fun s => (readBytecodeBody_spec env body kind s).mono ?_ ?_
  · rintro _ _ ⟨rfl, -⟩ h
    exact h.afterRead env body
  · rintro _ _ ⟨rfl, -⟩ h
    exact h.afterRead env body

theorem moduleFromBytecode_safe : Keeps (StaysSafe work) (moduleFromBytecode env name buf) := by
  have hR := staysSafe_composes work
  refine .bind hR (keeps_safe checkLoaderBytecode_checks.waits) fun _ =>
    .bind hR readBytecodeBody_safe fun _ => ?_
  exact .bind hR (keeps_safe allocate_checks.waits) fun _ => keeps_safe asModule_checks.waits

theorem loadFromHost_safe (hres : Resolving resolve) :
    Keeps (StaysSafe work) (loadFromHost env resolve loader name) := by
  have hR := staysSafe_composes work
  refine .bind hR ?_ fun _ => .bind hR claimModuleName_safe fun _ => .pure hR _
  refine .bind hR (.get hR) fun _ =>
    .bind hR (keeps_safe tick_checks.waits) fun t => .bind hR note_safe fun _ => ?_
  split
  · exact .throw hR _
  · exact .bind hR (keeps_safe allocate_checks.waits) fun _ => compileModule_safe hres
  · exact moduleFromBytecode_safe
  · exact .throw hR _
  · exact .throw hR _

theorem hostResolve_safe (hres : Resolving resolve) :
    Keeps (StaysSafe work) (hostResolveImportedModule env resolve name) := by
  have hR := staysSafe_composes work
  refine .bind hR ?_ fun _ => .bind hR note_safe fun _ => .pure hR _
  refine .bind hR (keeps_safe allocate_checks.waits) fun _ => .bind hR (.get hR) fun s => ?_
  split
  · exact .pure hR _
  · refine .bind hR (.get hR) fun s' => ?_
    split
    · exact compileModule_safe hres
    · exact loadFromHost_safe hres
    · exact .throw hR _

/-- The definition's first entries are linked, and these names are to come. -/
def Half (m i : ℕ) (names : List Name) (s : Mods) : Prop :=
  ∃ d, s.defs[m]? = some d ∧ d.resolved ∧ d.reqs.length = i + names.length ∧
    ∀ e ∈ d.reqs.take i, Linked s e

theorem Half.grows (h : Half m i names s) (hg : Grows none s s') : Half m i names s' := by
  obtain ⟨d, hd, hr, hlen, hlinked⟩ := h
  obtain ⟨d', hd', hext, hreqs⟩ := hg.defs hd
  rw [← hreqs (by simp) hr] at hlen hlinked
  exact ⟨d', hd', hext.resolved hr, hlen, fun e he => (hlinked e he).grows hg⟩

theorem mem_take_modify {l : List α} {f : α → α} (h : e ∈ (l.modify i f).take (i + 1)) :
    e ∈ l.take i ∨ ∃ e₀, e = f e₀ := by
  obtain ⟨j, hj⟩ := List.mem_iff_getElem?.mp h
  rw [List.getElem?_take, List.getElem?_modify] at hj
  split at hj
  · obtain ⟨e₀, he₀, rfl⟩ := Option.map_eq_some_iff.mp hj
    split
    · exact .inr ⟨e₀, rfl⟩
    · refine .inl (List.mem_iff_getElem?.mpr ⟨j, ?_⟩)
      rw [List.getElem?_take, if_pos (by omega)]
      exact he₀
  · cases hj

/-- One more entry is bound. -/
theorem Half.bind (h : Half m i (name :: names) s)
    (hg : Grows none (s.bindEntry m i m1) s') (hm1 : s'.Ready m1) : Half m (i + 1) names s' := by
  obtain ⟨d, hd, hr, hlen, hlinked⟩ := h
  have hbound : (s.bindEntry m i m1).defs[m]? =
      some { d with reqs := d.reqs.modify i fun e => { e with module := some m1 } } := by
    simp [Mods.bindEntry, getElem?_setDef, hd]
  obtain ⟨d', hd', hext, hreqs⟩ := hg.defs hbound
  have hreqs := hreqs (by simp) hr
  refine ⟨d', hd', hext.resolved hr, by simp [hreqs, hlen]; omega, fun e he => ?_⟩
  rw [hreqs] at he
  rcases mem_take_modify he with he | ⟨e₀, rfl⟩
  · exact ((hlinked e he).grows (bindEntry_grows _ _ _ _)).grows hg
  · exact ⟨m1, rfl, hm1⟩

theorem resolveEntry_safe (hres : Resolving resolve) (h : Safe (m :: work) s)
    (hhalf : Half m i (name :: names) s) :
    Triple (resolveEntry env resolve m i name) s
      (fun _ s' => Safe (m :: work) s' ∧ Half m (i + 1) names s') (fun _ => Safe (m :: work)) := by
  have hhost : Keeps (StaysSafe (m :: work)) (hostResolveImportedModule env resolve name) :=
    hostResolve_safe hres
  refine .bind (((hhost s).and (hostResolve_finds hres.grows)).mono ?_ ?_)
  · rintro m1 s₁ ⟨hsafe, hfinds⟩
    refine .modify_bind ?_
    have hbound : Safe (m :: work) (s₁.bindEntry m i m1) := by
      refine (hsafe h).setDef ?_ List.mem_cons_self fun _ hi => hi
      exact fun _ => ⟨rfl, rfl, id, id⟩
    refine .onError (((hres.safe m1 hbound).and ((hres.grows m1 _).and (hres.marks m1 _))).mono ?_ ?_)
    · rintro _ s₃ ⟨hsafe₃, hgrows, hmark⟩
      have hready : s₃.Ready m1 :=
        ready_of_marked ((hfinds.lists.grows (bindEntry_grows s₁ m i m1)).grows hgrows) hmark
      exact ⟨hsafe₃, (hhalf.grows hfinds.grows).bind hgrows hready⟩
    · rintro _ s₃ - htidy
      have := htidy _ List.mem_cons_self
      simp [Event.tidy] at this
  · exact fun _ _ hsafe => hsafe.1 h

/-- All entries are linked, and the work is done. -/
theorem Safe.finish (h : Safe (m :: work) s) (hhalf : Half m n [] s) : Safe work s := by
  intro htidy i d hd hl hr hi e he
  obtain ⟨d', hd', -, hlen, hlinked⟩ := hhalf
  by_cases him : i = m
  · subst him
    rw [hd] at hd'
    cases hd'
    rw [List.length_nil, Nat.add_zero] at hlen
    exact hlinked e (by rwa [← hlen, List.take_length])
  · exact h htidy i d hd hl hr (by simp [him, hi]) e he

theorem resolveEntries_safe (hres : Resolving resolve) (h : Safe (m :: work) s)
    (hhalf : Half m i names s) :
    Triple (resolveEntries env resolve m i names) s (fun _ => Safe work)
      (fun _ => Safe (m :: work)) := by
  induction names generalizing i s with
  | nil => exact .pure (h.finish hhalf)
  | cons name names ih =>
    exact .bind ((resolveEntry_safe hres h hhalf).mono (fun _ _ h' => ih h'.1 h'.2) fun _ _ h' => h')

theorem resolveModule_resolving (env : Env) (fuel : ℕ) : Resolving (resolveModule env fuel) := by
  induction fuel with
  | zero => exact ⟨resolveModule_grows env 0, resolveModule_marks env 0, fun _ _ => .stop⟩
  | succ fuel ih =>
    refine ⟨resolveModule_grows env _, resolveModule_marks env _, fun {work s} m h => .get_bind ?_⟩
    split
    · exact .stop
    · rename_i d hd
      split
      · exact .pure h
      · refine .modify_bind ?_
        have hsafe : Safe (m :: work) (s.setDef m fun d => { d with resolved := true }) := by
          refine h.setDef ?_ List.mem_cons_self fun i hi hmem => hi (List.mem_cons_of_mem _ hmem)
          exact fun _ => ⟨rfl, rfl, id, fun _ => rfl⟩
        have hhalf : Half m 0 (d.reqs.map ReqModuleEntry.name)
            (s.setDef m fun d => { d with resolved := true }) :=
          ⟨{ d with resolved := true }, by simp [getElem?_setDef, hd], rfl, by simp, by simp⟩
        exact resolveEntries_safe ih hsafe hhalf

end Imports

-- ---------------------------------------------------------------------------
-- Calls
-- ---------------------------------------------------------------------------

section Calls

variable {env : Env}

theorem not_tidy_of_gaveUp (h : Event.gaveUp m ∈ s.log) : ¬ s.Tidy :=
  fun htidy => absurd (htidy _ h) (by simp [Event.tidy])

theorem jsResolveModule_safe : Keeps (StaysSafe []) (jsResolveModule env fuel m) := by
  refine fun s => staysSafe_of fun h => .onError ?_
  refine ((resolveModule_resolving env fuel).safe m h).mono
    (fun _ _ h' => h') fun _ s' _ htidy => ?_
  exact absurd htidy (not_tidy_of_gaveUp (m := m) (List.mem_cons_of_mem _ List.mem_cons_self))

/-- What the parts of a call keep, the call keeps. -/
structure Parts (env : Env) (fuel : ℕ) (R : Mods → Mods → Prop) : Prop where
  composes : Composes R
  waits : ∀ {s s'}, Waits s s' → R s s'
  claims : ∀ s r, R s { s with rows := s.rows ++ [r] }
  reads : ∀ s body, R s (s.afterRead env body)
  compiles : ∀ code name, Keeps R (compileModule env (resolveModule env fuel) code name .eval)
  imports : ∀ name, Keeps R (hostResolveImportedModule env (resolveModule env fuel) name)
  resolves : ∀ m, Keeps R (jsResolveModule env fuel m)

theorem Parts.call (h : Parts env fuel R) (op : LoadOp) : Keeps R (op.call env fuel) := by
  have hR := h.composes
  have hwaits : ∀ {α} {m : L α}, Keeps Waits m → Keeps R m := fun hm s =>
    (hm s).mono (fun _ _ => h.waits) fun _ _ => h.waits
  have hclaims : ∀ {name kind source defn}, Keeps R (claimModuleName env name kind source defn) :=
    .bind hR (hwaits makeRoom_checks.waits) fun _ => .modify fun s => h.claims s _
  have hreads : ∀ {body kind}, Keeps R (readBytecodeBody env body kind) := by
    intro body kind s
    refine (readBytecodeBody_spec env body kind s).mono ?_ ?_
    · rintro _ _ ⟨rfl, -⟩
      exact h.reads s body
    · rintro _ _ ⟨rfl, -⟩
      exact h.reads s body
  cases op with
  | registerModule name code =>
    refine .ite (.throw hR _) (.bind hR (hwaits moduleNameTaken_checks.waits) fun _ => ?_)
    exact .bind hR hclaims fun _ => .pure hR _
  | registerModuleBytecode buf =>
    refine .bind hR (hwaits registerChecks_checks.waits) fun a => .bind hR hreads fun m => ?_
    exact .bind hR (hwaits allocate_checks.waits) fun _ => .bind hR hclaims fun _ => .pure hR _
  | evalModule code name =>
    refine .bind hR (hwaits (unlessAnonymous_checks moduleNameTaken_checks).waits) fun _ => ?_
    refine .bind hR (hwaits allocate_checks.waits) fun _ =>
      .bind hR (h.compiles code name) fun m => ?_
    exact .bind hR (.ite (.pure hR _) hclaims) fun _ => .pure hR _
  | runBytecode buf =>
    refine .bind hR (hwaits runChecks_checks.waits) fun a => .bind hR hreads fun obj => ?_
    cases obj with
    | none => exact .pure hR _
    | some m =>
      refine .bind hR (hwaits allocate_checks.waits) fun _ => .bind hR (h.resolves m) fun _ => ?_
      exact .bind hR (.ite (.pure hR _) hclaims) fun _ => .pure hR _
  | dynamicImport name =>
    exact .bind hR (h.imports name) fun m => .bind hR (h.resolves m) fun _ => .pure hR _

theorem call_safe (op : LoadOp) (fuel : ℕ) : Keeps (StaysSafe []) (op.call env fuel) := by
  have hres := resolveModule_resolving env fuel
  refine Parts.call ⟨staysSafe_composes [], ?_, ?_, ?_, ?_, ?_, ?_⟩ op
  · exact fun hw hs => hs.sameDefs hw.defs (hw.log ▸ List.suffix_refl _)
  · exact fun _ _ hs => hs.sameDefs rfl (List.suffix_refl _)
  · exact fun _ body hs => hs.afterRead env body
  · exact fun _ _ => compileModule_safe hres
  · exact fun _ => hostResolve_safe hres
  · exact fun _ => jsResolveModule_safe

/-- A ready definition stays so. -/
def KeepsReady (s s' : Mods) : Prop := s.log <:+ s'.log ∧ (s'.Tidy → ∀ m, s.Ready m → s'.Ready m)

theorem Grows.ready (h : Grows work s s') : KeepsReady s s' :=
  ⟨h.log, fun _ _ hready => hready.grows h⟩

theorem keepsReady_composes : Composes KeepsReady where
  refl := fun _ => ⟨List.suffix_refl _, fun _ _ h => h⟩
  trans := by
    rintro s t u ⟨hlog, h⟩ ⟨hlog', h'⟩
    exact ⟨hlog.trans hlog', fun htidy m hm => h' htidy m (h (htidy.before hlog') m hm)⟩

theorem call_ready (op : LoadOp) (fuel : ℕ) : Keeps KeepsReady (op.call env fuel) := by
  have hgrows := resolveModule_grows env fuel
  refine Parts.call ⟨keepsReady_composes, ?_, ?_, ?_, ?_, ?_, ?_⟩ op
  · exact fun hw => (hw.grows : Grows none _ _).ready
  · exact fun _ _ => ⟨List.suffix_refl _, fun _ _ h => h⟩
  · exact fun _ body => (afterRead_grows _ env body : Grows none _ _).ready
  · exact fun _ _ s => (compileModule_makes hgrows).mono
      (fun _ _ h => h.grows.ready) fun _ _ h => h.ready
  · exact fun _ s => (hostResolve_finds hgrows).mono
      (fun _ _ h => h.grows.ready) fun _ _ h => h.ready
  · refine fun m s => .onError ((hgrows m s).mono (fun _ _ h => h.ready) fun _ s' h => ?_)
    refine ⟨h.log.trans ((List.suffix_cons _ _).trans (List.suffix_cons _ _)), fun htidy => ?_⟩
    exact absurd htidy (not_tidy_of_gaveUp (m := m) (List.mem_cons_of_mem _ List.mem_cons_self))

theorem evalBody_marks : Triple (evalBody env (resolveModule env fuel) code m) s
    (fun _ s' => s'.Resolved m) (fun _ _ => True) := by
  unfold evalBody
  split
  · exact .throw trivial
  · refine .bind ((allocate_checks.waits s).mono (fun _ _ _ => .modify_bind ?_) fun _ _ _ => trivial)
    exact (resolveModule_marks env fuel m _).mono (fun _ _ h => h) fun _ _ _ => trivial

theorem jsEval_marks : Triple (jsEval env (resolveModule env fuel) code name origin) s
    (fun m s' => s'.Resolved m) (fun _ _ => True) := by
  refine .bind ((allocate_checks.waits s).mono (fun _ s₁ _ => newModuleDef_bind ?_) fun _ _ _ => trivial)
  exact .bind (.onError (evalBody_marks.mono (fun _ _ h => .pure h) fun _ _ _ => trivial))

theorem compileModule_ready : Triple (compileModule env (resolveModule env fuel) code name origin) s
    (fun m s' => s'.Ready m) (fun _ _ => True) := by
  have hmakes : Triple (jsEval env (resolveModule env fuel) code name origin) s (Makes name s) _ :=
    jsEval_makes (resolveModule_grows env fuel)
  refine .bind ((hmakes.and jsEval_marks).mono (fun m s₁ h => ?_) fun _ _ _ => trivial)
  have hready := ready_of_marked h.1.lists h.2
  refine .bind ((allocate_checks.waits s₁).mono (fun _ _ hw => .pure ?_) fun _ _ _ => trivial)
  exact hready.grows (hw.grows : Grows none _ _)

theorem jsResolveModule_ready (h : s.Lists m name) :
    Triple (jsResolveModule env fuel m) s (fun _ s' => s'.Ready m) (fun _ _ => True) := by
  refine .onError (((resolveModule_grows env fuel m s).and (resolveModule_marks env fuel m s)).mono ?_ ?_)
  · exact fun _ _ h' => ready_of_marked (h.grows h'.1) h'.2
  · exact fun _ _ _ => trivial

theorem claim_ready (h : s.Ready m) :
    Triple (unlessAnonymous name (claimModuleName env name kind source defn)) s
      (fun _ s' => s'.Ready m) (fun _ _ => True) := by
  unfold unlessAnonymous
  split
  · exact .pure h
  · refine (claimModuleName_spec env name kind source defn s).mono ?_ fun _ _ _ => trivial
    rintro _ _ ⟨s₁, hw, rfl⟩
    have hready : s₁.Ready m := h.grows (hw.grows : Grows none _ _)
    exact hready

/-- What goes to `JS_EvalFunction` is listed and passes for resolved. -/
theorem call_evaluates (op : LoadOp) (fuel : ℕ) (s : Mods) :
    Triple (op.call env fuel) s (fun out s' => ∀ m, out = .evaluates m → s'.Ready m)
      (fun _ _ => True) := by
  cases op with
  | registerModule name code =>
    show Triple (if _ then _ else _) _ _ _
    split
    · exact .throw trivial
    · exact .skip fun _ _ => .skip fun _ _ => .pure (by simp)
  | registerModuleBytecode buf =>
    exact .skip fun _ _ => .skip fun _ _ => .skip fun _ _ => .skip fun _ _ => .pure (by simp)
  | evalModule code name =>
    refine .skip fun _ s₁ => .skip fun _ s₂ => .bind ?_
    refine compileModule_ready.mono (fun m s₃ h => .bind ?_) fun _ _ _ => trivial
    refine (claim_ready h).mono (fun _ s₄ h' => .pure ?_) fun _ _ _ => trivial
    rintro _ ⟨⟩
    exact h'
  | runBytecode buf =>
    refine .skip fun a s₁ => .bind ?_
    refine (readBytecodeBody_spec env _ _ s₁).mono ?_ fun _ _ _ => trivial
    rintro (_ | m) _ ⟨rfl, hobj⟩
    · exact .pure (by simp)
    · obtain ⟨-, rfl, name, reqs, nested, hread⟩ := hobj
      refine .bind ((allocate_checks.waits _).mono (fun _ s₂ hw => .bind ?_) fun _ _ _ => trivial)
      have hlists := (afterRead_lists hread).grows (hw.grows : Grows none _ _)
      refine (jsResolveModule_ready hlists).mono (fun _ s₃ h => .bind ?_) fun _ _ _ => trivial
      refine (claim_ready h).mono (fun _ s₄ h' => .pure ?_) fun _ _ _ => trivial
      rintro _ ⟨⟩
      exact h'
  | dynamicImport name =>
    refine .bind ((hostResolve_finds (resolveModule_grows env fuel)).mono (fun m s₁ h => .bind ?_)
      fun _ _ _ => trivial)
    refine (jsResolveModule_ready h.lists).mono (fun _ s₂ h' => .pure ?_) fun _ _ _ => trivial
    rintro _ ⟨⟩
    exact h'

end Calls

-- ---------------------------------------------------------------------------
-- Runs
-- ---------------------------------------------------------------------------

/-- The call leaves nothing half done. -/
def tidily (env : Env) (s : Mods) (a : ℕ × LoadOp) : Prop := ∀ p ∈ a.2.run env a.1 s, p.2.Tidy

instance (env : Env) (s : Mods) (a : ℕ × LoadOp) : Decidable (tidily env s a) :=
  inferInstanceAs (Decidable (∀ p ∈ a.2.run env a.1 s, _))

/-- Evaluation goes from a definition to those that its entries are bound to. -/
def Leads (s : Mods) : ℕ → ℕ → Prop :=
  Relation.ReflTransGen fun i j => ∃ d e, s.defs[i]? = some d ∧ e ∈ d.reqs ∧ e.module = some j

/-- No entry of the definition is unbound. -/
def Mods.Bound (s : Mods) (i : ℕ) : Prop := ∃ d, s.defs[i]? = some d ∧ ∀ e ∈ d.reqs, e.module ≠ none

section Runs

variable {env : Env}

theorem tidily.tidy (h : tidily env s a)
    (hrun : a.2.call env a.1 { s with log := [] } = some (r, s')) :
    s'.Tidy :=
  h (r, s') hrun

theorem call_sound {s : Mods} (h : Sound [] s) (ha : tidily env s a)
    (hrun : a.2.call env a.1 { s with log := [] } = some (r, s')) : Sound [] s' := by
  have hsafe : Safe [] { s with log := [] } := fun _ => h
  exact (call_safe a.2 a.1).elim hrun hsafe (ha.tidy hrun)

theorem reaches_sound (h : Machine.Reaches (loadStep env) (tidily env) s s') (hs : Sound [] s) :
    Sound [] s' := by
  refine h.invariant hs fun h ha hstep => ?_
  obtain ⟨r, hrun⟩ := loadStep_eq_some hstep
  exact call_sound h ha hrun

theorem reaches_ready (h : Machine.Reaches (loadStep env) (tidily env) s s') (hm : s.Ready m) :
    s'.Ready m := by
  refine h.invariant (I := fun s => s.Ready m) hm fun {s a s'} hm ha hstep => ?_
  obtain ⟨r, hrun⟩ := loadStep_eq_some hstep
  have hm₀ : Mods.Ready { s with log := [] } m := hm
  exact ((call_ready a.2 a.1).elim hrun).2 (ha.tidy hrun) m hm₀

theorem init_sound : Sound [] .init := by
  intro i d hd
  simp [Mods.init] at hd

/-- Whatever a ready definition leads to is ready, with its entries bound. -/
theorem Leads.bound (h : Leads s m i) (hs : Sound [] s) (hm : s.Ready m) :
    s.Ready i ∧ s.Bound i := by
  have hbound : ∀ {i}, s.Ready i → s.Ready i ∧ s.Bound i := by
    intro i hready
    obtain ⟨d, hd, hl, hr⟩ := hready
    refine ⟨⟨d, hd, hl, hr⟩, d, hd, fun e he => ?_⟩
    obtain ⟨t, ht, -⟩ := hs i d hd hl hr (by simp) e he
    simp [ht]
  induction h with
  | refl => exact hbound hm
  | tail _ hstep ih =>
    obtain ⟨d, e, hd, he, hj⟩ := hstep
    obtain ⟨⟨d', hd', hl, hr⟩, -⟩ := ih
    rw [hd] at hd'
    cases hd'
    obtain ⟨t, ht, hready⟩ := hs _ d hd hl hr (by simp) e he
    obtain rfl := Option.some.inj (hj.symm.trans ht)
    exact hbound hready

/-- A module that a call evaluates leads to bound definitions only, and still
does so after whatever calls are made while it runs. -/
theorem evaluated_bound {s : Mods} (h : Sound [] s) (ha : tidily env s (fuel, op))
    (hrun : op.run env fuel s = some (.ok (.evaluates m), s₁))
    (hlater : Machine.Reaches (loadStep env) (tidily env) s₁ t) (hleads : Leads t m i) :
      t.Bound i := by
  have hready : s₁.Ready m := (call_evaluates op fuel _).ok hrun m rfl
  have hsound : Sound [] s₁ := call_sound h ha hrun
  exact (hleads.bound (reaches_sound hlater hsound) (reaches_ready hlater hready)).2

end Runs

end QuickJsKmp
