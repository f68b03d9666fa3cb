import QuickJsKmp.ModuleLaws

/-!
# Whose a name is

Between the check of a name and its claim lies the whole of a compilation, with
questions to the host and claims of other names. What keeps the name itself out of
these is that its definition is listed first: an import of it is answered from the
list, and asks nobody and claims nothing.
-/

namespace QuickJsKmp

open Fallible (Prog Triple Keeps Yields Composes Chains Runs)

/-- The names that were asked for. -/
def askedNames (log : List Event) : List Name :=
  log.filterMap fun
    | .asked n _ _ _ => some n
    | _ => none

/-- A loader's bytecode passes the checks that begin at this time, and this is its body. -/
structure Admitted (env : Env) (name : Name) (buf : Bytes) (time : ℕ) (body : Bytes) : Prop where
  header : checkBytecodeHeader buf = .ok (.module, body)
  granted : env.refused time = false ∧ env.refused (time + 2) = false
  module : ∃ reqs nested, env.readNow (time + 1) body = .module name reqs nested

/-- There is memory for the read into the engine's context and for `set_import_meta`. -/
def Afforded (env : Env) (time : ℕ) : Prop := env.cut time = none ∧ env.refused (time + 1) = false

/-- An answer, given at this time, that is rejected or does not compile. -/
def LoaderAnswer.bad (env : Env) (name : Name) (time : ℕ) : LoaderAnswer → Prop
  | .unknown | .other | .failed _ => True
  | .source code => env.parse code = none
  | .bytecode buf => ∀ body, Admitted env name buf (time + 1) body → ¬ Afforded env (time + 4)

/-- Bytecode for which memory ran out when its definition was in the context already. -/
def LoaderAnswer.Interrupted (env : Env) (name : Name) (time : ℕ) : LoaderAnswer → Prop
  | .bytecode buf => ∃ body, Admitted env name buf (time + 1) body ∧ ¬ Afforded env (time + 4) ∧
      name ∈ (env.readNow (time + 4) body).defs.map Prod.fst
  | _ => False

/-- The rows have different names, and the array has room for them. -/
structure Mods.Tabled (s : Mods) : Prop where
  distinct : (s.rows.map KmpModule.name).Nodup
  room : s.rows.length ≤ s.cap

/-- What was asked between two states: each name once, and none that was known. -/
def Heard (s s' : Mods) (Q : Name → ℕ → LoaderAnswer → Prop) : Prop :=
  ∃ new, s'.log = new ++ s.log ∧ (askedNames new).Nodup ∧
    ∀ {n k t a}, .asked n k t a ∈ new → k = false ∧ s.knows n = false ∧ Q n t a

/-- No row came of the answer, and no definition unless it was interrupted. -/
structure Spoils (env : Env) (s : Mods) (name : Name) (time : ℕ) (answer : LoaderAnswer) : Prop where
  row : s.findModule name = none
  unknown : ¬ answer.Interrupted env name time → s.knows name = false

/-- A part of a call that succeeds. No row is made for a name that is listed. -/
structure Spends (env : Env) (s s' : Mods) : Prop where
  lists : ∀ {m n}, s.Lists m n → s'.Lists m n
  rows : s.rows <+: s'.rows
  table : s.Tabled → s'.Tabled
  spent : ∀ {m n}, s.Lists m n → s'.findModule n = s.findModule n
  heard : Heard s s' fun n t a => s'.knows n ∧ ¬ a.bad env n t

/-- A part of a call that fails. -/
structure Wastes (env : Env) (s s' : Mods) : Prop where
  rows : s.rows <+: s'.rows
  table : s.Tabled → s'.Tabled
  heard : Heard s s' fun n t a => a.bad env n t → Spoils env s' n t a

variable {env : Env} {s s' : Mods}

theorem knows_iff (s : Mods) (n : Name) :
    s.knows n ↔ (∃ r, s.findModule n = some r) ∨ ∃ m, s.Lists m n := by
  simp only [Mods.knows, Bool.or_eq_true, Option.isSome_iff_exists]
  refine or_congr Iff.rfl ⟨?_, ?_⟩
  · rintro ⟨m, hm⟩
    exact ⟨m, findLoaded_eq_some hm⟩
  · rintro ⟨m, hm⟩
    exact Option.ne_none_iff_exists'.mp (findLoaded_ne_none hm)

theorem knows_sub (hrows : s'.rows = s.rows) (hlists : ∀ {m n}, s'.Lists m n → s.Lists m n)
    (h : s.knows n = false) : s'.knows n = false := by
  refine Bool.eq_false_iff.mpr fun hknows => Bool.eq_false_iff.mp h ?_
  rw [knows_iff] at hknows ⊢
  rw [Mods.findModule, hrows] at hknows
  rcases hknows with hr | ⟨m, hm⟩
  · exact .inl hr
  · exact .inr ⟨m, hlists hm⟩

theorem findModule_of_unknown (h : s.knows n = false) : s.findModule n = none := by
  simp only [Mods.knows, Bool.or_eq_false_iff, Option.isSome_eq_false_iff,
    Option.isNone_iff_eq_none] at h
  exact h.1

theorem Spoils.clean (h : Spoils env s name time answer) (hrows : s'.rows = s.rows)
    (hlists : ∀ {m n}, s'.Lists m n → s.Lists m n) : Spoils env s' name time answer where
  row := by
    rw [Mods.findModule, hrows]
    exact h.row
  unknown := fun hgoes => knows_sub hrows hlists (h.unknown hgoes)

theorem Spends.knows (h : Spends env s s') (hknows : s.knows n) : s'.knows n := by
  rw [knows_iff] at hknows ⊢
  rcases hknows with ⟨r, hr⟩ | ⟨m, hm⟩
  · exact .inl ⟨r, findModule_stays h.rows hr⟩
  · exact .inr ⟨m, h.lists hm⟩

theorem Spends.unknown (h : Spends env s s') (hknows : s'.knows n = false) : s.knows n = false :=
  Bool.eq_false_iff.mpr fun hn => Bool.eq_false_iff.mp hknows (h.knows hn)

-- ---------------------------------------------------------------------------
-- Questions
-- ---------------------------------------------------------------------------

theorem mem_askedNames : n ∈ askedNames log ↔ ∃ k t a, .asked n k t a ∈ log := by
  simp only [askedNames, List.mem_filterMap]
  constructor
  · rintro ⟨e, he, hn⟩
    cases e with
    | asked name k t a =>
      cases hn
      exact ⟨k, t, a, he⟩
    | _ => cases hn
  · rintro ⟨k, t, a, he⟩
    exact ⟨_, he, rfl⟩

theorem Heard.mono {Q Q' : Name → ℕ → LoaderAnswer → Prop} (h : Heard s s' Q)
    (hQ : ∀ n t a, Q n t a → Q' n t a) :
    Heard s s' Q' := by
  obtain ⟨new, hlog, hnodup, hnew⟩ := h
  exact ⟨new, hlog, hnodup, fun he => ⟨(hnew he).1, (hnew he).2.1, hQ _ _ _ (hnew he).2.2⟩⟩

theorem Heard.and {Q Q' : Name → ℕ → LoaderAnswer → Prop} (h : Heard s s' Q) (h' : Heard s s' Q') :
    Heard s s' fun n t a => Q n t a ∧ Q' n t a := by
  obtain ⟨new, hlog, hnodup, hnew⟩ := h
  obtain ⟨new', hlog', -, hnew'⟩ := h'
  obtain rfl := List.append_cancel_right (hlog.symm.trans hlog')
  exact ⟨new, hlog, hnodup, fun he => ⟨(hnew he).1, (hnew he).2.1, (hnew he).2.2, (hnew' he).2.2⟩⟩

/-- Nothing was asked. -/
def Silent (s s' : Mods) : Prop := ∃ new, s'.log = new ++ s.log ∧ askedNames new = []

theorem askedNames_append (log log' : List Event) :
    askedNames (log ++ log') = askedNames log ++ askedNames log' := List.filterMap_append

theorem silent_composes : Composes Silent where
  refl := fun _ => ⟨[], rfl, rfl⟩
  trans := by
    rintro s t u ⟨new, hlog, hnew⟩ ⟨new', hlog', hnew'⟩
    exact ⟨new' ++ new, by rw [hlog', hlog, List.append_assoc], by rw [askedNames_append, hnew, hnew']; rfl⟩

theorem Silent.same (h : s'.log = s.log) : Silent s s' := ⟨[], h, rfl⟩

theorem Silent.note (s : Mods) (he : askedNames [e] = []) : Silent s (s.note e) := ⟨[e], rfl, he⟩

theorem Silent.heard {Q : Name → ℕ → LoaderAnswer → Prop} (h : Silent s s') : Heard s s' Q := by
  obtain ⟨new, hlog, hempty⟩ := h
  refine ⟨new, hlog, hempty ▸ List.nodup_nil, fun he => ?_⟩
  have hmem := mem_askedNames.mpr ⟨_, _, _, he⟩
  simp [hempty] at hmem

/-- One part after another: what the second asks for the first did not know, and
what the first asked for it knows. -/
theorem Heard.trans {Q : Name → ℕ → LoaderAnswer → Prop} (h : Spends env s t) (h' : Heard t s' Q)
    (hQ : ∀ n u a, t.knows n ∧ ¬ a.bad env n u → Q n u a) : Heard s s' Q := by
  obtain ⟨new, hlog, hnodup, hnew⟩ := h.heard
  obtain ⟨new', hlog', hnodup', hnew'⟩ := h'
  refine ⟨new' ++ new, by rw [hlog', hlog, List.append_assoc], ?_, fun he => ?_⟩
  · rw [askedNames_append]
    refine List.nodup_append.mpr ⟨hnodup', hnodup, fun a ha b hb hab => ?_⟩
    subst hab
    obtain ⟨_, _, _, ha⟩ := mem_askedNames.mp ha
    obtain ⟨_, _, _, hb⟩ := mem_askedNames.mp hb
    have hunknown := (hnew' ha).2.1
    rw [(hnew hb).2.2.1] at hunknown
    cases hunknown
  · rcases List.mem_append.mp he with he | he
    · exact ⟨(hnew' he).1, h.unknown (hnew' he).2.1, (hnew' he).2.2⟩
    · exact ⟨(hnew he).1, (hnew he).2.1, hQ _ _ _ (hnew he).2.2⟩

theorem spends_composes (env : Env) : Composes (Spends env) where
  refl := fun s => ⟨id, List.prefix_refl _, id, fun _ => rfl, (silent_composes.refl s).heard⟩
  trans := by
    intro s t u h h'
    refine ⟨fun hl => h'.lists (h.lists hl), h.rows.trans h'.rows, fun ht => h'.table (h.table ht),
      fun hl => (h'.spent (h.lists hl)).trans (h.spent hl), ?_⟩
    exact .trans h h'.heard fun _ _ _ hn => ⟨h'.knows hn.1, hn.2⟩

theorem Spends.before (h : Spends env s t) (h' : Wastes env t u) : Wastes env s u :=
  ⟨h.rows.trans h'.rows, fun ht => h'.table (h.table ht),
    .trans h h'.heard fun _ _ _ hn hbad => absurd hbad hn.2⟩

theorem Spends.wastes (h : Spends env s s') : Wastes env s s' :=
  ⟨h.rows, h.table, h.heard.mono fun _ _ _ hn hbad => absurd hbad hn.2⟩

-- ---------------------------------------------------------------------------
-- Steps
-- ---------------------------------------------------------------------------

/-- The table is left alone. -/
theorem Spends.of_rows (hlog : Silent s s') (hrows : s'.rows = s.rows) (hcap : s.cap ≤ s'.cap)
    (hlists : ∀ {m n}, s.Lists m n → s'.Lists m n) : Spends env s s' where
  lists := hlists
  rows := hrows ▸ List.prefix_refl _
  table := fun h => ⟨hrows ▸ h.distinct, hrows ▸ Nat.le_trans h.room hcap⟩
  spent := fun _ => by rw [Mods.findModule, hrows]; rfl
  heard := hlog.heard

theorem Waits.spends (h : Waits s s') : Spends env s s' :=
  .of_rows (.same h.log) h.rows h.cap fun hl => by rwa [Mods.Lists, h.defs]

theorem Checks.spends {m : L α} (h : Checks m) (s : Mods) :
    Runs (Spends env) (fun _ => Wastes env) m s :=
  (h s).mono (fun _ _ hw => hw.spends) fun _ _ hw => hw.1.spends.wastes

theorem Spends.note (s : Mods) (he : askedNames [e] = []) : Spends env s (s.note e) :=
  .of_rows (.note s he) rfl (Nat.le_refl _) id

theorem Spends.add (s : Mods) (d : ModuleDef) : Spends env s (s.add d) :=
  .of_rows (.same rfl) rfl (Nat.le_refl _) fun hl => lists_add.mpr (.inl hl)

theorem Spends.setDef {f : ModuleDef → ModuleDef}
    (hf : ∀ d, (f d).listed = d.listed ∧ (f d).name = d.name)
    (s : Mods) (m : ℕ) : Spends env s (s.setDef m f) :=
  .of_rows (.same rfl) rfl (Nat.le_refl _) (lists_setDef hf).mpr

theorem Spends.withRead (s : Mods) (ds : List (Name × List Name)) :
    Spends env s (s.withRead ds) := by
  induction ds generalizing s with
  | nil => exact (spends_composes env).refl s
  | cons d ds ih =>
    have hread : askedNames [.read s.defs.length (s.shadows d.1)] = [] := rfl
    have hnote : Spends env s _ := (spends_composes env).trans (.add s (readDef d)) (.note _ hread)
    exact (spends_composes env).trans hnote (ih _)

theorem Spends.afterRead (s : Mods) (body : Bytes) : Spends env s (s.afterRead env body) :=
  (spends_composes env).trans (waits_tick s).spends (.withRead _ _)

/-- A clean-up takes definitions from the list. -/
theorem Wastes.clean (h : Wastes env s t) (hlog : Silent t s') (hrows : s'.rows = t.rows)
    (hcap : s'.cap = t.cap) (hlists : ∀ {m n}, s'.Lists m n → t.Lists m n) : Wastes env s s' where
  rows := hrows ▸ h.rows
  table := by
    intro hs
    have ht := h.table hs
    exact ⟨hrows ▸ ht.distinct, by rw [hrows, hcap]; exact ht.room⟩
  heard := by
    have hcleaned : Heard s t fun n u a => a.bad env n u → Spoils env s' n u a :=
      h.heard.mono fun _ _ _ hn hbad => (hn hbad).clean hrows hlists
    obtain ⟨new, hnew, hnodup, hasked⟩ := hcleaned
    obtain ⟨last, hlog, hlast⟩ := hlog
    refine ⟨last ++ new, by rw [hlog, hnew, List.append_assoc], ?_, fun hmem => ?_⟩
    · rwa [askedNames_append, hlast, List.nil_append]
    · rcases List.mem_append.mp hmem with hmem | hmem
      · have hname := mem_askedNames.mpr ⟨_, _, _, hmem⟩
        simp [hlast] at hname
      · exact hasked hmem

theorem Wastes.free (h : Wastes env s t) (m : ℕ) : Wastes env s (t.free m) :=
  h.clean ⟨[_], rfl, rfl⟩ rfl rfl fun hl => (lists_free.mp hl).2

theorem Wastes.leave (h : Wastes env s t) (m : ℕ) : Wastes env s (t.leave m) :=
  h.clean ⟨[_], rfl, rfl⟩ rfl rfl id

theorem Wastes.purge (h : Wastes env s t) : Wastes env s t.purge := by
  refine h.clean ⟨[_], rfl, rfl⟩ rfl rfl fun hl => ?_
  obtain ⟨d, hd, hl, -, hname⟩ := lists_purge.mp hl
  exact ⟨d, hd, hl, hname⟩

-- ---------------------------------------------------------------------------
-- Claims
-- ---------------------------------------------------------------------------

section Imports

variable {resolve : ℕ → L Unit}

/-- From a state in which the name is listed nobody asks for it. -/
theorem Heard.other {Q : Name → ℕ → LoaderAnswer → Prop} (h : Heard t s' Q) (hpre : Spends env s t)
    (hlog : t.log = s.log) (hl : t.Lists m name) : Heard s s' fun n _ _ => n ≠ name := by
  obtain ⟨new, hnew, hnodup, hasked⟩ := h
  refine ⟨new, hlog ▸ hnew, hnodup,
    fun {n k u a} hmem => ⟨(hasked hmem).1, hpre.unknown (hasked hmem).2.1, ?_⟩⟩
  rintro rfl
  have hknows := (knows_iff t n).mpr (.inr ⟨m, hl⟩)
  rw [(hasked hmem).2.1] at hknows
  cases hknows

theorem Admitted.unique (h : Admitted env name buf t body) (h' : Admitted env name buf t body') :
    body' = body := by
  cases h.header.symm.trans h'.header
  rfl

/-- A question for a name that was not known, and what came of it. -/
theorem Heard.asked {Q : Name → ℕ → LoaderAnswer → Prop}
    (h : Heard t s' fun n u a => n ≠ name ∧ Q n u a)
    (hlog : t.log = .asked name false time answer :: s.log) (hknows : ∀ n, t.knows n = s.knows n)
    (hname : s.knows name = false) (hQ : Q name time answer) : Heard s s' Q := by
  obtain ⟨new, hnew, hnodup, hasked⟩ := h
  refine ⟨new ++ [.asked name false time answer], by rw [hnew, hlog, List.append_assoc]; rfl, ?_,
    fun hmem => ?_⟩
  · rw [askedNames_append]
    refine List.nodup_append.mpr ⟨hnodup, by simp [askedNames], ?_⟩
    rintro n hn n' hn' rfl
    obtain ⟨k, u, a, hn⟩ := mem_askedNames.mp hn
    obtain rfl : n = name := by simpa [askedNames] using hn'
    exact (hasked hn).2.2.1 rfl
  · rcases List.mem_append.mp hmem with hmem | hmem
    · exact ⟨(hasked hmem).1, hknows _ ▸ (hasked hmem).2.1, (hasked hmem).2.2.2⟩
    · cases List.mem_singleton.mp hmem
      exact ⟨rfl, hname, hQ⟩

/-- The state in which the host has answered. -/
def Mods.hears (s : Mods) (name : Name) (answer : LoaderAnswer) : Mods :=
  Mods.note { s with clock := s.clock + 1 } (.asked name (s.knows name) s.clock answer)

/-- What comes of an answer. -/
structure Answers (env : Env) (name : Name) (time : ℕ) (answer : LoaderAnswer) (s s' : Mods) :
    Prop where
  rows : s.rows <+: s'.rows
  table : s.Tabled → s'.Tabled
  other : Heard s s' fun n t a => n ≠ name ∧ (a.bad env n t → Spoils env s' n t a)
  spoilt : answer.bad env name time → Spoils env s' name time answer

theorem Answers.wastes (h : Answers env name s.clock answer (s.hears name answer) t)
    (hname : s.knows name = false) :
    Wastes env s t := by
  refine ⟨h.rows, fun hs => h.table ⟨hs.distinct, hs.room⟩, ?_⟩
  exact h.other.asked (by rw [← hname]; rfl) (fun _ => rfl) hname h.spoilt

theorem Heard.before {Q : Name → ℕ → LoaderAnswer → Prop} (h : Heard t s' Q) (hw : Waits s t) :
    Heard s s' Q := by
  obtain ⟨new, hlog, hnodup, hnew⟩ := h
  refine ⟨new, hw.log ▸ hlog, hnodup, fun hmem => ⟨(hnew hmem).1, ?_, (hnew hmem).2.2⟩⟩
  refine Bool.eq_false_iff.mpr fun hn => Bool.eq_false_iff.mp (hnew hmem).2.1 ?_
  simpa only [Mods.knows, Mods.findModule, Mods.findLoaded, hw.rows, hw.defs] using hn

end Imports

-- ---------------------------------------------------------------------------
-- Calls
-- ---------------------------------------------------------------------------

end QuickJsKmp
