import QuickJsKmp.Names

/-!
# The host's loader

Two stores decide together whether the host is asked for a module: a name that has a
row is never asked for again, and a name that is listed is answered from the list. A
failure takes a definition from the list again, so that the next import asks.
-/

namespace QuickJsKmp

open Fallible (Prog Triple Keeps Yields Composes Chains Runs)

variable {env : Env} {s s' : Mods}

-- ---------------------------------------------------------------------------
-- A name that is listed
-- ---------------------------------------------------------------------------

/-- A name that is listed gets no row, and no other definition but one that was read. -/
structure Settled (s s' : Mods) : Prop where
  log : s.log <:+ s'.log
  spent : ∀ {m n}, s.Lists m n → s'.findModule n = s.findModule n
  again : ∀ {i m n}, s.Lists m n → s'.Lists i n → s.Lists i n ∨ ∃ shadows, .read i shadows ∈ s'.log

/-- And it stays. -/
structure Settles (s s' : Mods) : Prop extends Settled s s' where
  lists : ∀ {m n}, s.Lists m n → s'.Lists m n

theorem Settles.before (h : Settles s t) (h' : Settled t u) : Settled s u where
  log := h.log.trans h'.log
  spent := fun hl => (h'.spent (h.lists hl)).trans (h.spent hl)
  again := by
    intro i m n hl hi
    rcases h'.again (h.lists hl) hi with hi | hread
    · rcases h.again hl hi with hi | ⟨shadows, hread⟩
      · exact .inl hi
      · exact .inr ⟨shadows, h'.log.subset hread⟩
    · exact .inr hread

theorem settles_chains : Chains Settles (fun (_ : Failure) => Settled) where
  composes := {
    refl := fun _ => ⟨⟨List.suffix_refl _, fun _ => rfl, fun _ hi => .inl hi⟩, id⟩
    trans := fun h h' => ⟨h.before h'.toSettled, fun hl => h'.lists (h.lists hl)⟩ }
  fails := Settles.before

theorem Settled.clean (h : Settled s t) (hrows : s'.rows = t.rows) (hlog : t.log <:+ s'.log)
    (hlists : ∀ {i n}, s'.Lists i n → t.Lists i n) : Settled s s' where
  log := h.log.trans hlog
  spent := by
    intro m n hl
    rw [Mods.findModule, hrows]
    exact h.spent hl
  again := by
    intro i m n hl hi
    refine (h.again hl (hlists hi)).imp_right ?_
    rintro ⟨shadows, hread⟩
    exact ⟨shadows, hlog.subset hread⟩

/-- The list is the same. -/
theorem Settles.of_lists (hrows : s'.rows = s.rows) (hlog : s.log <:+ s'.log)
    (hlists : ∀ {i n}, s'.Lists i n ↔ s.Lists i n) : Settles s s' :=
  ⟨(settles_chains.composes.refl s).clean hrows hlog hlists.mp, hlists.mpr⟩

theorem Waits.settles (h : Waits s s') : Settles s s' :=
  .of_lists h.rows (h.log ▸ List.suffix_refl _) (by simp only [Mods.Lists, h.defs, implies_true])

theorem Settles.note (s : Mods) (e : Event) : Settles s (s.note e) :=
  .of_lists rfl (List.suffix_cons _ _) Iff.rfl

theorem Settles.setDef {f : ModuleDef → ModuleDef}
    (hf : ∀ d, (f d).listed = d.listed ∧ (f d).name = d.name)
    (s : Mods) (m : ℕ) : Settles s (s.setDef m f) :=
  .of_lists rfl (List.suffix_refl _) (lists_setDef hf)

/-- The name of the definition was not listed. -/
theorem Settles.add (h : s.findLoaded d.name = none) : Settles s (s.add d) where
  log := List.suffix_refl _
  spent := fun _ => rfl
  again := by
    intro i m n hl hi
    rcases lists_add.mp hi with hi | ⟨-, -, rfl⟩
    · exact .inl hi
    · exact absurd h (findLoaded_ne_none hl)
  lists := fun hl => lists_add.mpr (.inl hl)

/-- The name of the row was not listed at the start. -/
theorem Settles.claim (h : Settles s t) (hnone : s.findLoaded r.name = none) :
    Settles s { t with rows := t.rows ++ [r] } where
  log := h.log
  spent := by
    intro m n hl
    rw [findModule_claim, if_neg, Option.or_none, h.spent hl]
    rintro rfl
    exact findLoaded_ne_none hl hnone
  again := h.again
  lists := h.lists

theorem withRead_reads (s : Mods) (ds : List (Name × List Name)) (h : (s.withRead ds).Lists i n) :
    s.Lists i n ∨ ∃ shadows, .read i shadows ∈ (s.withRead ds).log := by
  induction ds generalizing s with
  | nil => exact .inl h
  | cons d ds ih =>
    rcases ih _ h with hl | hread
    · rcases lists_add.mp hl with hl | ⟨rfl, -⟩
      · exact .inl hl
      · have hgrows : Grows none ((s.add (readDef d)).note (.read s.defs.length (s.shadows d.1))) _ :=
          withRead_grows _ ds
        exact .inr ⟨_, hgrows.log.subset List.mem_cons_self⟩
    · exact .inr hread

theorem Settles.afterRead (s : Mods) (env : Env) (body : Bytes) :
    Settles s (s.afterRead env body) where
  log := (afterRead_grows s env body : Grows none _ _).log
  spent := by
    intro m n _
    rw [Mods.findModule, Mods.afterRead, withRead_rows]
    rfl
  again := fun _ hi => withRead_reads _ _ hi
  lists := fun hl => hl.grows (afterRead_grows s env body : Grows none _ _)

section Settled

variable {resolve : ℕ → L Unit}

end Settled

-- ---------------------------------------------------------------------------
-- The loader
-- ---------------------------------------------------------------------------

theorem Heard.none {Q : Name → ℕ → LoaderAnswer → Prop} (h : Heard s s' Q) (hlog : s.log = [])
    (hasked : .asked n k t a ∈ s'.log) : k = false ∧ s.knows n = false ∧ Q n t a := by
  obtain ⟨new, hnew, -, hall⟩ := h
  rw [hnew, hlog, List.append_nil] at hasked
  exact hall hasked

theorem Heard.unknown {Q : Name → ℕ → LoaderAnswer → Prop} (h : Heard s s' Q)
    (hrow : (s.findModule n).isSome)
    (hasked : n ∈ askedNames s'.log) : n ∈ askedNames s.log := by
  obtain ⟨new, hnew, -, hall⟩ := h
  rw [hnew, askedNames_append] at hasked
  refine (List.mem_append.mp hasked).resolve_left fun hmem => ?_
  obtain ⟨k, u, a, hmem⟩ := mem_askedNames.mp hmem
  rw [findModule_of_unknown (hall hmem).2.1] at hrow
  cases hrow

end QuickJsKmp
