import Mathlib.Algebra.Order.BigOperators.Group.List
import Mathlib.Data.Multiset.OrderedMonoid
import QuickJsKmp.EntryLaws

/-!
# From `kmpjs_create` to `kmpjs_destroy`

A new engine is balanced with empty hands, every call leaves it so, and
`kmpjs_destroy` then gives back what the fields keep. One thing escapes it: a
count that was retained past `INT32_MAX` is negative, and a slot with a
negative count is neither released nor freed.
-/

namespace QuickJsKmp.Ledger

open Recorded (Prog Hands Keeps Composes)
open Lookups (getElem?_getLast)

variable {base : Base}

-- ---------------------------------------------------------------------------
-- kmpjs_create
-- ---------------------------------------------------------------------------

theorem blank_balanced (callbacks : Callbacks) :
    Balanced ⟨[], .undefined⟩ (Shim.blank callbacks) 0 where
  since := ⟨List.prefix_refl _, rfl⟩
  owns := ⟨rfl, rfl⟩
  counts := {
    inv := ⟨[], SlotTable.inv_empty⟩
    live := rfl
    counted := nofun
    wraps := by simp [Shim.blank, SlotTable.empty, Wraps, notes] }
  runs := ⟨.inl rfl, nofun⟩
  tracks := {
    history := by
      intro pre m post h
      cases pre <;> cases h
    lists := ⟨List.nodup_nil, by simp [Shim.blank, Outstanding, notes]⟩
    settled := nofun
    handlers := nofun
    taken := by simp [Shim.blank, notes]
    told := by simp [Shim.blank, notes, told] }

theorem setFunction_hands : Hands (Balanced base) 0 setFunction fun _ => 0 :=
  (value_hands primitive_hands).seq fun fn =>
    (freeAny_hands fn).seq fun _ => status_hands primitive_hands

theorem setFunctions_hands : Hands (Balanced base) 0 setFunctions fun _ => 0 := by
  refine setFunction_hands.seq fun _ => .ite (fun _ => ?_) fun _ => .pure rfl
  refine setFunction_hands.seq fun _ => ?_
  exact .ite (fun _ => setFunction_hands) fun _ => .pure rfl

theorem installInto_hands (console performance : Option JSValue) :
    Hands (Balanced base) (holdsAny console + holdsAny performance)
      (installInto console performance)
      fun _ => 0 := by
  unfold installInto
  split
  · rename_i console performance
    refine setFunctions_hands.pass fun _ => .ite (fun _ => ?_) fun _ => ?_
    · refine (setProperty_hands primitive_hands console).bind
        (holds (.value performance)) rfl fun _ => ?_
      rw [zero_add]
      refine .ite (fun _ => setProperty_hands primitive_hands performance) fun _ => ?_
      exact free_hands.seq fun _ => .pure rfl
    · refine free_hands.bind (holds (.value performance)) rfl fun _ => ?_
      rw [zero_add]
      exact free_hands.seq fun _ => .pure rfl
  · refine (freeAny_hands _).bind (holdsAny performance) rfl fun _ => ?_
    rw [zero_add]
    exact (freeAny_hands _).seq fun _ => .pure rfl

theorem installGlobals_hands : Hands (Balanced base) 0 installGlobals fun _ => 0 := by
  refine own_hands.seq fun _ => (value_hands primitive_hands).bind_zero fun console => ?_
  refine (value_hands primitive_hands).bind_zero fun performance => ?_
  refine (installInto_hands console performance).bind (holds globalObject) ?_ fun ok => ?_
  · abel
  · rw [zero_add]
    exact free_hands.seq fun _ => .pure rfl

theorem probeItem_hands : Hands (Balanced base) 0 probeItem fun _ => 0 :=
  (value_hands primitive_hands).seq freeAny_hands

theorem probeItems_hands : Hands (Balanced base) 0 probeItems holdsAny :=
  probeItem_hands.seq fun _ => probeItem_hands.seq fun _ => probeItem_hands.seq fun _ =>
    probeItem_hands.seq fun _ => value_hands primitive_hands

theorem checkClasses_hands (arr ctor : JSValue) :
    Hands (Balanced base) (holds (.value arr)) (checkClasses arr ctor) fun _ => 0 :=
  primitive_hands.pass fun _ => free_hands.seq fun _ => .pure rfl

/-- The field held no reference before. -/
theorem Balanced.store {s : Shim} {h : Hand}
    (hs : Balanced ⟨log, .undefined⟩ s (holds (.value ctor) + h)) :
    Balanced ⟨log, ctor⟩ { s with bigintCtor := ctor } h := by
  have howned := hs.owns.owned
  have hcounts := hs.counts
  have hruns := hs.runs
  have htracks := hs.tracks
  simp only [holds, Prod.fst_add, Prod.snd_add, zero_add] at howned hcounts hruns htracks
  refine ⟨⟨hs.since.1, rfl⟩, ⟨hs.owns.fault, ?_⟩,
    ⟨hcounts.inv, hcounts.live, hcounts.counted, hcounts.wraps⟩, ⟨hruns.one, hruns.doom⟩,
    ⟨htracks.history, htracks.lists, htracks.settled, htracks.handlers, htracks.taken,
      htracks.told⟩⟩
  have hold : refs (.value s.bigintCtor) = 0 := by
    rw [hs.since.2]
    rfl
  show s.owned = _
  rw [howned]
  simp only [Shim.stores, hold]
  abel

theorem holdsAny_getD (v : Option JSValue) : holdsAny v = holds (.value (v.getD .undefined)) := by
  cases v <;> rfl

/-- The constructor changes in the middle, so that the phases are taken one by one. -/
theorem probeClasses_balanced (hrun : probeClasses s es = some (ok, s', rest))
    (hs : Balanced ⟨log, .undefined⟩ s 0) : ∃ ctor, Balanced ⟨log, ctor⟩ s' 0 := by
  obtain ⟨arr, s₁, es₁, h₁, hrest⟩ := Recorded.bind_eq_some.mp hrun
  have hs₁ := (value_hands primitive_hands).elim_zero h₁ hs
  cases arr with
  | none =>
    obtain ⟨-, rfl, rfl⟩ := Recorded.pure_eq_some.mp hrest
    exact ⟨_, hs₁⟩
  | some arr =>
    obtain ⟨ctor, s₂, es₂, h₂, hrest₂⟩ := Recorded.bind_eq_some.mp hrest
    have hs₁' : Balanced ⟨log, .undefined⟩ s₁ (0 + holds (.value arr)) := by
      rw [zero_add]
      exact hs₁
    have hs₂ := probeItems_hands.elim h₂ hs₁'
    rw [holdsAny_getD] at hs₂
    have hs₃ := hs₂.store
    unfold storeBigintCtor at hrest₂
    rw [Recorded.modify_bind] at hrest₂
    exact ⟨_, (checkClasses_hands arr _).elim_zero hrest₂ hs₃⟩

/-- No slot is made and no rejection is tracked. -/
def Untouched (s : Shim) (_ : List Event) (s' : Shim) : Prop :=
  s'.slots = s.slots ∧ s'.rejected = s.rejected

theorem untouched_composes : Composes Untouched where
  refl := fun _ => ⟨rfl, rfl⟩
  trans := fun h h' => ⟨h'.1.trans h.1, h'.2.trans h.2⟩

theorem own_untouched : Keeps Untouched (own o) :=
  .modify fun s => by rw [own_eq]; exact ⟨rfl, rfl⟩

theorem give_untouched (s : Shim) (o : Held) : Untouched s [] (s.give o) := by
  unfold Shim.give
  split
  · split <;> exact ⟨rfl, rfl⟩
  · exact ⟨rfl, rfl⟩

theorem free_untouched : Keeps Untouched (free o) := .modify fun s => give_untouched s o

theorem freeAny_untouched (v : Option JSValue) : Keeps Untouched (freeAny v) := by
  cases v with
  | none => exact .pure untouched_composes _
  | some v => exact free_untouched

theorem primitive_untouched : Keeps Untouched primitive := by
  refine .next fun e s a s' h => ?_
  cases e with
  | answer b =>
    cases h
    exact ⟨rfl, rfl⟩
  | _ => cases h

theorem pend_untouched : Keeps Untouched (pend exc) := .modify fun _ => ⟨rfl, rfl⟩

theorem value_untouched : Keeps Untouched (value primitive) := by
  refine .bind untouched_composes primitive_untouched fun a => ?_
  cases a with
  | value v => exact .bind untouched_composes own_untouched fun _ => .pure untouched_composes _
  | threw exc => exact .bind untouched_composes pend_untouched fun _ => .pure untouched_composes _
  | _ => exact .fail

theorem status_untouched : Keeps Untouched (status primitive) := by
  refine .bind untouched_composes primitive_untouched fun a => ?_
  cases a with
  | done => exact .pure untouched_composes _
  | threw exc => exact .bind untouched_composes pend_untouched fun _ => .pure untouched_composes _
  | _ => exact .fail

theorem setFunctions_untouched : Keeps Untouched setFunctions := by
  have hone : Keeps Untouched setFunction :=
    .bind untouched_composes value_untouched fun fn =>
      .bind untouched_composes (freeAny_untouched fn) fun _ => status_untouched
  refine .bind untouched_composes hone fun _ => .ite ?_ (.pure untouched_composes _)
  exact .bind untouched_composes hone fun _ => .ite hone (.pure untouched_composes _)

theorem setProperty_untouched (v : JSValue) : Keeps Untouched (setProperty primitive v) :=
  .bind untouched_composes free_untouched fun _ => status_untouched

theorem installInto_untouched (console performance : Option JSValue) :
    Keeps Untouched (installInto console performance) := by
  have hfree (v : Option JSValue) : Keeps Untouched (freeAny v >>= fun _ => pure false : M Bool) :=
    .bind untouched_composes (freeAny_untouched v) fun _ => .pure untouched_composes _
  unfold installInto
  split
  · rename_i console performance
    refine .bind untouched_composes setFunctions_untouched fun _ => .ite ?_ ?_
    · refine .bind untouched_composes (setProperty_untouched _) fun _ => ?_
      exact .ite (setProperty_untouched _) (hfree (some performance))
    · exact .bind untouched_composes free_untouched fun _ => hfree (some performance)
  · exact .bind untouched_composes (freeAny_untouched _) fun _ => hfree _

theorem installGlobals_untouched : Keeps Untouched installGlobals := by
  refine .bind untouched_composes own_untouched fun _ => ?_
  refine .bind untouched_composes value_untouched fun console => ?_
  refine .bind untouched_composes value_untouched fun performance => ?_
  refine .bind untouched_composes (installInto_untouched console performance) fun _ => ?_
  exact .bind untouched_composes free_untouched fun _ => .pure untouched_composes _

theorem probeClasses_untouched : Keeps Untouched probeClasses := by
  have hitem : Keeps Untouched probeItem :=
    .bind untouched_composes value_untouched freeAny_untouched
  have hitems : Keeps Untouched probeItems :=
    .bind untouched_composes hitem fun _ => .bind untouched_composes hitem fun _ =>
      .bind untouched_composes hitem fun _ =>
        .bind untouched_composes hitem fun _ => value_untouched
  refine .bind untouched_composes value_untouched fun arr => ?_
  cases arr with
  | none => exact .pure untouched_composes _
  | some arr =>
    refine .bind untouched_composes hitems fun ctor => ?_
    refine .bind untouched_composes (.modify fun _ => ⟨rfl, rfl⟩) fun _ => ?_
    refine .bind untouched_composes primitive_untouched fun _ => ?_
    exact .bind untouched_composes free_untouched fun _ => .pure untouched_composes _

theorem installAndProbe_untouched : Keeps Untouched installAndProbe :=
  .bind untouched_composes installGlobals_untouched fun _ =>
    .ite probeClasses_untouched (.pure untouched_composes _)

theorem installAndProbe_balanced
    (hrun : installAndProbe (Shim.blank callbacks) es = some (ok, s', rest)) :
    ∃ ctor, Balanced ⟨[], ctor⟩ s' 0 := by
  obtain ⟨installed, s₁, es₁, h₁, hrest⟩ := Recorded.bind_eq_some.mp hrun
  have hs₁ := installGlobals_hands.elim_zero h₁ (blank_balanced callbacks)
  cases installed with
  | true => exact probeClasses_balanced hrest hs₁
  | false =>
    obtain ⟨-, rfl, rfl⟩ := Recorded.pure_eq_some.mp hrest
    exact ⟨_, hs₁⟩

theorem Balanced.owned_of_untouched {s : Shim} (hs : Balanced base s 0)
    (hu : Untouched (Shim.blank callbacks) es s) : s.owned = refs (.value s.bigintCtor) := by
  rw [hs.owns.owned, Shim.stores, hu.1, hu.2]
  simp [Shim.blank, SlotTable.empty]

/-- A new engine is balanced, and one that could not be made owns nothing. -/
theorem kmpjsCreate_balanced (hrun : kmpjsCreate (Shim.blank callbacks) es = some (ok, s, rest)) :
    if ok then ∃ ctor, Balanced ⟨[], ctor⟩ s 0 else s.owned = 0 ∧ s.fault = false := by
  obtain ⟨made, s₁, es₁, h₁, hrest⟩ := Recorded.bind_eq_some.mp hrun
  obtain ⟨ctor, hs₁⟩ := installAndProbe_balanced h₁
  cases made with
  | true =>
    obtain ⟨rfl, rfl, rfl⟩ := Recorded.pure_eq_some.mp hrest
    exact ⟨ctor, hs₁⟩
  | false =>
    simp only [Bool.false_eq_true, ↓reduceIte, Recorded.modify_bind] at hrest
    obtain ⟨rfl, rfl, rfl⟩ := Recorded.pure_eq_some.mp hrest
    obtain ⟨used, -, huntouched⟩ := installAndProbe_untouched.elim h₁
    have howned : s₁.owned = refs (.value s₁.bigintCtor) + 0 := by
      rw [add_zero]
      exact hs₁.owned_of_untouched huntouched
    show (s₁.dropBigintCtor).owned = 0 ∧ (s₁.dropBigintCtor).fault = false
    rw [Shim.dropBigintCtor, give_eq howned]
    exact ⟨rfl, hs₁.owns.fault⟩

/-- Between the calls, with empty hands. -/
theorem Reachable.balanced (h : Reachable callbacks s) : ∃ ctor, Balanced ⟨[], ctor⟩ s 0 := by
  obtain ⟨es, s₀, hcreate, hreach⟩ := h
  have hinit := kmpjsCreate_balanced hcreate
  refine hreach.invariant (I := fun s => ∃ ctor, Balanced ⟨[], ctor⟩ s 0) hinit ?_
  rintro s ⟨c, es⟩ s' ⟨ctor, hs⟩ - hstep
  unfold step at hstep
  split at hstep
  · rename_i hcall
    cases hstep
    exact ⟨ctor, (kmpjsCall_hands c).elim_zero hcall hs⟩
  · cases hstep

-- A new engine, on which the concrete runs start.

def bigintConstructor : JSValue := .object 2 .function

/-- The engine's answers while `kmpjs_create` succeeds. -/
def createAnswers : List Event :=
  let item := Answer.value (.object 3 .plain)
  List.map Event.answer
    [item, item, item, .done, item, .done, item, .done, .done, .done,
      item, item, item, item, item, .value bigintConstructor, .done]

def everyCallback : Callbacks := ⟨true, true, true, true⟩

def fresh : Shim :=
  { Shim.blank everyCallback with
    bigintCtor := bigintConstructor
    owned := {.value bigintConstructor} }

theorem reachable_of_exec (calls : List (Call × List Event))
    (h : Machine.exec step Machine.always fresh calls = some s) : Reachable everyCallback s :=
  ⟨createAnswers, fresh, by decide +kernel, Machine.reaches_of_exec h⟩

-- ---------------------------------------------------------------------------
-- kmpjs_destroy
-- ---------------------------------------------------------------------------

section Destroy

variable {s : Shim}

/-- What the loop over the slots passes by. -/
def leftRefs (slot : Slot) : Multiset Held := if slot.refcount.toInt < 0 then slotRefs slot else 0

theorem freeSlots_eq (slots : List Slot) (howned : s.owned = (slots.map slotRefs).sum + rest) :
    s.freeSlots slots = { s with owned := (slots.map leftRefs).sum + rest } := by
  induction slots generalizing s rest with
  | nil =>
    simp only [List.map_nil, List.sum_nil] at howned ⊢
    rw [Shim.freeSlots, ← howned]
  | cons slot slots ih =>
    simp only [List.map_cons, List.sum_cons] at howned ⊢
    rw [Shim.freeSlots]
    have hcases := lt_trichotomy slot.refcount.toInt 0
    by_cases hpos : 0 < slot.refcount.toInt
    · have hrefs : slotRefs slot = refs (.value slot.val) :=
        if_neg (SlotTable.toInt_pos_ne_zero hpos)
      have hleft : leftRefs slot = 0 := if_neg (not_lt.mpr hpos.le)
      rw [hrefs, add_assoc] at howned
      rw [if_pos hpos, give_eq howned, ih (s := { s with owned := _ }) rfl, hleft, zero_add]
    · have hleft : leftRefs slot = slotRefs slot := by
        rcases hcases with hneg | hzero | hpos'
        · exact if_pos hneg
        · rw [leftRefs, if_neg (by omega), slotRefs, if_pos (BitVec.toInt_inj.mp hzero)]
        · exact absurd hpos' hpos
      have howned' : s.owned = (slots.map slotRefs).sum + (slotRefs slot + rest) := by
        rw [howned]
        abel
      rw [if_neg hpos, ih howned', hleft]
      congr 1
      abel

theorem forgetAll_eq (howned : s.owned = (s.rejected.map entryRefs).sum + rest)
    (hn : s.rejected.length = n) : (s.forgetAll n).owned = rest ∧
    (s.forgetAll n).fault = s.fault := by
  induction n generalizing s with
  | zero =>
    rw [List.length_eq_zero_iff.mp hn, List.map_nil, List.sum_nil, zero_add] at howned
    exact ⟨howned, rfl⟩
  | succ n ih =>
    rw [Shim.forgetAll]
    split
    · rename_i p reason hlast
      have hi := getElem?_getLast hlast
      have hlen := forgetRejected_length hi
      rw [forget_eq hi howned]
      refine ih (s := Shim.note { s with owned := _, rejected := _ } _) rfl ?_
      show (QuickJsKmp.forgetRejected s.rejected _).length = n
      omega
    · rename_i hlast
      rw [List.getLast?_eq_none_iff.mp hlast] at hn
      cases hn

theorem kmpjsDestroy_owned (hs : Balanced base s 0) :
    (kmpjsDestroy s).owned = (s.slots.slots.map leftRefs).sum ∧ (kmpjsDestroy s).fault = false := by
  have howned : s.owned = (s.slots.slots.map slotRefs).sum +
      (refs (.value s.bigintCtor) + (s.rejected.map entryRefs).sum) := by
    rw [hs.owns.owned, Shim.stores]
    simp only [Prod.fst_zero, zero_add]
    abel
  have hctor : ({ s with owned := (s.slots.slots.map leftRefs).sum +
      (refs (.value s.bigintCtor) + (s.rejected.map entryRefs).sum) } : Shim).owned =
      refs (.value s.bigintCtor) +
        ((s.rejected.map entryRefs).sum + (s.slots.slots.map leftRefs).sum) := by
    show (s.slots.slots.map leftRefs).sum + _ = _
    abel
  have hmid : (s.freeSlots s.slots.slots).dropBigintCtor = { s with
      owned := (s.rejected.map entryRefs).sum + (s.slots.slots.map leftRefs).sum
      bigintCtor := .undefined } := by
    rw [freeSlots_eq _ howned, Shim.dropBigintCtor, give_eq hctor]
  have hlisted : ((s.freeSlots s.slots.slots).dropBigintCtor).owned =
      (((s.freeSlots s.slots.slots).dropBigintCtor).rejected.map entryRefs).sum +
        (s.slots.slots.map leftRefs).sum := by
    rw [hmid]
  obtain ⟨hleft, hfault⟩ := forgetAll_eq hlisted rfl
  refine ⟨hleft, hfault.trans ?_⟩
  rw [hmid]
  exact hs.owns.fault

/-- Nothing is left exactly if no count went negative. -/
theorem leftRefs_sum_eq_zero (hs : Balanced base s 0) :
    (s.slots.slots.map leftRefs).sum = 0 ↔ ¬ Wraps s.log := by
  rw [← hs.counts.wraps, List.sum_eq_zero_iff (M := Multiset Held)]
  simp only [List.mem_map, forall_exists_index, and_imp, forall_apply_eq_imp_iff₂,
    not_exists, not_and]
  refine forall₂_congr fun slot hslot => ?_
  by_cases hneg : slot.refcount.toInt < 0
  · have hne : slot.refcount ≠ 0 := by
      intro he
      rw [he] at hneg
      exact absurd hneg (by decide)
    have hcounted := hs.counts.counted slot hslot hne
    have hleft : leftRefs slot = {.value slot.val} := by
      rw [leftRefs, if_pos hneg, slotRefs, if_neg hne, refs, if_pos hcounted]
    simp [hleft, hneg]
  · simp [leftRefs, hneg]

end Destroy

/-- No reference was given back twice, and `JS_FreeRuntime` finds none that is left. -/
structure FreedOnce (s : Shim) : Prop where
  never : s.fault = false
  destroyed : (kmpjsDestroy s).fault = false
  none : (kmpjsDestroy s).owned = 0

theorem Balanced.freedOnce_iff (hs : Balanced base s 0) : FreedOnce s ↔ ¬ Wraps s.log := by
  obtain ⟨howned, hfault⟩ := kmpjsDestroy_owned hs
  rw [← leftRefs_sum_eq_zero hs, ← howned]
  exact ⟨fun h => h.none, fun h => ⟨hs.owns.fault, hfault, h⟩⟩

-- ---------------------------------------------------------------------------
-- kmpjs_compile
-- ---------------------------------------------------------------------------

theorem ownedText_hands : Hands (Balanced base) 0 ownedText fun _ => 0 := by
  refine (value_hands primitive_hands).seq fun s => ?_
  exact (copyString_hands s).pass fun _ => freeAny_hands s

theorem ownedException_hands : Hands (Balanced base) 0 ownedException fun _ => 0 := by
  refine getException_hands.seq fun exc => ownedText_hands.pass fun _ => ?_
  have hstack : Hands (Balanced base) 0 (ownedStack exc) fun _ => 0 :=
    .ite (fun _ => ownedText_hands) fun _ => .pure rfl
  exact hstack.pass fun _ => free_hands

theorem kmpjsCompile_hands : Hands (Balanced base) 0 kmpjsCompile fun _ => 0 := by
  refine (code_hands primitive_hands).seq fun obj => ?_
  cases obj with
  | none => exact ownedException_hands.seq fun _ => .pure rfl
  | some obj =>
    refine (status_hands primitive_hands).pass fun _ => free_hands.seq fun _ => ?_
    exact .ite (fun _ => .pure rfl) fun _ => ownedException_hands.seq fun _ => .pure rfl

theorem code_untouched : Keeps Untouched (code primitive) := by
  refine .bind untouched_composes primitive_untouched fun a => ?_
  cases a with
  | code c => exact .bind untouched_composes own_untouched fun _ => .pure untouched_composes _
  | threw exc => exact .bind untouched_composes pend_untouched fun _ => .pure untouched_composes _
  | _ => exact .fail

theorem ownedText_untouched : Keeps Untouched ownedText := by
  have hcopy (v : Option JSValue) : Keeps Untouched (copyString v) := by
    unfold copyString
    split
    · exact .bind untouched_composes status_untouched fun _ => .pure untouched_composes _
    · exact .pure untouched_composes _
  refine .bind untouched_composes value_untouched fun v => ?_
  exact .bind untouched_composes (hcopy v) fun _ => freeAny_untouched v

theorem ownedException_untouched : Keeps Untouched ownedException := by
  have hget : Keeps Untouched getException := by
    intro s es exc s' rest hrun
    cases hrun
    refine ⟨[], rfl, ?_⟩
    rw [own_eq]
    exact ⟨rfl, rfl⟩
  refine .bind untouched_composes hget fun exc => ?_
  refine .bind untouched_composes ownedText_untouched fun _ => ?_
  refine .bind untouched_composes
    (.ite ownedText_untouched (.pure untouched_composes _)) fun _ => ?_
  exact free_untouched

theorem kmpjsCompile_untouched : Keeps Untouched kmpjsCompile := by
  have hfail : Keeps Untouched (ownedException >>= fun _ => pure false : M Bool) :=
    .bind untouched_composes ownedException_untouched fun _ => .pure untouched_composes _
  refine .bind untouched_composes code_untouched fun obj => ?_
  cases obj with
  | none => exact hfail
  | some obj =>
    refine .bind untouched_composes status_untouched fun _ => ?_
    refine .bind untouched_composes free_untouched fun _ => ?_
    exact .ite (.pure untouched_composes _) hfail

/-- The runtime that is made for this one call is left empty. -/
theorem kmpjsCompile_owned (hrun : kmpjsCompile (Shim.blank callbacks) es = some (ok, s, rest)) :
    s.owned = 0 ∧ s.fault = false := by
  have hs := kmpjsCompile_hands.elim_zero hrun (blank_balanced callbacks)
  obtain ⟨used, -, huntouched⟩ := kmpjsCompile_untouched.elim hrun
  refine ⟨?_, hs.owns.fault⟩
  rw [hs.owned_of_untouched huntouched, hs.since.2]
  rfl

-- ---------------------------------------------------------------------------
-- Whole lives
-- ---------------------------------------------------------------------------

/-- An engine is left empty exactly if no ref was retained at `INT32_MAX`. One
that is not made, and the runtime of `kmpjs_compile`, are always left empty. -/
theorem values_freed_once (callbacks : Callbacks) :
    (∀ s, Reachable callbacks s → (FreedOnce s ↔ ¬ Wraps s.log)) ∧
    (∀ es s rest, kmpjsCreate (Shim.blank callbacks) es = some (false, s, rest) →
      s.owned = 0 ∧ s.fault = false) ∧
    (∀ es ok s rest, kmpjsCompile (Shim.blank callbacks) es = some (ok, s, rest) →
      s.owned = 0 ∧ s.fault = false) := by
  refine ⟨fun s hreach => ?_, fun es s rest hrun => ?_, fun es ok s rest hrun => ?_⟩
  · obtain ⟨ctor, hs⟩ := hreach.balanced
    exact hs.freedOnce_iff
  · exact kmpjsCreate_balanced hrun
  · exact kmpjsCompile_owned hrun

/-- An object was evaluated, and its ref is still out. -/
def withRef : Shim :=
  { fresh with
    slots := ⟨[⟨.object 7 .plain, 1, -1, 0⟩], 16, -1⟩
    owned := {.value (.object 7 .plain), .value bigintConstructor}
    log := [⟨.returned 0 0 1 false (.ref 1 ⟨false, false, false⟩), []⟩, ⟨.handed 1, []⟩] }

theorem withRef_reachable : Reachable everyCallback withRef :=
  reachable_of_exec [(.eval true, [.answer (.value (.object 7 .plain))])] (by decide +kernel)

theorem values_freed_once_withRef : Reachable everyCallback withRef ∧ FreedOnce withRef := by
  refine ⟨withRef_reachable, ((values_freed_once everyCallback).1 withRef withRef_reachable).mpr ?_⟩
  rintro ⟨ref, hmem⟩
  simp [notes, withRef] at hmem

theorem Reachable.retain (h : Reachable callbacks s) (hget : s.slots.slotGet ref = some slot) :
    ∃ s', Reachable callbacks s' ∧ s'.slots = s.slots.kmpjsRefRetain ref ∧
      .retained ref slot.refcount ∈ notes s'.log := by
  obtain ⟨es, s₀, hcreate, hreach⟩ := h
  have hstep : step s (.refRetain ref, []) = some ((s.refRetain ref).note
      (.returned s.log.length s.liveRefs (s.refRetain ref).liveRefs false .undefined)) := rfl
  refine ⟨_, ⟨es, s₀, hcreate, hreach.tail trivial hstep⟩, ?_⟩
  simp [Shim.refRetain, hget, Shim.note, notes]

/-- By induction on the retains, as long as the count fits. -/
theorem Reachable.retain_many (h : Reachable callbacks s) (hget : s.slots.slotGet ref = some slot)
    (hone : slot.refcount = 1) (n : ℕ) (hn : n + 1 < 2 ^ 31) :
    ∃ s' slot', Reachable callbacks s' ∧ s'.slots.slotGet ref = some slot' ∧
      slot'.refcount.toInt = n + 1 := by
  induction n with
  | zero => exact ⟨s, slot, h, hget, by rw [hone]; rfl⟩
  | succ n ih =>
    obtain ⟨s₁, slot₁, h₁, hget₁, hcount₁⟩ := ih (by omega)
    obtain ⟨s₂, h₂, hslots, -⟩ := h₁.retain hget₁
    obtain ⟨ctor, hs₁⟩ := h₁.balanced
    obtain ⟨chain, hinv⟩ := hs₁.counts.inv
    have hroom : slot₁.refcount.toInt + 1 < 2 ^ 31 := by omega
    have hcurrent := SlotTable.retain_current hinv hget₁
    rw [if_pos hroom, ← hslots] at hcurrent
    refine ⟨s₂, _, h₂, hcurrent, ?_⟩
    show (slot₁.refcount + 1).toInt = _
    rw [SlotTable.toInt_succ (by omega), if_pos hroom]
    omega

/-- The count of the one open ref is brought to `INT32_MAX`, and then past it. -/
theorem retained_value_leaks :
    ∃ s, Reachable everyCallback s ∧ (kmpjsDestroy s).owned ≠ 0 := by
  have hget : withRef.slots.slotGet 1 = some ⟨.object 7 .plain, 1, -1, 0⟩ := by decide +kernel
  obtain ⟨s₁, slot, h₁, hslot, hcount⟩ :=
    withRef_reachable.retain_many hget rfl (2 ^ 31 - 2) (by omega)
  have hmax : slot.refcount = BitVec.intMax 32 := by
    apply BitVec.eq_of_toInt_eq
    rw [hcount]
    rfl
  obtain ⟨s, hs, -, hnote⟩ := h₁.retain hslot
  refine ⟨s, hs, fun hempty => ?_⟩
  obtain ⟨ctor, hbalanced⟩ := hs.balanced
  have hfreed : FreedOnce s := ⟨hbalanced.owns.fault, (kmpjsDestroy_owned hbalanced).2, hempty⟩
  exact hbalanced.freedOnce_iff.mp hfreed ⟨1, hmax ▸ hnote⟩

end QuickJsKmp.Ledger
