import QuickJsKmp.Counts
import QuickJsKmp.Lib.Machine

/-!
# Slots are recycled

The table grows only when every slot is in use, so it never has more slots than
were in use at once. That holds whatever `realloc` answers; what it takes is that
no count runs over `INT32_MAX`, since a slot with a negative count is neither in use
nor on the free chain.
-/

namespace QuickJsKmp

namespace SlotTable

def live (t : SlotTable) : ℕ := t.slots.countP fun s => 0 < s.refcount.toInt

end SlotTable

namespace Recycling

open SlotTable (Op Inv)

/-- The table, and the most slots that were in use at once so far. -/
structure Watched where
  table : SlotTable
  peak : ℕ
  deriving DecidableEq, Repr

def init : Watched := ⟨.empty, 0⟩

def Watched.step (w : Watched) (op : Op) : Option Watched :=
  some ⟨w.table.apply op, max w.peak (w.table.apply op).live⟩

/-- The count that a retain raises is below `INT32_MAX`. -/
def Careful (w : Watched) : Op → Prop
  | .retain ref => w.table.hasRoom ref
  | _ => True

instance (w : Watched) (op : Op) : Decidable (Careful w op) :=
  match op with
  | .new _ _ => .isTrue trivial
  | .retain ref => inferInstanceAs (Decidable (w.table.hasRoom ref = true))
  | .release _ => .isTrue trivial

/-- The free chain has exactly the slots that are not in use, each of them once, and
there are as many slots as were ever in use together. -/
structure Recycled (w : Watched) : Prop where
  chain : ∃ free, SlotTable.Chain w.table.slots w.table.freeHead free ∧ free.Nodup ∧
    ∀ (i : ℕ) (s : Slot), w.table.slots[i]? = some s → (i ∈ free ↔ s.refcount = 0) ∧
      (i ∉ free → 0 < s.refcount.toInt ∧ s.nextFree = -1)
  peak : w.table.slots.length = w.peak
  stays : ∀ op : Op, (∃ s ∈ w.table.slots, s.refcount = 0) →
    (w.table.apply op).slots.length = w.table.slots.length

-- ---------------------------------------------------------------------------
-- The slots in use
-- ---------------------------------------------------------------------------

/-- What is kept of a slot: it is free, or in use and off the chain. -/
def Kept (s : Slot) : Prop := s.refcount ≠ 0 → 0 < s.refcount.toInt ∧ s.nextFree = -1

inductive Changed (t t' : SlotTable) : Prop
  | same (hslots : t'.slots = t.slots)
  | set (i : ℕ) (s s' : Slot) (hs : t.slots[i]? = some s) (hs' : Kept s')
      (hslots : t'.slots = t.slots.set i s')
  | grown (s : Slot) (hs : Kept s) (hlive : s.refcount ≠ 0) (hfull : t.freeHead < 0)
      (hslots : t'.slots = t.slots ++ [s])

variable {t t' : SlotTable} {free : List ℕ} {w w' : Watched} {op : Op}

theorem fresh_kept (v : JSValue) (g : BitVec 32) : Kept (SlotTable.fresh v g) :=
  fun _ => ⟨by simp [SlotTable.fresh], rfl⟩

theorem new_changed (t : SlotTable) (v : JSValue) (grow : Bool) :
    Changed t (t.slotNew v grow).1 := by
  rcases t.slotNew_cases v grow with he | ⟨i, s, -, hs, he⟩ | ⟨cap, hfull, -, he⟩
  · exact .same (by rw [he])
  · exact .set i s _ hs (fresh_kept v s.gen) (by rw [he])
  · exact .grown _ (fresh_kept v 0) (by simp [SlotTable.fresh]) hfull (by rw [he])

theorem retain_changed (hkept : ∀ s ∈ t.slots, Kept s) (hroom : t.hasRoom ref) :
    Changed t (t.kmpjsRefRetain ref) := by
  cases hget : t.slotGet ref with
  | none => exact .same (by simp [SlotTable.kmpjsRefRetain, hget])
  | some s =>
    obtain ⟨-, hs, hr, -⟩ := SlotTable.slotGet_eq_some hget
    have hnext := hkept s (List.mem_of_getElem? hs) (SlotTable.toInt_pos_ne_zero hr)
    refine .set _ s { s with refcount := s.refcount + 1 } hs (fun _ => ⟨?_, hnext.2⟩)
      (congrArg SlotTable.slots (SlotTable.kmpjsRefRetain_of_some hget))
    have hlt : s.refcount.toInt + 1 < 2 ^ 31 := by
      simpa [SlotTable.hasRoom, SlotTable.count_of_slotGet hget] using hroom
    show 0 < (s.refcount + 1).toInt
    rw [SlotTable.toInt_succ hr, if_pos hlt]
    omega

theorem release_changed (hkept : ∀ s ∈ t.slots, Kept s) (ref : Handle) :
    Changed t (t.kmpjsRefRelease ref) := by
  cases hget : t.slotGet ref with
  | none => exact .same (by simp [SlotTable.kmpjsRefRelease, hget])
  | some s =>
    obtain ⟨-, hs, hr, -⟩ := SlotTable.slotGet_eq_some hget
    have hnext := hkept s (List.mem_of_getElem? hs) (SlotTable.toInt_pos_ne_zero hr)
    by_cases hone : s.refcount = 1
    · exact .set _ s _ hs (fun hne => absurd rfl hne)
        (congrArg SlotTable.slots (SlotTable.kmpjsRefRelease_of_last hget hone))
    · refine .set _ s { s with refcount := s.refcount - 1 } hs (fun hne => ⟨?_, hnext.2⟩)
        (congrArg SlotTable.slots (SlotTable.kmpjsRefRelease_of_more hget hone))
      have hne : (s.refcount - 1).toInt ≠ 0 :=
        fun he => hne (BitVec.eq_of_toInt_eq (he.trans BitVec.toInt_zero.symm))
      have hpred := SlotTable.toInt_pred hr
      show 0 < (s.refcount - 1).toInt
      omega

theorem apply_changed (hkept : ∀ s ∈ w.table.slots, Kept s) (h : Careful w op) :
    Changed w.table (w.table.apply op) := by
  cases op with
  | new v grow => exact new_changed w.table v grow
  | retain ref => exact retain_changed hkept h
  | release ref => exact release_changed hkept ref

theorem Changed.kept (h : Changed t t') (hkept : ∀ s ∈ t.slots, Kept s) :
    ∀ s ∈ t'.slots, Kept s := by
  intro u hu
  cases h with
  | same hslots => exact hkept u (hslots ▸ hu)
  | set i s s' hs hs' hslots =>
    rcases List.mem_or_eq_of_mem_set (hslots ▸ hu) with hu | rfl
    · exact hkept u hu
    · exact hs'
  | grown s hs hlive hfull hslots =>
    rcases List.mem_append.mp (hslots ▸ hu) with hu | hu
    · exact hkept u hu
    · exact List.mem_singleton.mp hu ▸ hs

-- ---------------------------------------------------------------------------
-- The peak
-- ---------------------------------------------------------------------------

theorem live_le (t : SlotTable) : t.live ≤ t.slots.length := List.countP_le_length

theorem head_of_free (hinv : Inv t free) (hfree : ∃ s ∈ t.slots, s.refcount = 0) :
    0 ≤ t.freeHead := by
  obtain ⟨u, hu, hzero⟩ := hfree
  obtain ⟨i, hi⟩ := List.getElem?_of_mem hu
  have hmem := (hinv.zero i u hi).mpr hzero
  cases free with
  | nil => cases hmem
  | cons j free =>
    obtain ⟨hhead, -⟩ := hinv.chain
    omega

theorem live_of_full (hinv : Inv t free) (hkept : ∀ s ∈ t.slots, Kept s)
    (hfull : t.freeHead < 0) : t.live = t.slots.length := by
  refine List.countP_eq_length.mpr fun s hs => ?_
  have hne : s.refcount ≠ 0 := by
    intro hzero
    have hhead := head_of_free hinv ⟨s, hs, hzero⟩
    omega
  simpa using (hkept s hs hne).1

/-- The peak never passes the number of slots, and a slot that is added raises it. -/
theorem Changed.peak (h : Changed t t') (hinv : Inv t free) (hkept : ∀ s ∈ t.slots, Kept s)
    (hpeak : t.slots.length = n) : t'.slots.length = max n t'.live := by
  have hle := live_le t'
  cases h with
  | same hslots =>
    rw [hslots] at hle ⊢
    omega
  | set i s s' hs hs' hslots =>
    have hlen : t'.slots.length = t.slots.length := by rw [hslots, List.length_set]
    omega
  | grown s hs hlive hfull hslots =>
    have hlen : t'.slots.length = t.slots.length + 1 := by simp [hslots]
    have hnow : t'.live = t.live + 1 := by
      simpa [SlotTable.live, hslots] using (hs hlive).1
    have hall := live_of_full hinv hkept hfull
    omega

theorem apply_stays (hinv : Inv t free) (hfree : ∃ s ∈ t.slots, s.refcount = 0) (op : Op) :
    (t.apply op).slots.length = t.slots.length := by
  have hhead := head_of_free hinv hfree
  cases op with
  | new v grow =>
    simp only [SlotTable.apply]
    rcases t.slotNew_cases v grow with he | ⟨i, s, -, hs, he⟩ | ⟨cap, hfull, -, he⟩
    · rw [he]
    · rw [he, List.length_set]
    · omega
  | retain ref =>
    rcases (SlotTable.apply_handle_cases (.inl rfl) : t.apply (.retain ref) = t ∨ _) with
      he | ⟨s, u, -, he⟩
    · rw [he]
    · rw [he, List.length_set]
  | release ref =>
    rcases (SlotTable.apply_handle_cases (.inr rfl) : t.apply (.release ref) = t ∨ _) with
      he | ⟨s, u, -, he⟩
    · rw [he]
    · rw [he, List.length_set]

-- ---------------------------------------------------------------------------
-- Runs
-- ---------------------------------------------------------------------------

structure Books (w : Watched) : Prop where
  inv : ∃ free, Inv w.table free
  kept : ∀ s ∈ w.table.slots, Kept s
  peak : w.table.slots.length = w.peak

theorem init_books : Books init := ⟨⟨[], SlotTable.inv_empty⟩, by simp [init, SlotTable.empty], rfl⟩

theorem step_books (h : Books w) (hcareful : Careful w op) (hstep : w.step op = some w') :
    Books w' := by
  obtain rfl := Option.some.inj hstep
  obtain ⟨free, hinv⟩ := h.inv
  obtain ⟨free', hinv', -⟩ := SlotTable.apply_spec hinv op
  have hchanged := apply_changed h.kept hcareful
  exact ⟨⟨free', hinv'⟩, hchanged.kept h.kept, hchanged.peak hinv h.kept h.peak⟩

theorem Books.recycled (h : Books w) : Recycled w := by
  obtain ⟨free, hinv⟩ := h.inv
  refine ⟨⟨free, hinv.chain, hinv.nodup, fun i s hs => ⟨hinv.zero i s hs, fun hi => ?_⟩⟩, h.peak,
    fun op hfree => apply_stays hinv hfree op⟩
  exact h.kept s (List.mem_of_getElem? hs) fun hzero => hi ((hinv.zero i s hs).mpr hzero)

/-- A count that runs over leaves a slot that is neither free nor in use. -/
theorem careful_of_recycled (hstep : w.step op = some w') (hrec : Recycled w') :
    Careful w op := by
  obtain rfl := Option.some.inj hstep
  cases op with
  | new v grow => trivial
  | release ref => trivial
  | retain ref =>
    by_contra hroom
    have hfull : ¬ w.table.count ref + 1 < 2 ^ 31 := by
      simpa [Careful, SlotTable.hasRoom] using hroom
    have hcount : 0 < w.table.count ref := by omega
    obtain ⟨s, hget⟩ := SlotTable.slotGet_of_count hcount
    rw [SlotTable.count_of_slotGet hget] at hfull
    obtain ⟨-, hs, hr, -⟩ := SlotTable.slotGet_eq_some hget
    have hlt := (List.getElem?_eq_some_iff.mp hs).1
    have hsucc := SlotTable.toInt_succ hr
    rw [if_neg hfull] at hsucc
    have hhere : (w.table.kmpjsRefRetain ref).slots[(SlotTable.slotIndex ref).toNat]? =
        some { s with refcount := s.refcount + 1 } := by
      rw [SlotTable.kmpjsRefRetain_of_some hget]
      exact List.getElem?_set_self hlt
    obtain ⟨free, -, -, hall⟩ := hrec.chain
    obtain ⟨hzero, hheld⟩ := hall _ _ hhere
    have hoff : (SlotTable.slotIndex ref).toNat ∉ free :=
      fun hmem => SlotTable.succ_ne_zero_of_pos hr (hzero.mp hmem)
    have hpos : 0 < (s.refcount + 1).toInt := (hheld hoff).1
    omega

/-- Whatever is allocated, retained and released, with current handles or stale ones, as
long as no count runs over; and a step on from there keeps it up exactly if it does not. -/
theorem slots_recycled (h : Machine.Reaches Watched.step Careful init w) :
    Recycled w ∧ ∀ op w', w.step op = some w' → (Recycled w' ↔ Careful w op) := by
  have hbooks : Books w := h.invariant init_books step_books
  refine ⟨hbooks.recycled, fun op w' hstep => ⟨careful_of_recycled hstep, fun hcareful => ?_⟩⟩
  exact (step_books hbooks hcareful hstep).recycled

/-- Two slots are taken and one of them is released twice. -/
def released : Watched :=
  ⟨⟨[⟨.undefined, 0, -1, 1⟩, ⟨.null, 1, -1, 0⟩], 16, 0⟩, 2⟩

theorem slots_recycled_released :
    Recycled released ∧
      ∀ op w', released.step op = some w' → (Recycled w' ↔ Careful released op) := by
  refine slots_recycled (Machine.reaches_of_exec
    (l := [.new (.bool true) true, .new .null true, .release 1, .release 1]) ?_)
  decide +kernel

/-- `realloc` gives what is asked for. -/
def Served (_ : Watched) : Op → Prop
  | .new _ grow => grow
  | _ => True

/-- One slot, retained until its count is this. -/
def retained (count : BitVec 32) : Watched := ⟨⟨[⟨.null, count, -1, 0⟩], 16, -1⟩, 1⟩

theorem retained_step (h : 0 < c.toInt) :
    (retained c).step (.retain 1) = some (retained (c + 1)) := by
  have hlive (count : BitVec 32) : (retained count).table.live ≤ 1 := live_le _
  have hget : (retained c).table.slotGet 1 = some ⟨.null, c, -1, 0⟩ := by
    simp [SlotTable.slotGet, SlotTable.slotIndex, SlotTable.slotGen, retained, h]
  have htable : (retained c).table.apply (.retain 1) = (retained (c + 1)).table :=
    SlotTable.kmpjsRefRetain_of_some hget
  simp only [Watched.step, htable]
  exact congrArg (fun n => some (Watched.mk (retained (c + 1)).table n)) (Nat.max_eq_left (hlive _))

theorem retained_reached (n : ℕ) (h : n < 2 ^ 31) (hpos : 0 < n) :
    Machine.Reaches Watched.step Served init (retained (.ofNat 32 n)) := by
  induction n with
  | zero => cases hpos
  | succ n ih =>
    by_cases hzero : n = 0
    · subst hzero
      have hserved : Served init (.new .null true) := rfl
      exact (Machine.Reaches.refl init).tail hserved rfl
    · have hcount : 0 < (BitVec.ofNat 32 n).toInt := by
        rw [BitVec.toInt_eq_toNat_cond, BitVec.toNat_ofNat]
        split <;> omega
      have hstep := retained_step hcount
      have hserved : Served (retained (.ofNat 32 n)) (.retain 1) := trivial
      rw [show BitVec.ofNat 32 n + 1 = .ofNat 32 (n + 1) from (BitVec.ofNat_add ..).symm] at hstep
      exact (ih (by omega) (by omega)).tail hserved hstep

/-- A count that is raised to `2 ^ 31` is negative. -/
theorem overrun_slot_lost :
    ¬ ∀ w, Machine.Reaches Watched.step Served init w →
      (∀ s ∈ w.table.slots, s.gen.toNat < 2 ^ 31) → Recycled w := by
  intro h
  have hserved : Served (retained (.ofNat 32 (2 ^ 31 - 1))) (.retain 1) := trivial
  have hreached := (retained_reached (2 ^ 31 - 1) (by decide) (by decide)).tail hserved
    (retained_step (by decide))
  have hrec := h _ hreached (by simp [retained])
  obtain ⟨free, -, -, hall⟩ := hrec.chain
  obtain ⟨hzero, hheld⟩ := hall 0 _ rfl
  have hpos := (hheld fun hmem => absurd (hzero.mp hmem) (by decide)).1
  exact absurd hpos (by decide)

end Recycling

end QuickJsKmp
