import Mathlib.Algebra.Order.BigOperators.Group.List
import Mathlib.Algebra.Order.Group.Nat
import QuickJsKmp.Counts
import QuickJsKmp.Lib.Machine
import QuickJsKmp.Lib.Parties

/-!
# `JsRef` objects and slots

The Kotlin side of a ref is an object with two flags: `closed`, and `transient` for the
arguments of a host function, which the shim releases when the call is over. A
step is a call of `JsRef`, a result that becomes a ref, or a piece of `js_kmp_host`;
script runs between any two, and host calls nest.
-/

namespace QuickJsKmp.Handles

open SlotTable (Changes)
open Lookups (getElem?_set_cases getElem?_append_cases getElem?_append_old getElem?_set_here)

/-- `JsRef`. -/
structure Ref where
  handle : Handle
  closed : Bool
  transient : Bool
  deriving DecidableEq, Repr

/-- Where a call of `js_kmp_host` is: before the host function, in it, or after it. -/
inductive Stage
  | converting
  | invoked
  | returned
  deriving DecidableEq, Repr

/-- A call of `js_kmp_host`: the refs among its converted arguments, and the objects that
`onHostCall` made of them. -/
structure HostCall where
  stage : Stage
  args : List Handle
  objects : List ℕ
  deriving DecidableEq, Repr

/-- The table, every `JsRef` that was ever made, and the host calls in flight. -/
structure Holding where
  table : SlotTable
  refs : List Ref
  calls : List HostCall
  deriving DecidableEq, Repr

inductive Act
  | handOut (v : JSValue) (grow : Bool)
  /-- A result becomes a ref, and then `finish` fails in its second drain. -/
  | loseResult (v : JSValue) (grow : Bool)
  | retain (i : ℕ)
  | close (i : ℕ)
  | beginCall
  | convert (v : JSValue) (grow : Bool)
  | invoke
  | complete
  | endCall
  deriving DecidableEq, Repr

/-- `JsRef.close`. -/
def Holding.closeRef (s : Holding) (i : ℕ) : Holding :=
  match s.refs[i]? with
  | some r =>
    if r.closed then s
    else
      { s with
        table := if r.transient then s.table else s.table.kmpjsRefRelease r.handle
        refs := s.refs.set i { r with closed := true } }
  | none => s

def Holding.step (s : Holding) : Act → Option Holding
  | .handOut v grow =>
    let (table, ref) := s.table.slotNew v grow
    some { s with table, refs := if ref = 0 then s.refs else s.refs ++ [⟨ref, false, false⟩] }
  | .loseResult v grow =>
    let (table, ref) := s.table.slotNew v grow
    if ref = 0 then none else some { s with table }
  | .retain i =>
    match s.refs[i]? with
    | some r =>
      if r.closed then none
      else some { s with table := s.table.kmpjsRefRetain r.handle
                         refs := s.refs ++ [⟨r.handle, false, false⟩] }
    | none => none
  | .close i => some (s.closeRef i)
  | .beginCall => some { s with calls := ⟨.converting, [], []⟩ :: s.calls }
  | .convert v grow =>
    match s.calls with
    | c :: calls =>
      if c.stage = .converting then
        let (table, ref) := s.table.slotNew v grow
        -- the conversion failed, and the host is not called
        let c := if ref = 0 then { c with stage := .returned } else { c with args := c.args ++ [ref] }
        some { s with table, calls := c :: calls }
      else none
    | [] => none
  | .invoke =>
    match s.calls with
    | c :: calls =>
      if c.stage = .converting then
        some { s with
          refs := s.refs ++ c.args.map fun ref => ⟨ref, false, true⟩
          calls := ⟨.invoked, c.args, List.range' s.refs.length c.args.length⟩ :: calls }
      else none
    | [] => none
  | .complete =>
    match s.calls with
    | c :: calls =>
      if c.stage = .invoked then
        some { c.objects.foldl Holding.closeRef s with calls := { c with stage := .returned } :: calls }
      else none
    | [] => none
  | .endCall =>
    match s.calls with
    | c :: calls =>
      if c.stage = .invoked then none
      else some { s with table := c.args.foldl SlotTable.kmpjsRefRelease s.table, calls }
    | [] => none

def init : Holding := ⟨.empty, [], []⟩

/-- What a step does, and when there is one. -/
inductive Holding.Stepped (s : Holding) : Act → Holding → Prop
  | handOut (v : JSValue) (grow : Bool) :
    Stepped s (.handOut v grow) { s with
      table := (s.table.slotNew v grow).1
      refs := if (s.table.slotNew v grow).2 = 0 then s.refs
        else s.refs ++ [⟨(s.table.slotNew v grow).2, false, false⟩] }
  | loseResult (v : JSValue) (grow : Bool) (made : (s.table.slotNew v grow).2 ≠ 0) :
    Stepped s (.loseResult v grow) { s with table := (s.table.slotNew v grow).1 }
  | retain {i : ℕ} {r : Ref} (here : s.refs[i]? = some r) (unclosed : ¬ r.closed) :
    Stepped s (.retain i) { s with
      table := s.table.kmpjsRefRetain r.handle
      refs := s.refs ++ [⟨r.handle, false, false⟩] }
  | close (i : ℕ) : Stepped s (.close i) (s.closeRef i)
  | beginCall : Stepped s .beginCall { s with calls := ⟨.converting, [], []⟩ :: s.calls }
  | convert {c : HostCall} {calls : List HostCall} (v : JSValue) (grow : Bool)
    (top : s.calls = c :: calls) (stage : c.stage = .converting) :
    Stepped s (.convert v grow) { s with
      table := (s.table.slotNew v grow).1
      calls := (if (s.table.slotNew v grow).2 = 0 then { c with stage := .returned }
        else { c with args := c.args ++ [(s.table.slotNew v grow).2] }) :: calls }
  | invoke {c : HostCall} {calls : List HostCall} (top : s.calls = c :: calls)
    (stage : c.stage = .converting) :
    Stepped s .invoke { s with
      refs := s.refs ++ c.args.map fun ref => ⟨ref, false, true⟩
      calls := ⟨.invoked, c.args, List.range' s.refs.length c.args.length⟩ :: calls }
  | complete {c : HostCall} {calls : List HostCall} (top : s.calls = c :: calls)
    (stage : c.stage = .invoked) :
    Stepped s .complete
      { c.objects.foldl Holding.closeRef s with calls := { c with stage := .returned } :: calls }
  | endCall {c : HostCall} {calls : List HostCall} (top : s.calls = c :: calls)
    (stage : c.stage ≠ .invoked) :
    Stepped s .endCall { s with table := c.args.foldl SlotTable.kmpjsRefRelease s.table, calls }

theorem Holding.step_cases {s s' : Holding} {a : Act} (h : s.step a = some s') :
    s.Stepped a s' := by
  cases a with
  | handOut v grow => exact Option.some.inj h ▸ .handOut v grow
  | close i => exact Option.some.inj h ▸ .close i
  | beginCall => exact Option.some.inj h ▸ .beginCall
  | loseResult v grow =>
    obtain ⟨hmade, heq⟩ := Option.ite_none_left_eq_some.mp h
    exact Option.some.inj heq ▸ .loseResult v grow hmade
  | retain i =>
    simp only [Holding.step] at h
    split at h
    · rename_i r hi
      obtain ⟨hopen, heq⟩ := Option.ite_none_left_eq_some.mp h
      exact Option.some.inj heq ▸ .retain hi hopen
    · cases h
  | convert v grow =>
    simp only [Holding.step] at h
    split at h
    · rename_i c calls hcalls
      obtain ⟨hstage, heq⟩ := Option.ite_none_right_eq_some.mp h
      exact Option.some.inj heq ▸ .convert v grow hcalls hstage
    · cases h
  | invoke =>
    simp only [Holding.step] at h
    split at h
    · rename_i c calls hcalls
      obtain ⟨hstage, heq⟩ := Option.ite_none_right_eq_some.mp h
      exact Option.some.inj heq ▸ .invoke hcalls hstage
    · cases h
  | complete =>
    simp only [Holding.step] at h
    split at h
    · rename_i c calls hcalls
      obtain ⟨hstage, heq⟩ := Option.ite_none_right_eq_some.mp h
      exact Option.some.inj heq ▸ .complete hcalls hstage
    · cases h
  | endCall =>
    simp only [Holding.step] at h
    split at h
    · rename_i c calls hcalls
      obtain ⟨hstage, heq⟩ := Option.ite_none_left_eq_some.mp h
      exact Option.some.inj heq ▸ .endCall hcalls hstage
    · cases h

/-- An open ref that the host owns. -/
def Ref.holds (ref : Handle) (r : Ref) : Bool := !r.closed && !r.transient && r.handle = ref

/-- The open refs with this handle that are not transient, and the arguments of host calls in
flight, position by position. -/
def Holding.holders (s : Holding) (ref : Handle) : ℕ :=
  s.refs.countP (Ref.holds ref) + (s.calls.map fun c => c.args.count ref).sum

/-- The steps that keep the books: no result is lost, no count runs over `INT32_MAX`, and no
slot is taken whose generation does not fit into a handle. -/
def Careful (s : Holding) : Act → Prop
  | .handOut _ _ | .convert _ _ => s.table.nextFits
  | .loseResult _ _ => False
  | .retain i => (s.refs[i]?).all fun r => s.table.hasRoom r.handle
  | _ => True

instance (s : Holding) (a : Act) : Decidable (Careful s a) := by
  cases a <;> unfold Careful <;> infer_instance

-- ---------------------------------------------------------------------------
-- The invariant
-- ---------------------------------------------------------------------------

structure Agree (s : Holding) : Prop where
  inv : ∃ free, s.table.Inv free
  sound : s.table.Sound
  count : ∀ ref, s.table.count ref = s.holders ref
  /-- The objects of a host call are transient. -/
  objects : ∀ c ∈ s.calls, ∀ i ∈ c.objects, ∃ r, s.refs[i]? = some r ∧ r.transient
  /-- An open transient ref is an argument of a host function that runs. -/
  borrowed : ∀ (i : ℕ) (r : Ref), s.refs[i]? = some r → r.transient → r.closed = false →
    ∃ c ∈ s.calls, c.stage = .invoked ∧ i ∈ c.objects ∧ r.handle ∈ c.args

variable {s s' : Holding} {ref : Handle} {r : Ref} {i : ℕ}

theorem init_agree : Agree init where
  inv := ⟨[], SlotTable.inv_empty⟩
  sound := by simp [SlotTable.Sound, init, SlotTable.empty]
  count := fun ref => by
    rw [SlotTable.count_eq (t := init.table) SlotTable.inv_empty]
    simp [Holding.holders, init, SlotTable.slotAt, SlotTable.empty, SlotTable.tally]
  objects := by simp [init]
  borrowed := by simp [init]

/-- The table and the holders change by the same. -/
theorem Agree.counts (h : Agree s) (hc : Changes s.table s'.table ref d)
    (hself : (s'.holders ref : ℤ) = s.holders ref + d)
    (hothers : ∀ r, r ≠ ref → s'.holders r = s.holders r) (r : Handle) :
    s'.table.count r = s'.holders r := by
  by_cases hr : r = ref
  · rw [hr, hc.here, hself, h.count]
  · rw [hc.others r hr, hothers r hr, h.count]

theorem Agree.live (h : Agree s) (hpos : 0 < s.holders ref) :
    ∃ slot, s.table.slotGet ref = some slot :=
  SlotTable.slotGet_of_count (by rw [h.count]; exact_mod_cast hpos)

theorem holders_of_arg (hc : c ∈ s.calls) (hr : ref ∈ c.args) : 0 < s.holders ref := by
  have hcount : 0 < c.args.count ref := List.count_pos_iff.mpr hr
  have hle : c.args.count ref ≤ (s.calls.map fun c => c.args.count ref).sum :=
    List.single_le_sum (by simp) _ (List.mem_map.mpr ⟨c, hc, rfl⟩)
  unfold Holding.holders
  omega

/-- Whoever can use a ref finds its slot. -/
theorem Agree.open_live (h : Agree s) (hi : s.refs[i]? = some r) (hopen : r.closed = false) :
    ∃ slot, s.table.slotGet r.handle = some slot := by
  refine h.live ?_
  cases htransient : r.transient with
  | true =>
    obtain ⟨c, hc, -, -, harg⟩ := h.borrowed i r hi htransient hopen
    exact holders_of_arg hc harg
  | false =>
    have hpos : 0 < s.refs.countP (Ref.holds r.handle) :=
      Parties.countP_pos _ hi (by simp [Ref.holds, hopen, htransient])
    unfold Holding.holders
    omega

-- ---------------------------------------------------------------------------
-- Every step keeps it
-- ---------------------------------------------------------------------------

/-- A new ref that the host owns. -/
theorem holders_append (refs : List Ref) (calls : List HostCall) (table table' : SlotTable)
    (ref r : Handle) :
    (Holding.mk table' (refs ++ [⟨ref, false, false⟩]) calls).holders r =
      (Holding.mk table refs calls).holders r + if r = ref then 1 else 0 := by
  simp only [Holding.holders, List.countP_append, List.countP_singleton, Ref.holds]
  by_cases hr : r = ref
  · simp [hr, Nat.add_right_comm]
  · simp [hr, Ne.symm hr]

/-- The refs grow by one that is not transient, and the calls stay. -/
theorem Agree.append (h : Agree s) (hc : Changes s.table t ref 1) :
    Agree ⟨t, s.refs ++ [⟨ref, false, false⟩], s.calls⟩ where
  inv := hc.inv
  sound := hc.sound
  count := by
    refine h.counts hc ?_ fun r hr => ?_
    · simp [holders_append s.refs s.calls s.table]
    · simp [holders_append s.refs s.calls s.table, hr]
  objects := by
    intro c hcall i hi
    obtain ⟨r, hr, htransient⟩ := h.objects c hcall i hi
    exact ⟨r, getElem?_append_old hr, htransient⟩
  borrowed := by
    intro i r hi htransient hopen
    rcases getElem?_append_cases hi with hi | ⟨-, rfl⟩
    · exact h.borrowed i r hi htransient hopen
    · cases htransient

/-- The same, for the refs that are no one's. -/
theorem Agree.handOut (h : Agree s) (hfits : s.table.nextFits) :
    Agree { s with
      table := (s.table.slotNew v grow).1
      refs := if (s.table.slotNew v grow).2 = 0 then s.refs
        else s.refs ++ [⟨(s.table.slotNew v grow).2, false, false⟩] } := by
  obtain ⟨free, hinv⟩ := h.inv
  by_cases hzero : (s.table.slotNew v grow).2 = 0
  · rw [if_pos hzero, SlotTable.slotNew_failed hinv hfits hzero]
    exact h
  · rw [if_neg hzero]
    exact h.append (SlotTable.new_changes hinv h.sound v grow hfits hzero)

theorem Agree.retain (h : Agree s) (hi : s.refs[i]? = some r) (hopen : r.closed = false)
    (hroom : s.table.hasRoom r.handle) :
    Agree ⟨s.table.kmpjsRefRetain r.handle, s.refs ++ [⟨r.handle, false, false⟩], s.calls⟩ := by
  obtain ⟨free, hinv⟩ := h.inv
  obtain ⟨slot, hget⟩ := h.open_live hi hopen
  exact h.append (SlotTable.retain_changes hinv h.sound hget hroom)

/-- A ref is closed; the count of its handle goes down if the ref was a holder. -/
theorem Agree.closed (h : Agree s) (hi : s.refs[i]? = some r) (hinv : ∃ free, t.Inv free)
    (hsound : t.Sound) (hcount : ∀ p, t.count p = s.table.count p - if Ref.holds p r then 1 else 0) :
    Agree ⟨t, s.refs.set i { r with closed := true }, s.calls⟩ where
  inv := hinv
  sound := hsound
  count := by
    intro p
    have hmove := Parties.countP_move (Ref.holds p) hi { r with closed := true }
    rw [show Ref.holds p { r with closed := true } = false by simp [Ref.holds]] at hmove
    simp only [Bool.false_eq_true, if_false, Nat.add_zero] at hmove
    rw [hcount, h.count]
    simp only [Holding.holders, ← hmove]
    split <;> push_cast <;> omega
  objects := by
    intro c hc j hj
    obtain ⟨q, hq, htransient⟩ := h.objects c hc j hj
    by_cases hij : i = j
    · subst hij
      obtain rfl : r = q := Option.some.inj (hi.symm.trans hq)
      exact ⟨_, getElem?_set_here hi _, htransient⟩
    · exact ⟨q, by rw [List.getElem?_set_ne hij, hq], htransient⟩
  borrowed := by
    intro j q hq htransient hopen
    rcases getElem?_set_cases hq with ⟨-, rfl⟩ | ⟨-, hq⟩
    · cases hopen
    · exact h.borrowed j q hq htransient hopen

theorem Agree.closeRef (h : Agree s) (i : ℕ) : Agree (s.closeRef i) := by
  unfold Holding.closeRef
  split
  · rename_i r hi
    split
    · exact h
    · rename_i hclosed
      by_cases htransient : r.transient
      · rw [if_pos htransient]
        exact h.closed hi h.inv h.sound fun p => by simp [Ref.holds, htransient]
      · obtain ⟨free, hinv⟩ := h.inv
        obtain ⟨slot, hget⟩ := h.open_live hi (by simpa using hclosed)
        have hc := SlotTable.release_changes hinv h.sound hget
        rw [if_neg htransient]
        refine h.closed hi hc.inv hc.sound fun p => ?_
        by_cases hp : p = r.handle
        · subst hp
          rw [hc.here]
          simp [Ref.holds, hclosed, htransient, sub_eq_add_neg]
        · rw [hc.others p hp]
          simp [Ref.holds, Ne.symm hp]
  · exact h

theorem closeRef_calls (s : Holding) (i : ℕ) : (s.closeRef i).calls = s.calls := by
  unfold Holding.closeRef
  split
  · split <;> rfl
  · rfl

/-- A closed ref stays closed, and keeps its handle. -/
theorem closeRef_stays (s : Holding) (i : ℕ) (hj : s.refs[j]? = some q) :
    ∃ q', (s.closeRef i).refs[j]? = some q' ∧ q'.handle = q.handle ∧ q'.transient = q.transient ∧
      (q.closed ∨ j = i → q'.closed) := by
  unfold Holding.closeRef
  split
  · rename_i r hi
    split
    · rename_i hclosed
      refine ⟨q, hj, rfl, rfl, ?_⟩
      rintro (hq | rfl)
      · exact hq
      · exact (Option.some.inj (hi.symm.trans hj)) ▸ hclosed
    · by_cases hij : i = j
      · subst hij
        obtain rfl : r = q := Option.some.inj (hi.symm.trans hj)
        exact ⟨_, getElem?_set_here hi _, rfl, rfl, fun _ => rfl⟩
      · refine ⟨q, by simp [List.getElem?_set_ne hij, hj], rfl, rfl, ?_⟩
        rintro (hq | rfl)
        · exact hq
        · exact absurd rfl hij
  · rename_i hnone
    refine ⟨q, hj, rfl, rfl, ?_⟩
    rintro (hq | rfl)
    · exact hq
    · simp [hj] at hnone

theorem closeAll_agree (h : Agree s) (objects : List ℕ) :
    Agree (objects.foldl Holding.closeRef s) ∧
      (objects.foldl Holding.closeRef s).calls = s.calls := by
  induction objects generalizing s with
  | nil => exact ⟨h, rfl⟩
  | cons i objects ih =>
    obtain ⟨hagree, hcalls⟩ := ih (h.closeRef i)
    exact ⟨hagree, hcalls.trans (closeRef_calls s i)⟩

theorem closeAll_stays (s : Holding) (objects : List ℕ) (hj : s.refs[j]? = some q) :
    ∃ q', (objects.foldl Holding.closeRef s).refs[j]? = some q' ∧ q'.handle = q.handle ∧
      q'.transient = q.transient ∧ (q.closed ∨ j ∈ objects → q'.closed) := by
  induction objects generalizing s q with
  | nil => exact ⟨q, hj, rfl, rfl, by simp⟩
  | cons i objects ih =>
    obtain ⟨q₁, hj₁, hhandle₁, htransient₁, hclosed₁⟩ := closeRef_stays s i hj
    obtain ⟨q₂, hj₂, hhandle₂, htransient₂, hclosed₂⟩ := ih (s.closeRef i) hj₁
    refine ⟨q₂, hj₂, hhandle₂.trans hhandle₁, htransient₂.trans htransient₁, ?_⟩
    rintro (hq | hmem)
    · exact hclosed₂ (.inl (hclosed₁ (.inl hq)))
    · rcases List.mem_cons.mp hmem with rfl | hmem
      · exact hclosed₂ (.inl (hclosed₁ (.inr rfl)))
      · exact hclosed₂ (.inr hmem)

/-- A host call in which the stage and the objects may change. -/
theorem Agree.stage (h : Agree s) (hcalls : s.calls = c :: calls) (hargs : c'.args = c.args)
    (hobjects : ∀ i ∈ c'.objects, ∃ r, s.refs[i]? = some r ∧ r.transient)
    (hborrowed : ∀ (i : ℕ) (r : Ref), s.refs[i]? = some r → r.transient → r.closed = false →
      c.stage = .invoked → i ∈ c.objects → r.handle ∈ c.args →
      c'.stage = .invoked ∧ i ∈ c'.objects) :
    Agree { s with calls := c' :: calls } where
  inv := h.inv
  sound := h.sound
  count := by
    intro p
    have hsame : ({ s with calls := c' :: calls } : Holding).holders p = s.holders p := by
      simp [Holding.holders, hcalls, hargs]
    rw [hsame]
    exact h.count p
  objects := by
    intro d hd i hi
    rcases List.mem_cons.mp hd with rfl | hd
    · exact hobjects i hi
    · exact h.objects d (hcalls ▸ List.mem_cons_of_mem c hd) i hi
  borrowed := by
    intro i r hi htransient hopen
    obtain ⟨d, hd, hstage, hmem, harg⟩ := h.borrowed i r hi htransient hopen
    rcases List.mem_cons.mp (hcalls ▸ hd) with rfl | hd
    · obtain ⟨hstage', hmem'⟩ := hborrowed i r hi htransient hopen hstage hmem harg
      exact ⟨c', List.mem_cons_self, hstage', hmem', hargs ▸ harg⟩
    · exact ⟨d, List.mem_cons_of_mem c' hd, hstage, hmem, harg⟩

theorem Agree.beginCall (h : Agree s) :
    Agree { s with calls := ⟨.converting, [], []⟩ :: s.calls } where
  inv := h.inv
  sound := h.sound
  count := by
    intro p
    rw [show s.table.count p = _ from h.count p]
    simp [Holding.holders]
  objects := by
    intro d hd i hi
    rcases List.mem_cons.mp hd with rfl | hd
    · cases hi
    · exact h.objects d hd i hi
  borrowed := by
    intro i r hi htransient hopen
    obtain ⟨d, hd, hrest⟩ := h.borrowed i r hi htransient hopen
    exact ⟨d, List.mem_cons_of_mem _ hd, hrest⟩

/-- One more argument, of a call that has not been made yet. -/
theorem Agree.convert (h : Agree s) (hcalls : s.calls = c :: calls) (hstage : c.stage = .converting)
    (hc : Changes s.table t ref 1) :
    Agree { s with table := t, calls := { c with args := c.args ++ [ref] } :: calls } where
  inv := hc.inv
  sound := hc.sound
  count := by
    let c' : HostCall := { c with args := c.args ++ [ref] }
    show ∀ r, (Holding.mk t s.refs (c' :: calls)).table.count r = (Holding.mk t s.refs (c' :: calls)).holders r
    refine h.counts hc ?_ fun r hr => ?_
    · simp [Holding.holders, hcalls, c']
      omega
    · simp [Holding.holders, hcalls, c', Ne.symm hr]
  objects := by
    intro d hd i hi
    rcases List.mem_cons.mp hd with rfl | hd
    · exact h.objects c (hcalls ▸ List.mem_cons_self) i hi
    · exact h.objects d (hcalls ▸ List.mem_cons_of_mem c hd) i hi
  borrowed := by
    intro i r hi htransient hopen
    obtain ⟨d, hd, hinvoked, hmem, harg⟩ := h.borrowed i r hi htransient hopen
    rcases List.mem_cons.mp (hcalls ▸ hd) with rfl | hd
    · rw [hstage] at hinvoked
      cases hinvoked
    · exact ⟨d, List.mem_cons_of_mem _ hd, hinvoked, hmem, harg⟩

/-- `onHostCall` makes an object for each argument. -/
theorem Agree.invoke (h : Agree s) (hcalls : s.calls = c :: calls)
    (hstage : c.stage = .converting) :
    Agree { s with
      refs := s.refs ++ c.args.map fun ref => ⟨ref, false, true⟩
      calls := ⟨.invoked, c.args, List.range' s.refs.length c.args.length⟩ :: calls } where
  inv := h.inv
  sound := h.sound
  count := by
    intro p
    have hnone : (c.args.map fun ref => (⟨ref, false, true⟩ : Ref)).countP (Ref.holds p) = 0 := by
      simp [List.countP_eq_zero, Ref.holds]
    rw [show s.table.count p = _ from h.count p]
    simp [Holding.holders, hcalls, hnone]
  objects := by
    intro d hd i hi
    rcases List.mem_cons.mp hd with rfl | hd
    · obtain ⟨k, hk, rfl⟩ := List.mem_range'.mp hi
      refine ⟨⟨c.args[k], false, true⟩, ?_, rfl⟩
      simp [hk]
    · obtain ⟨r, hr, htransient⟩ := h.objects d (hcalls ▸ List.mem_cons_of_mem c hd) i hi
      refine ⟨r, ?_, htransient⟩
      rw [List.getElem?_append_left (List.getElem?_eq_some_iff.mp hr).1, hr]
  borrowed := by
    intro i r hi htransient hopen
    by_cases hlt : i < s.refs.length
    · rw [List.getElem?_append_left hlt] at hi
      obtain ⟨d, hd, hinvoked, hmem, harg⟩ := h.borrowed i r hi htransient hopen
      rcases List.mem_cons.mp (hcalls ▸ hd) with rfl | hd
      · rw [hstage] at hinvoked
        cases hinvoked
      · exact ⟨d, List.mem_cons_of_mem _ hd, hinvoked, hmem, harg⟩
    · rw [List.getElem?_append_right (Nat.le_of_not_lt hlt), List.getElem?_map] at hi
      obtain ⟨ref, href, rfl⟩ := Option.map_eq_some_iff.mp hi
      obtain ⟨hk, -⟩ := List.getElem?_eq_some_iff.mp href
      refine ⟨_, List.mem_cons_self, rfl, ?_, List.mem_of_getElem? href⟩
      exact List.mem_range'.mpr ⟨i - s.refs.length, hk, by omega⟩

theorem Agree.complete (h : Agree s) (hcalls : s.calls = c :: calls) :
    Agree { c.objects.foldl Holding.closeRef s with calls := { c with stage := .returned } :: calls } := by
  obtain ⟨hagree, hsame⟩ := closeAll_agree h c.objects
  refine hagree.stage (hsame.trans hcalls) rfl ?_ ?_
  · exact fun i hi => hagree.objects c (hsame ▸ hcalls ▸ List.mem_cons_self) i hi
  · -- its objects are all closed now
    intro i r hi _ hopen _ hmem _
    obtain ⟨q, hq, -⟩ := h.objects c (hcalls ▸ List.mem_cons_self) i hmem
    obtain ⟨q', hq', -, -, hclosed⟩ := closeAll_stays s c.objects hq
    obtain rfl : r = q' := Option.some.inj (hi.symm.trans hq')
    simp [hclosed (.inr hmem)] at hopen

/-- The shim releases one argument after the other. -/
theorem releases_spec {t : SlotTable} (args : List Handle) (m : Handle → ℕ)
    (hinv : ∃ free, t.Inv free)
    (hsound : t.Sound) (hcount : ∀ r, t.count r = m r + args.count r) :
    (∃ free, (args.foldl SlotTable.kmpjsRefRelease t).Inv free) ∧
      (args.foldl SlotTable.kmpjsRefRelease t).Sound ∧
      ∀ r, (args.foldl SlotTable.kmpjsRefRelease t).count r = m r := by
  induction args generalizing t with
  | nil => exact ⟨hinv, hsound, by simpa using hcount⟩
  | cons ref args ih =>
    obtain ⟨free, hinv⟩ := hinv
    have hpos : 0 < t.count ref := by
      rw [hcount]
      simp
      omega
    obtain ⟨slot, hget⟩ := SlotTable.slotGet_of_count hpos
    have hc := SlotTable.release_changes hinv hsound hget
    refine ih hc.inv hc.sound fun r => ?_
    by_cases hr : r = ref
    · rw [hr, hc.here, hcount]
      simp
      omega
    · rw [hc.others r hr, hcount]
      simp [Ne.symm hr]

theorem Agree.endCall (h : Agree s) (hcalls : s.calls = c :: calls) (hstage : c.stage ≠ .invoked) :
    Agree { s with table := c.args.foldl SlotTable.kmpjsRefRelease s.table, calls } := by
  obtain ⟨hinv, hsound, hcount⟩ :=
    releases_spec c.args (Holding.mk s.table s.refs calls).holders h.inv
    h.sound fun r => by
      rw [h.count]
      simp [Holding.holders, hcalls]
      omega
  refine ⟨hinv, hsound, hcount, ?_, ?_⟩
  · exact fun d hd i hi => h.objects d (hcalls ▸ List.mem_cons_of_mem c hd) i hi
  · intro i r hi htransient hopen
    obtain ⟨d, hd, hinvoked, hrest⟩ := h.borrowed i r hi htransient hopen
    rcases List.mem_cons.mp (hcalls ▸ hd) with rfl | hd
    · exact absurd hinvoked hstage
    · exact ⟨d, hd, hinvoked, hrest⟩

theorem step_agree (h : Agree s) (hcareful : Careful s a) (hstep : s.step a = some s') :
    Agree s' := by
  cases Holding.step_cases hstep with
  | handOut v grow => exact h.handOut hcareful
  | loseResult v grow => cases hcareful
  | retain here unclosed =>
    exact h.retain here (by simpa using unclosed) (by simpa [Careful, here] using hcareful)
  | close i => exact h.closeRef i
  | beginCall => exact h.beginCall
  | @convert c calls v grow top stage =>
    obtain ⟨free, hinv⟩ := h.inv
    by_cases hzero : (s.table.slotNew v grow).2 = 0
    · rw [if_pos hzero, SlotTable.slotNew_failed hinv hcareful hzero]
      refine h.stage top rfl (h.objects c (top ▸ List.mem_cons_self)) ?_
      intro i r _ _ _ hinvoked
      rw [stage] at hinvoked
      cases hinvoked
    · rw [if_neg hzero]
      exact h.convert top stage (SlotTable.new_changes hinv h.sound v grow hcareful hzero)
  | invoke top stage => exact h.invoke top stage
  | complete top => exact h.complete top
  | endCall top stage => exact h.endCall top stage

/-- Every slot's refcount is the number of its handle's holders, and whoever holds a handle
finds its slot. -/
structure Agrees (s : Holding) : Prop where
  count : ∀ (i : ℕ) (slot : Slot), s.table.slots[i]? = some slot →
    slot.refcount.toInt = s.holders (SlotTable.slotHandle (.ofNat 32 i) slot.gen)
  live : ∀ ref, 0 < s.holders ref → ∃ slot, s.table.slotGet ref = some slot

theorem Agree.agrees (h : Agree s) : Agrees s where
  count := by
    intro i slot hs
    obtain ⟨free, hinv⟩ := h.inv
    have hlt := (List.getElem?_eq_some_iff.mp hs).1
    have hat : s.table.slotAt (SlotTable.slotHandle (.ofNat 32 i) slot.gen) = some slot := by
      rw [SlotTable.slotAt_slotHandle (hinv.index_lt hlt.le), hs]
    rw [← h.count, SlotTable.count_eq hinv, hat, SlotTable.slotGen_slotHandle]
    by_cases hzero : slot.refcount = 0
    · simp [SlotTable.tally, hzero]
    · obtain ⟨hpos, hgen⟩ := h.sound i slot hs hzero
      rw [if_pos (SlotTable.toInt_slotHandle (lt_of_lt_of_le hlt hinv.count) hgen)]
      simp [SlotTable.tally, hpos]
  live := fun _ hpos => h.live hpos

-- ---------------------------------------------------------------------------
-- Any other step breaks it
-- ---------------------------------------------------------------------------

/-- The new slot is counted under its handle. -/
theorem Agrees.made {t : SlotTable} (h : Agrees s) (hinv : t.Inv free)
    (ht : s.table = (t.slotNew v grow).1) (hmade : (t.slotNew v grow).2 ≠ 0) :
    s.holders (t.slotNew v grow).2 = 1 := by
  obtain ⟨-, -, -, hspec⟩ := SlotTable.slotNew_spec hinv v grow
  have hslot := (hspec hmade).slot
  rw [← ht] at hslot
  have hcount := h.count _ _ hslot
  have hhandle : SlotTable.slotHandle (.ofNat 32 (SlotTable.slotIndex (t.slotNew v grow).2).toNat)
      (SlotTable.slotGen (t.slotNew v grow).2) = (t.slotNew v grow).2 := by
    refine SlotTable.handle_ext ?_ (SlotTable.slotGen_slotHandle _ _)
    rw [SlotTable.slotIndex_slotHandle, BitVec.ofNat_toNat, BitVec.setWidth_eq]
  simp only [SlotTable.fresh, hhandle] at hcount
  have hone : (1 : BitVec 32).toInt = 1 := by decide
  omega

/-- If the new ref is held, its slot fits. -/
theorem fits_of_agrees (t : SlotTable) (v : JSValue) (grow : Bool) (h : Agrees s)
    (hheld : (t.slotNew v grow).2 ≠ 0 → 0 < s.holders (t.slotNew v grow).2) : t.nextFits := by
  by_contra hnot
  have hgen : 2 ^ 31 ≤ (SlotTable.slotGen (t.slotNew v grow).2).toNat :=
    SlotTable.slotNew_of_not_fits (by simpa using hnot)
  have hmade : (t.slotNew v grow).2 ≠ 0 := by
    intro hzero
    simp [hzero, SlotTable.slotGen] at hgen
  obtain ⟨slot, hget⟩ := h.live _ (hheld hmade)
  have hlt := SlotTable.slotGen_lt_of_pos (SlotTable.slotGet_eq_some hget).1
  omega

theorem careful_of_step (h : Agree s) (hstep : s.step a = some s') (hagrees : Agrees s') :
    Careful s a := by
  obtain ⟨free, hinv⟩ := h.inv
  cases Holding.step_cases hstep with
  | handOut v grow =>
    refine fits_of_agrees s.table v grow hagrees fun hmade => ?_
    rw [if_neg hmade, holders_append s.refs s.calls s.table, if_pos rfl]
    exact Nat.succ_pos _
  | loseResult v grow made =>
    -- nobody holds the new handle
    have hone := hagrees.made hinv rfl made
    have hpos : 0 < s.holders (s.table.slotNew v grow).2 := by
      show 0 < Holding.holders { s with table := (s.table.slotNew v grow).1 } _
      omega
    obtain ⟨slot, hget⟩ := h.live hpos
    obtain ⟨-, hslot, hr, hgen⟩ := SlotTable.slotGet_eq_some hget
    obtain ⟨-, -, -, hspec⟩ := SlotTable.slotNew_spec hinv v grow
    exact (hspec made).notHeld ⟨slot, hslot, hgen, SlotTable.toInt_pos_ne_zero hr⟩
  | @retain i r here unclosed =>
    obtain ⟨slot, hget⟩ := h.open_live here (by simpa using unclosed)
    obtain ⟨slot', hget'⟩ := hagrees.live r.handle (by
      rw [holders_append s.refs s.calls s.table, if_pos rfl]
      exact Nat.succ_pos _)
    have hcurrent := SlotTable.retain_current hinv hget
    split at hcurrent
    · simpa [Careful, here, SlotTable.hasRoom, SlotTable.count_of_slotGet hget] using ‹_›
    · rw [hcurrent.slotGet_none] at hget'
      cases hget'
  | convert v grow top stage =>
    refine fits_of_agrees s.table v grow hagrees fun hmade => ?_
    refine holders_of_arg List.mem_cons_self ?_
    rw [if_neg hmade]
    exact List.mem_append_right _ (List.mem_singleton_self _)
  | _ => trivial

/-- A run that is careful keeps the books, and a step keeps them exactly if it is careful. -/
theorem handles_agree (h : Machine.Reaches Holding.step Careful init s) :
    Agrees s ∧ ∀ a s', s.step a = some s' → (Agrees s' ↔ Careful s a) := by
  have hs : Agree s := h.invariant init_agree fun hs hcareful hstep => step_agree hs hcareful hstep
  refine ⟨hs.agrees, fun a s' hstep => ⟨careful_of_step hs hstep, fun hcareful => ?_⟩⟩
  exact (step_agree hs hcareful hstep).agrees

/-- A host function keeps its argument. -/
def kept : Holding :=
  ⟨⟨[⟨.object 7 .plain, 1, -1, 0⟩], 16, -1⟩, [⟨1, true, true⟩, ⟨1, false, false⟩], []⟩

theorem handles_agree_kept :
    Agrees kept ∧ ∀ a s', kept.step a = some s' → (Agrees s' ↔ Careful kept a) := by
  refine handles_agree (Machine.reaches_of_exec
    (l := [.beginCall, .convert (.object 7 .plain) true, .invoke, .retain 0, .close 0, .complete, .endCall]) ?_)
  decide +kernel

/-- The ref of a call that fails after its conversion: the slot is in use, and nobody has
its handle. -/
theorem lost_result_holds_slot :
    ¬ ∀ s, Machine.Reaches Holding.step Machine.always init s → Agrees s := by
  intro h
  have hrun : Machine.exec Holding.step Machine.always init [.loseResult (.object 7 .plain) true] =
      some ⟨⟨[⟨.object 7 .plain, 1, -1, 0⟩], 16, -1⟩, [], []⟩ := by decide +kernel
  have hcount := (h _ (Machine.reaches_of_exec hrun)).count 0 _ rfl
  revert hcount
  decide

end QuickJsKmp.Handles
