import QuickJsKmp.Slots

/-!
# Ref operations and who owns what they lend

A ref operation looks its slot up once and lends the slot's value to one
engine call (`JS_GetPropertyStr`, `JS_SetPropertyStr`, `JS_Call`,
`JS_JSONStringify`). Script runs inside that call, and host code that the
script calls may retain, release and hand out refs before the call returns.
`Act` is what such code can do to the shim's ownership; a nested ref operation
is the acts it makes.

The converters of `value_from_host` (`JS_ParseJSON`, the BigInt constructor on
a string, `JS_NewArrayBufferCopy`) run no script, so nothing happens between
the lookup and the engine call.
-/

namespace QuickJsKmp

open SlotTable (Op)

/-- The engine's constructors that `value_from_host` calls; `none` is a pending
exception. -/
structure Conversions where
  newStringLen : Bytes → Option JSValue
  parseJSON : Bytes → Option JSValue
  bigIntCtor : JSValue → Option JSValue
  newArrayBufferCopy : Bytes → Option JSValue

def valueFromHost (conv : Conversions) (t : SlotTable) : HostValue → Option JSValue
  | .undefined => some .undefined
  | .null => some .null
  | .bool b => some (.bool b)
  | .number bits => some (.number bits)
  | .string s => conv.newStringLen s
  | .object none => some .undefined
  | .object (some json) => conv.parseJSON json
  | .ref h => (t.slotGet h).map Slot.val
  | .bigInt text => (conv.newStringLen text).bind conv.bigIntCtor
  | .binary bytes => conv.newArrayBufferCopy bytes
  | .exception _ => none

/-- The shim's owners: the slots, the converted arguments of the running call
and the values that code nested in it has duplicated and not yet freed. -/
structure Owners where
  table : SlotTable
  argv : List JSValue
  nested : List JSValue
  deriving DecidableEq, Repr

/-- Each slot with a positive count and each outstanding `JS_DupValue` owns its
value once. -/
def Owners.count (o : Owners) (v : JSValue) : ℕ :=
  o.table.slots.countP (fun s => 0 < s.refcount.toInt ∧ s.val = v) +
    o.argv.count v + o.nested.count v

inductive Act
  | slot (op : Op)
  | dup (v : JSValue)
  | free (v : JSValue)
  deriving DecidableEq, Repr

def Owners.apply (o : Owners) : Act → Owners
  | .slot op => { o with table := o.table.apply op }
  | .dup v => { o with nested := v :: o.nested }
  | .free v => { o with nested := o.nested.erase v }

/-- An engine call in progress: the handles whose values were lent to it, and
the owners when it began. -/
structure EngineCall where
  lent : List (Handle × JSValue)
  owners : Owners
  deriving DecidableEq, Repr

def EngineCall.during (c : EngineCall) (acts : List Act) : Owners := acts.foldl Owners.apply c.owners

-- ---------------------------------------------------------------------------
-- The operations up to their engine call
-- ---------------------------------------------------------------------------

/-- How far an operation gets: it returns before it enters a run, a conversion
throws and it goes straight to `finish`, or it makes its engine call. -/
inductive Start
  | returned
  | threw
  | lends (c : EngineCall)
  deriving DecidableEq, Repr

def kmpjsRefGet (o : Owners) (ref : Handle) : Start :=
  match o.table.slotGet ref with
  | none => .returned
  | some s => .lends { lent := [(ref, s.val)], owners := o }

def kmpjsRefGetIndex (o : Owners) (ref : Handle) (index : Int) : Start :=
  match o.table.slotGet ref with
  | none => .returned
  | some s => if index < 0 then .returned else .lends { lent := [(ref, s.val)], owners := o }

/-- The converted value is consumed by `JS_SetPropertyStr`, so the shim does
not own it during the call. -/
def kmpjsRefSet (conv : Conversions) (o : Owners) (ref : Handle) (value : HostValue) : Start :=
  match o.table.slotGet ref with
  | none => .returned
  | some s =>
    match valueFromHost conv o.table value with
    | none => .threw
    | some _ => .lends { lent := [(ref, s.val)], owners := o }

def kmpjsRefCall (conv : Conversions) (o : Owners) (ref thisRef : Handle)
    (args : List HostValue) : Start :=
  match o.table.slotGet ref with
  | none => .returned
  | some fs =>
    if fs.val.isFunction then
      match if thisRef = 0 then some none else (o.table.slotGet thisRef).map some with
      | none => .returned
      | some ts =>
        match args.mapM (valueFromHost conv o.table) with
        | none => .threw
        | some argv =>
          .lends {
            lent := (ref, fs.val) :: (ts.map fun s => (thisRef, s.val)).toList
            owners := { o with argv := argv ++ o.argv } }
    else .returned

/-- The JSON of a function is empty and needs no run. -/
def kmpjsRefToJson (o : Owners) (ref : Handle) : Start :=
  match o.table.slotGet ref with
  | none => .returned
  | some s => if s.val.isFunction then .returned else .lends { lent := [(ref, s.val)], owners := o }

inductive RefOp
  | get (ref : Handle)
  | getIndex (ref : Handle) (index : Int)
  | set (ref : Handle) (value : HostValue)
  | call (ref thisRef : Handle) (args : List HostValue)
  | toJson (ref : Handle)
  deriving DecidableEq, Repr

/-- The receiver, and for a call the `this` value. -/
def RefOp.handles : RefOp → List Handle
  | .get ref | .getIndex ref _ | .set ref _ | .toJson ref => [ref]
  | .call ref thisRef _ => [ref, thisRef]

def RefOp.start (conv : Conversions) (o : Owners) : RefOp → Start
  | .get ref => kmpjsRefGet o ref
  | .getIndex ref index => kmpjsRefGetIndex o ref index
  | .set ref value => kmpjsRefSet conv o ref value
  | .call ref thisRef args => kmpjsRefCall conv o ref thisRef args
  | .toJson ref => kmpjsRefToJson o ref

/-- The whole operation: `acts` happen inside the engine call, `finishing`
after it, when the arguments were freed. -/
def RefOp.exec (conv : Conversions) (o : Owners) (op : RefOp) (acts finishing : List Act) : Owners :=
  match op.start conv o with
  | .returned => o
  | .threw => finishing.foldl Owners.apply o
  | .lends c => finishing.foldl Owners.apply { c.during acts with argv := o.argv }

-- ---------------------------------------------------------------------------
-- Stale handles
-- ---------------------------------------------------------------------------

theorem RefOp.start_of_stale {o : Owners} {op : RefOp} (h : o.table.slotGet ref = none)
    (hne : ref ≠ 0)
    (hop : ref ∈ op.handles) : op.start conv o = .returned := by
  cases op with
  | get r =>
    obtain rfl : ref = r := by simpa [RefOp.handles] using hop
    simp [RefOp.start, kmpjsRefGet, h]
  | getIndex r i =>
    obtain rfl : ref = r := by simpa [RefOp.handles] using hop
    simp [RefOp.start, kmpjsRefGetIndex, h]
  | set r v =>
    obtain rfl : ref = r := by simpa [RefOp.handles] using hop
    simp [RefOp.start, kmpjsRefSet, h]
  | call r this args =>
    obtain rfl | rfl : ref = r ∨ ref = this := by simpa [RefOp.handles] using hop
    · simp [RefOp.start, kmpjsRefCall, h]
    · simp only [RefOp.start, kmpjsRefCall, h, hne, ↓reduceIte, Option.map_none]
      split
      · rfl
      · split <;> rfl
  | toJson r =>
    obtain rfl : ref = r := by simpa [RefOp.handles] using hop
    simp [RefOp.start, kmpjsRefToJson, h]

/-- A handle is issued once in a run of any length, and once its count has
reached zero nothing accepts it any more: no reference operation on it changes
the table, whatever would happen inside the operation. -/
theorem stale_handle_never_aliases (ops : List Op) :
    ((SlotTable.empty.issued ops).filter (· ≠ 0)).Nodup ∧
    ∀ pre ref post s, ops = pre ++ .release ref :: post →
      (SlotTable.run pre).slotGet ref = some s → s.refcount = 1 →
      (SlotTable.run ops).slotGet ref = none ∧
      (SlotTable.run ops).kmpjsRefRetain ref = SlotTable.run ops ∧
      (SlotTable.run ops).kmpjsRefRelease ref = SlotTable.run ops ∧
      ∀ conv argv nested (op : RefOp) acts finishing, ref ∈ op.handles →
        op.exec conv ⟨SlotTable.run ops, argv, nested⟩ acts finishing =
          ⟨SlotTable.run ops, argv, nested⟩ := by
  refine ⟨SlotTable.issued_nodup SlotTable.inv_empty ops, ?_⟩
  intro pre ref post s hops hget hone
  have hne : ref ≠ 0 := by
    rintro rfl
    exact absurd (SlotTable.slotGet_eq_some hget).1 (by decide)
  have hnone : (SlotTable.run ops).slotGet ref = none := by
    obtain ⟨free, hinv⟩ := SlotTable.run_inv pre
    obtain ⟨free', hinv', -⟩ := SlotTable.apply_spec hinv (.release ref)
    have hspent := SlotTable.foldl_spent hinv' (SlotTable.spent_of_last hget hone) post
    have hrun : SlotTable.run ops =
        post.foldl SlotTable.apply ((SlotTable.run pre).apply (.release ref)) := by
      simp [hops, SlotTable.run, List.foldl_append]
    rw [hrun]
    exact hspent.slotGet_none
  refine ⟨hnone, by simp [SlotTable.kmpjsRefRetain, hnone],
    by simp [SlotTable.kmpjsRefRelease, hnone], ?_⟩
  intro conv argv nested op acts finishing hop
  rw [RefOp.exec, RefOp.start_of_stale hnone hne hop]

theorem stale_handle_never_aliases_reused :
    (SlotTable.run [.new .null true, .release 1, .new .null true]).slotGet 1 = none ∧
      SlotTable.empty.issued [.new .null true, .release 1, .new .null true] =
        [1, 0x100000001] :=
  ⟨((stale_handle_never_aliases [.new .null true, .release 1, .new .null true]).2
    [.new .null true] 1 [.new .null true] (SlotTable.fresh .null 0) rfl (by decide) rfl).1,
    by decide⟩

-- ---------------------------------------------------------------------------
-- How long a handle lives
-- ---------------------------------------------------------------------------

/-- What the acts on one handle add to its count. -/
def net (ref : Handle) : List Act → Int
  | [] => 0
  | .slot (.retain r) :: acts => (if r = ref then 1 else 0) + net ref acts
  | .slot (.release r) :: acts => (if r = ref then -1 else 0) + net ref acts
  | _ :: acts => net ref acts

/-- At every point so far the retains of `ref` exceed its releases, starting
from the count `r`; `2 ^ 31` is where an `int32_t` ends. -/
def Covered (ref : Handle) (r : Int) (acts : List Act) : Prop :=
  ∀ p, p <+: acts → 0 < r + net ref p ∧ r + net ref p < 2 ^ 31

theorem covered_cons : Covered ref r (a :: acts) ↔
    (0 < r ∧ r < 2 ^ 31) ∧ Covered ref (r + net ref [a]) acts := by
  have hnet : ∀ p, net ref (a :: p) = net ref [a] + net ref p := by
    intro p
    cases a with
    | slot op => cases op <;> simp [net]
    | dup v => simp [net]
    | free v => simp [net]
  constructor
  · intro h
    refine ⟨by simpa [net] using h [] (List.nil_prefix), fun p hp => ?_⟩
    have := h (a :: p) (List.cons_prefix_cons.mpr ⟨rfl, hp⟩)
    rw [hnet] at this
    omega
  · rintro ⟨h0, h⟩ p hp
    rcases List.prefix_cons_iff.mp hp with rfl | ⟨q, rfl, hq⟩
    · simpa [net] using h0
    · have := h q hq
      rw [hnet]
      omega

theorem Owners.apply_inv {o : Owners} (h : o.table.Inv free) (a : Act) :
    ∃ free', (o.apply a).table.Inv free' := by
  cases a with
  | slot op =>
    obtain ⟨free', hinv, -⟩ := SlotTable.apply_spec h op
    exact ⟨free', hinv⟩
  | dup v => exact ⟨free, h⟩
  | free v => exact ⟨free, h⟩

/-- One act on a current handle: its count follows `net`, or the handle goes. -/
theorem current_step {o : Owners} (h : o.table.Inv free) (hget : o.table.slotGet ref = some s)
    (a : Act) :
    if 0 < s.refcount.toInt + net ref [a] ∧ s.refcount.toInt + net ref [a] < 2 ^ 31 then
      ∃ s', (o.apply a).table.slotGet ref = some s' ∧ s'.val = s.val ∧
        s'.refcount.toInt = s.refcount.toInt + net ref [a]
    else (o.apply a).table.Gone ref := by
  obtain ⟨hpos, hs, hr, hg⟩ := SlotTable.slotGet_eq_some hget
  have hbound := (SlotTable.toInt_of_pos hr)
  have same : (o.apply a).table.slotGet ref = some s → net ref [a] = 0 →
      if 0 < s.refcount.toInt + net ref [a] ∧ s.refcount.toInt + net ref [a] < 2 ^ 31 then
        ∃ s', (o.apply a).table.slotGet ref = some s' ∧ s'.val = s.val ∧
          s'.refcount.toInt = s.refcount.toInt + net ref [a]
      else (o.apply a).table.Gone ref := by
    intro hkeep hnet
    rw [hnet, if_pos (by omega)]
    exact ⟨s, hkeep, rfl, by omega⟩
  have frame : ∀ op : Op, a = .slot op → op ≠ .retain ref → op ≠ .release ref →
      (o.apply a).table.slotGet ref = some s := by
    rintro op rfl hret hrel
    obtain ⟨free', hinv, -⟩ := SlotTable.apply_spec h op
    exact SlotTable.slotGet_of_slotAt hinv hpos
      (SlotTable.slotAt_apply h hs (SlotTable.toInt_pos_ne_zero hr) hg hret hrel) hr hg
  cases a with
  | dup v => exact same hget rfl
  | free v => exact same hget rfl
  | slot op =>
    cases op with
    | new v grow => exact same (frame _ rfl (by simp) (by simp)) rfl
    | retain r =>
      by_cases hne : r = ref
      · subst hne
        have hstep := SlotTable.retain_current h hget
        have hsucc := SlotTable.toInt_succ hr
        simp only [net, ↓reduceIte, add_zero]
        by_cases hc : s.refcount.toInt + 1 < 2 ^ 31
        · rw [if_pos hc] at hstep hsucc
          rw [if_pos (by omega)]
          exact ⟨_, hstep, rfl, hsucc⟩
        · rw [if_neg hc] at hstep
          rw [if_neg (by omega)]
          exact hstep
      · exact same (frame _ rfl (by simpa using hne) (by simp)) (by simp [net, hne])
    | release r =>
      by_cases hne : r = ref
      · subst hne
        have hstep := SlotTable.release_current h hget
        simp only [net, ↓reduceIte, add_zero]
        by_cases hc : 1 < s.refcount.toInt
        · rw [if_pos hc] at hstep
          rw [if_pos (by omega)]
          exact ⟨_, hstep, rfl, SlotTable.toInt_pred hr⟩
        · rw [if_neg hc] at hstep
          rw [if_neg (by omega)]
          exact hstep
      · exact same (frame _ rfl (by simp) (by simpa using hne)) (by simp [net, hne])

theorem Owners.gone_foldl {o : Owners} (h : o.table.Inv free) (hgone : o.table.Gone ref)
    (acts : List Act) : (acts.foldl Owners.apply o).table.Gone ref := by
  induction acts generalizing o free with
  | nil => exact hgone
  | cons a acts ih =>
    obtain ⟨free', hinv⟩ := Owners.apply_inv h a
    refine ih hinv ?_
    cases a with
    | slot op => exact hgone.apply h op
    | dup v => exact hgone
    | free v => exact hgone

/-- A handle stays current exactly as long as its own acts keep its count
within bounds; nothing done through other handles matters. -/
theorem current_iff_covered {o : Owners} (h : o.table.Inv free)
    (hget : o.table.slotGet ref = some s) (acts : List Act) :
    (Covered ref s.refcount.toInt acts →
      ∃ s', (acts.foldl Owners.apply o).table.slotGet ref = some s' ∧ s'.val = s.val) ∧
    (¬ Covered ref s.refcount.toInt acts → (acts.foldl Owners.apply o).table.Gone ref) := by
  induction acts generalizing o free s with
  | nil =>
    refine ⟨fun _ => ⟨s, hget, rfl⟩, fun hc => absurd ?_ hc⟩
    intro p hp
    obtain ⟨-, -, hr, -⟩ := SlotTable.slotGet_eq_some hget
    have hbound := SlotTable.toInt_of_pos hr
    rw [List.prefix_nil.mp hp]
    simp only [net]
    omega
  | cons a acts ih =>
    obtain ⟨-, -, hr, -⟩ := SlotTable.slotGet_eq_some hget
    have hbound := SlotTable.toInt_of_pos hr
    obtain ⟨free', hinv⟩ := Owners.apply_inv h a
    have hstep := current_step h hget a
    have hcov : Covered ref s.refcount.toInt (a :: acts) ↔
        Covered ref (s.refcount.toInt + net ref [a]) acts :=
      covered_cons.trans (and_iff_right (by omega))
    rw [hcov, List.foldl_cons]
    split at hstep
    · obtain ⟨s', hget', hval, hcount⟩ := hstep
      obtain ⟨hin, hout⟩ := ih hinv hget'
      rw [hcount, hval] at hin
      rw [hcount] at hout
      exact ⟨hin, hout⟩
    · rename_i hc
      refine ⟨fun hcov => absurd ?_ hc, fun _ => Owners.gone_foldl hinv hstep acts⟩
      simpa [net] using hcov [] List.nil_prefix

-- ---------------------------------------------------------------------------
-- Borrowed values
-- ---------------------------------------------------------------------------

/-- Every value lent to the engine call has an owner in the shim at every
moment until the call returns. -/
def StaysOwned (c : EngineCall) (acts : List Act) : Prop :=
  ∀ p, p <+: acts → ∀ b ∈ c.lent, 0 < (c.during p).count b.2

/-- The value has an owner besides the handle it was lent under: an argument,
a duplicate, or a slot with another handle. -/
def OwnedElsewhere (o : Owners) (ref : Handle) (v : JSValue) : Prop :=
  v ∈ o.argv ∨ v ∈ o.nested ∨
    ∃ other s, other ≠ ref ∧ o.table.slotAt other = some s ∧ s.gen = SlotTable.slotGen other ∧
      0 < s.refcount.toInt ∧ s.val = v

theorem Owners.count_pos {o : Owners} : 0 < o.count v ↔
    v ∈ o.argv ∨ v ∈ o.nested ∨ ∃ s ∈ o.table.slots, 0 < s.refcount.toInt ∧ s.val = v := by
  have hslots : 0 < o.table.slots.countP (fun s => 0 < s.refcount.toInt ∧ s.val = v) ↔
      ∃ s ∈ o.table.slots, 0 < s.refcount.toInt ∧ s.val = v := by
    simp [List.countP_pos_iff]
  have hargv : 0 < o.argv.count v ↔ v ∈ o.argv := List.count_pos_iff
  have hnested : 0 < o.nested.count v ↔ v ∈ o.nested := List.count_pos_iff
  rw [← hslots, ← hargv, ← hnested, Owners.count]
  omega

/-- A current handle owns its value; any other owner is elsewhere. -/
theorem Owners.count_pos_iff {o : Owners} (h : o.table.Inv free) (hpos : 0 < ref.toInt) :
    0 < o.count v ↔ (∃ s, o.table.slotGet ref = some s ∧ s.val = v) ∨ OwnedElsewhere o ref v := by
  rw [Owners.count_pos]
  constructor
  · rintro (hv | hv | ⟨s, hs, hr, hval⟩)
    · exact .inr (.inl hv)
    · exact .inr (.inr (.inl hv))
    · obtain ⟨i, hi⟩ := List.mem_iff_getElem?.mp hs
      have hlt := (List.getElem?_eq_some_iff.mp hi).1
      have hat : o.table.slotAt (SlotTable.slotHandle (.ofNat 32 i) s.gen) = some s :=
        (SlotTable.slotAt_slotHandle (h.index_lt hlt.le) _).trans hi
      have hgen : s.gen = SlotTable.slotGen (SlotTable.slotHandle (.ofNat 32 i) s.gen) :=
        (SlotTable.slotGen_slotHandle _ _).symm
      by_cases he : SlotTable.slotHandle (.ofNat 32 i) s.gen = ref
      · rw [he] at hat hgen
        exact .inl ⟨s, SlotTable.slotGet_of_slotAt h hpos hat hr hgen, hval⟩
      · exact .inr (.inr (.inr ⟨_, s, he, hat, hgen, hr, hval⟩))
  · rintro (⟨s, hget, hval⟩ | hv | hv | ⟨other, s, -, hat, -, hr, hval⟩)
    · obtain ⟨-, hat, hr, -⟩ := SlotTable.slotGet_eq_some hget
      exact .inr (.inr ⟨s, List.mem_of_getElem? hat, hr, hval⟩)
    · exact .inl hv
    · exact .inr (.inl hv)
    · exact .inr (.inr ⟨s, List.mem_of_getElem? hat, hr, hval⟩)

/-- What an operation lends is the value of a current handle of its table. -/
theorem RefOp.lent_current {op : RefOp} {o : Owners} (h : op.start conv o = .lends c) :
    c.owners.table = o.table ∧
      ∀ b ∈ c.lent, ∃ s, o.table.slotGet b.1 = some s ∧ s.val = b.2 := by
  have single : ∀ ref s, o.table.slotGet ref = some s →
      ∀ b ∈ [(ref, s.val)], ∃ s, o.table.slotGet b.1 = some s ∧ s.val = b.2 := by
    intro ref s hget b hb
    obtain rfl := List.mem_singleton.mp hb
    exact ⟨s, hget, rfl⟩
  cases op with
  | get ref =>
    simp only [RefOp.start, kmpjsRefGet] at h
    split at h
    · cases h
    · rename_i s hget
      cases h
      exact ⟨rfl, single ref s hget⟩
  | getIndex ref i =>
    simp only [RefOp.start, kmpjsRefGetIndex] at h
    split at h
    · cases h
    · rename_i s hget
      split at h
      · cases h
      · cases h
        exact ⟨rfl, single ref s hget⟩
  | set ref v =>
    simp only [RefOp.start, kmpjsRefSet] at h
    split at h
    · cases h
    · rename_i s hget
      split at h
      · cases h
      · cases h
        exact ⟨rfl, single ref s hget⟩
  | call ref this args =>
    simp only [RefOp.start, kmpjsRefCall] at h
    split at h
    · cases h
    · rename_i fs hget
      split at h
      · split at h
        · cases h
        · rename_i ts hts
          split at h
          · cases h
          · cases h
            refine ⟨rfl, fun b hb => ?_⟩
            rcases List.mem_cons.mp hb with rfl | hb
            · exact ⟨fs, hget, rfl⟩
            · cases ts with
              | none => simp at hb
              | some s =>
                split at hts
                · cases hts
                · simp only [Option.map_eq_some_iff, Option.some.injEq, exists_eq_right] at hts
                  exact single this s hts b (by simpa using hb)
      · cases h
  | toJson ref =>
    simp only [RefOp.start, kmpjsRefToJson] at h
    split at h
    · cases h
    · rename_i s hget
      split at h
      · cases h
      · cases h
        exact ⟨rfl, single ref s hget⟩

/-- What keeps a lent value owned: at every point of the nested code the
retains of its handle exceed the releases, or somebody else owns it. -/
def Kept (c : EngineCall) (acts : List Act) : Prop :=
  ∀ p, p <+: acts → ∀ b ∈ c.lent, ∀ s, c.owners.table.slotGet b.1 = some s →
    Covered b.1 s.refcount.toInt p ∨ OwnedElsewhere (c.during p) b.1 b.2

theorem Owners.foldl_inv {o : Owners} (h : o.table.Inv free) (acts : List Act) :
    ∃ free', (acts.foldl Owners.apply o).table.Inv free' := by
  induction acts generalizing o free with
  | nil => exact ⟨free, h⟩
  | cons a acts ih =>
    obtain ⟨free', hinv⟩ := Owners.apply_inv h a
    exact ih hinv

/-- In every reachable table and for every nested behaviour: the values lent to
the engine stay owned exactly when the nested code keeps them. -/
theorem staysOwned_iff_kept (conv : Conversions) (ops : List Op) (argv nested : List JSValue)
    (op : RefOp) (c : EngineCall) (acts : List Act)
    (hc : op.start conv ⟨SlotTable.run ops, argv, nested⟩ = .lends c) :
    StaysOwned c acts ↔ Kept c acts := by
  obtain ⟨free, hinv⟩ := SlotTable.run_inv ops
  obtain ⟨htable, hlent⟩ := RefOp.lent_current hc
  refine forall_congr' fun p => forall_congr' fun _ =>
    forall_congr' fun b => forall_congr' fun hb => ?_
  obtain ⟨s, hget, hval⟩ := hlent b hb
  have hget : c.owners.table.slotGet b.1 = some s := by rw [htable]; exact hget
  have hcinv : c.owners.table.Inv free := by rw [htable]; exact hinv
  obtain ⟨free', hpinv⟩ := Owners.foldl_inv hcinv p
  obtain ⟨hin, hout⟩ := current_iff_covered hcinv hget p
  unfold EngineCall.during
  rw [Owners.count_pos_iff hpinv (SlotTable.slotGet_eq_some hget).1]
  constructor
  · rintro (⟨s', hget', -⟩ | helse) u hu
    · rw [hget] at hu
      cases hu
      by_contra hnot
      have hgone := hout (fun hcov => hnot (.inl hcov))
      rw [hgone.slotGet_none] at hget'
      cases hget'
    · exact .inr helse
  · intro h
    rcases h s hget with hcov | helse
    · obtain ⟨s', hget', hval'⟩ := hin hcov
      exact .inl ⟨s', hget', hval'.trans hval⟩
    · exact .inr helse

/-- Engine constructors that always throw, for calls without arguments. -/
def noConversions : Conversions where
  newStringLen _ := none
  parseJSON _ := none
  bigIntCtor _ := none
  newArrayBufferCopy _ := none

/-- One function behind handle 1, called while nothing else owns it. -/
def soleFunction : EngineCall where
  lent := [(1, .object 7 .function)]
  owners := ⟨SlotTable.run [.new (.object 7 .function) true], [], []⟩

/-- The called function closes its own ref: `JS_Call` goes on with a value the
shim has already freed. -/
theorem called_function_loses_its_owner :
    (RefOp.call 1 0 []).start noConversions soleFunction.owners = .lends soleFunction ∧
      ¬ StaysOwned soleFunction [.slot (.release 1)] := by
  refine ⟨by decide, fun h => ?_⟩
  have hend := h [.slot (.release 1)] (List.prefix_refl _) (1, .object 7 .function) (by decide)
  exact absurd hend (by decide)

theorem staysOwned_iff_kept_retained :
    (RefOp.call 1 0 []).start noConversions soleFunction.owners = .lends soleFunction ∧
      (StaysOwned soleFunction [.slot (.retain 1), .slot (.release 1)] ↔
        Kept soleFunction [.slot (.retain 1), .slot (.release 1)]) :=
  ⟨by decide, staysOwned_iff_kept noConversions [.new (.object 7 .function) true] [] []
    (.call 1 0 []) soleFunction _ (by decide)⟩

end QuickJsKmp
