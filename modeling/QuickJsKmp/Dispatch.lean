import Mathlib.Data.Int.Order.Basic
import Mathlib.Order.Basic
import QuickJsKmp.Lib.Machine
import QuickJsKmp.Lib.Parties

/-!
# `registerFunction` and host dispatch

A registration puts its function at the end of a list, and the JS function object keeps
the index in its `magic`. `JS_SetPropertyStr` may then run a setter of the global object,
so other registrations can begin and end before it returns. A registration that
fails removes the last element of the list.
-/

namespace QuickJsKmp.Dispatch

open Lookups (getElem?_append_old)

/-- `Char.isLetter` and `Char.isLetterOrDigit`. -/
structure CharClasses where
  isLetter : UInt16 → Bool
  isLetterOrDigit : UInt16 → Bool

def underscore : UInt16 := 0x5F

def dollar : UInt16 := 0x24

/-- `JsEngine.isIdentifier`. -/
def isIdentifier (chars : CharClasses) : List UInt16 → Bool
  | [] => false
  | c :: cs =>
    (chars.isLetter c || c = underscore || c = dollar) &&
      (c :: cs).all fun d => chars.isLetterOrDigit d || d = underscore || d = dollar

/-- A call of `registerFunction` and the function that was passed to it. -/
structure Registration (F : Type) where
  number : ℕ
  function : F
  deriving DecidableEq, Repr

/-- A JS function object made by `kmpjs_define_function`. -/
structure HostFunction (F : Type) where
  magic : BitVec 16
  registration : Registration F
  /-- Its `registerFunction` has returned. -/
  settled : Bool
  /-- Script or the engine can still call it. -/
  alive : Bool
  deriving DecidableEq, Repr

structure Host (F : Type) where
  functions : List (Registration F)
  objects : List (HostFunction F)
  /-- The registrations in progress by their objects, the innermost first. -/
  pending : List ℕ
  registered : ℕ
  deriving DecidableEq, Repr

variable {F : Type} {chars : CharClasses} {s s' : Host F} {o : HostFunction F} {i : ℕ}

def kmpjsMaxFnId : ℕ := 0x3FFF

/-- `(fn_id << 1) | (flags & KMPJS_FLAG_REF_OBJECTS)`, as the engine stores it. -/
def magicOf (fnId : ℕ) (refObjects : Bool) : BitVec 16 :=
  BitVec.ofNat 16 (fnId <<< 1 ||| refObjects.toNat)

/-- `magic >> 1` in `js_kmp_host`. -/
def HostFunction.fnId (o : HostFunction F) : ℤ := o.magic.toInt >>> (1 : ℕ)

/-- `functions[id]` in `onHostCall`: the function that a call of the object invokes. The call
fails if there is none. -/
def Host.invokes (s : Host F) (o : HostFunction F) : Option (Registration F) :=
  if 0 ≤ o.fnId then s.functions[o.fnId.toNat]? else none

/-- `functions.removeAt(functions.size - 1)`. -/
def Host.rollback (s : Host F) : Host F := { s with functions := s.functions.dropLast }

inductive Act (F : Type)
  /-- `registerFunction`, up to the property of the global object. -/
  | register (name : List UInt16) (refObjects : Bool) (function : F) (allocates : Bool)
  /-- `JS_SetPropertyStr` succeeds. -/
  | defined
  /-- It fails, and script has kept the object or not. -/
  | failed (kept : Bool)
  /-- `registerFunction` ends with a throwable that is no `JsException`. -/
  | thrown (kept : Bool)
  /-- Script lets an object go. -/
  | drop (i : ℕ)

def HostFunction.settle (o : HostFunction F) : HostFunction F := { o with settled := true }

def HostFunction.keep (kept : Bool) (o : HostFunction F) : HostFunction F := { o with alive := kept }

def Host.step (chars : CharClasses) (s : Host F) : Act F → Option (Host F)
  | .register name refObjects function allocates =>
    if isIdentifier chars name then
      let registration := ⟨s.registered, function⟩
      let s := { s with functions := s.functions ++ [registration], registered := s.registered + 1 }
      let fnId := s.functions.length - 1
      if fnId > kmpjsMaxFnId ∨ allocates = false then some s.rollback
      else
        some { s with objects := s.objects ++ [⟨magicOf fnId refObjects, registration, false, true⟩]
                      pending := s.objects.length :: s.pending }
    else some s
  | .defined =>
    match s.pending with
    | i :: pending => some { s with objects := s.objects.modify i HostFunction.settle, pending }
    | [] => none
  | .failed kept =>
    match s.pending with
    | i :: pending => some { s.rollback with objects := s.objects.modify i (HostFunction.keep kept), pending }
    | [] => none
  | .thrown kept =>
    match s.pending with
    | i :: pending => some { s with objects := s.objects.modify i (HostFunction.keep kept), pending }
    | [] => none
  | .drop i =>
    if i ∈ s.pending then none
    else some { s with objects := s.objects.modify i (HostFunction.keep false) }

def init : Host F := ⟨[], [], [], 0⟩

/-- The object invokes the function of its own registration or fails, and it does not
fail once the registration has succeeded. -/
def Faithful (s : Host F) (o : HostFunction F) : Prop :=
  (∀ r ∈ s.invokes o, r = o.registration) ∧ (o.settled → s.invokes o = some o.registration)

def Stable (s : Host F) : Prop := ∀ o ∈ s.objects, o.alive → Faithful s o

/-- The steps that keep dispatch stable: no registration takes an index that an object which can
still be called has, and none fails after one that was nested in it has succeeded. -/
def Safe (chars : CharClasses) (s : Host F) : Act F → Prop
  | .register name _ _ allocates =>
    isIdentifier chars name → allocates → s.functions.length ≤ kmpjsMaxFnId →
      ∀ o ∈ s.objects, o.alive → o.fnId ≠ s.functions.length
  | .failed _ => ∀ o ∈ s.objects, o.alive → o.settled → o.fnId + 1 ≠ s.functions.length
  | _ => True

instance (s : Host F) (a : Act F) : Decidable (Safe chars s a) := by
  cases a <;> unfold Safe <;> infer_instance

-- ---------------------------------------------------------------------------
-- The index in `magic`
-- ---------------------------------------------------------------------------

theorem toNat_magicOf (h : n ≤ kmpjsMaxFnId) (b : Bool) :
    (magicOf n b).toNat = 2 * n + b.toNat := by
  have hb : b.toNat < 2 ^ 1 := by cases b <;> decide
  unfold kmpjsMaxFnId at h
  rw [magicOf, ← Nat.shiftLeft_add_eq_or_of_lt hb, Nat.shiftLeft_eq, BitVec.toNat_ofNat]
  omega

theorem fnId_magicOf (h : n ≤ kmpjsMaxFnId) (b : Bool) (r : Registration F) (settled alive : Bool) :
    (HostFunction.mk (magicOf n b) r settled alive).fnId = n := by
  have hb : b.toNat < 2 := by cases b <;> decide
  have hnat := toNat_magicOf h b
  unfold kmpjsMaxFnId at h
  show (magicOf n b).toInt >>> (1 : ℕ) = n
  rw [BitVec.toInt_eq_toNat_of_lt (by omega), hnat, Int.shiftRight_eq_div_pow]
  omega

theorem invokes_of_fnId {n : ℕ} (h : o.fnId = n) : s.invokes o = s.functions[n]? := by
  simp [Host.invokes, h]

theorem faithful_of_invokes (h : s.invokes o = some o.registration) : Faithful s o :=
  ⟨fun _ hr => Option.some.inj ((Option.mem_def.mp hr).symm.trans h), fun _ => h⟩

-- ---------------------------------------------------------------------------
-- Registrations in progress
-- ---------------------------------------------------------------------------

/-- Registrations in progress have their functions at growing indices below the bound. -/
inductive Nested (functions : List (Registration F)) (objects : List (HostFunction F)) : ℕ → List ℕ → Prop
  | nil : Nested functions objects bound []
  | cons {i n : ℕ} {o : HostFunction F} (hi : objects[i]? = some o) (hsettled : o.settled = false) (hfnId : o.fnId = n)
      (hown : functions[n]? = some o.registration) (hlt : n < bound)
      (hrest : Nested functions objects n pending) : Nested functions objects bound (i :: pending)

variable {functions functions' : List (Registration F)} {objects objects' : List (HostFunction F)}

theorem Nested.mono (h : Nested functions objects bound pending) (hle : bound ≤ bound') :
    Nested functions objects bound' pending := by
  cases h with
  | nil => exact .nil
  | cons hi hsettled hfnId hown hlt hrest =>
    exact .cons hi hsettled hfnId hown (Nat.lt_of_lt_of_le hlt hle) hrest

theorem Nested.fnId_lt (h : Nested functions objects bound pending) (hj : j ∈ pending)
    (ho : objects[j]? = some o) : o.fnId < bound := by
  induction h with
  | nil => cases hj
  | cons hi hsettled hfnId hown hlt hrest ih =>
    rcases List.mem_cons.mp hj with rfl | hj
    · obtain rfl := Option.some.inj (hi.symm.trans ho)
      omega
    · have hsmall := ih hj
      omega

/-- Only what the objects were made with matters, and the functions below the bound. -/
theorem Nested.congr (h : Nested functions objects bound pending)
    (hobjects : ∀ j ∈ pending, ∀ o, objects[j]? = some o → ∃ o', objects'[j]? = some o' ∧
      o'.magic = o.magic ∧ o'.registration = o.registration ∧ o'.settled = o.settled)
    (hfunctions : ∀ n < bound, functions'[n]? = functions[n]?) :
    Nested functions' objects' bound pending := by
  induction h with
  | nil => exact .nil
  | cons hi hsettled hfnId hown hlt hrest ih =>
    obtain ⟨o', hi', hmagic, hregistration, hsettled'⟩ := hobjects _ List.mem_cons_self _ hi
    refine .cons hi' (hsettled'.trans hsettled) (n := _) ?_ ?_ hlt ?_
    · simpa [HostFunction.fnId, hmagic] using hfnId
    · rw [hfunctions _ hlt, hown, hregistration]
    · refine ih (fun j hj => hobjects j (List.mem_cons_of_mem _ hj)) fun n hn => ?_
      exact hfunctions n (Nat.lt_trans hn hlt)

/-- An object that is not among them may change. -/
theorem Nested.modify (h : Nested functions objects n pending) (hi : i ∉ pending)
    (hfunctions : ∀ m < n, functions'[m]? = functions[m]?) (f : HostFunction F → HostFunction F) :
    Nested functions' (objects.modify i f) n pending := by
  refine h.congr (fun j hj o ho => ?_) hfunctions
  have hne : i ≠ j := by
    rintro rfl
    exact hi hj
  exact ⟨o, by simp [hne, ho], rfl, rfl, rfl⟩

theorem mem_modify_cases {f : HostFunction F → HostFunction F} (h : o ∈ objects.modify i f) :
    o ∈ objects ∨ ∃ p, objects[i]? = some p ∧ o = f p := by
  obtain ⟨j, hj⟩ := List.mem_iff_getElem?.mp h
  rw [List.getElem?_modify] at hj
  split at hj
  · obtain ⟨p, hp, rfl⟩ := Option.map_eq_some_iff.mp hj
    rename_i hij
    exact .inr ⟨p, hij ▸ hp, rfl⟩
  · exact .inl (List.mem_of_getElem? (by simpa using hj))

-- ---------------------------------------------------------------------------
-- The invariant
-- ---------------------------------------------------------------------------

structure Inv (s : Host F) : Prop where
  stable : Stable s
  fresh : ∀ o ∈ s.objects, o.registration.number < s.registered
  index : ∀ o ∈ s.objects, ∃ n : ℕ, o.fnId = n
  nested : Nested s.functions s.objects s.functions.length s.pending

theorem init_inv : Inv (init : Host F) where
  stable := by simp [Stable, init]
  fresh := by simp [init]
  index := by simp [init]
  nested := .nil

/-- The object of the innermost registration in progress. -/
theorem Inv.innermost (h : Inv s) (hpending : s.pending = i :: pending) :
    ∃ (o : HostFunction F) (n : ℕ), s.objects[i]? = some o ∧ o.settled = false ∧ o.fnId = n ∧
      s.functions[n]? = some o.registration ∧ n < s.functions.length ∧ i ∉ pending ∧
      Nested s.functions s.objects n pending := by
  have hnested := h.nested
  rw [hpending] at hnested
  cases hnested with
  | cons hi hsettled hfnId hown hlt hrest =>
    refine ⟨_, _, hi, hsettled, hfnId, hown, hlt, fun hmem => ?_, hrest⟩
    have hsmall := hrest.fnId_lt hmem hi
    omega

/-- A step that changes an object's flags, and perhaps the functions. -/
theorem Inv.modify (h : Inv s) (functions : List (Registration F))
    {f : HostFunction F → HostFunction F}
    (hf : ∀ o, (f o).magic = o.magic ∧ (f o).registration = o.registration)
    (hnested : Nested functions (s.objects.modify i f) functions.length pending)
    (hstable : Stable ⟨functions, s.objects.modify i f, pending, s.registered⟩) :
    Inv ⟨functions, s.objects.modify i f, pending, s.registered⟩ where
  stable := hstable
  fresh := by
    intro o ho
    rcases mem_modify_cases ho with ho | ⟨p, hp, rfl⟩
    · exact h.fresh o ho
    · rw [(hf p).2]
      exact h.fresh p (List.mem_of_getElem? hp)
  index := by
    intro o ho
    rcases mem_modify_cases ho with ho | ⟨p, hp, rfl⟩
    · exact h.index o ho
    · obtain ⟨n, hn⟩ := h.index p (List.mem_of_getElem? hp)
      exact ⟨n, by simpa [HostFunction.fnId, (hf p).1] using hn⟩
  nested := hnested

/-- The innermost registration ends, and its object is one that invokes its own function. -/
theorem Inv.ended (h : Inv s) (hpending : s.pending = i :: pending)
    {f : HostFunction F → HostFunction F}
    (hf : ∀ o, (f o).magic = o.magic ∧ (f o).registration = o.registration)
    (hinvokes : ∀ o, s.invokes o = some o.registration →
      s.invokes (f o) = some (f o).registration) :
    Inv { s with objects := s.objects.modify i f, pending } := by
  obtain ⟨o, n, hi, hsettled, hfnId, hown, hlt, hmem, hrest⟩ := h.innermost hpending
  refine h.modify s.functions hf ?_ ?_
  · exact (hrest.modify hmem (fun _ _ => rfl) _).mono (Nat.le_of_lt hlt)
  · intro p hp halive
    rcases mem_modify_cases hp with hp | ⟨q, hq, rfl⟩
    · exact h.stable p hp halive
    · obtain rfl : o = q := Option.some.inj (hi.symm.trans hq)
      have hown' : s.invokes o = some o.registration := by rw [invokes_of_fnId hfnId, hown]
      exact faithful_of_invokes (hinvokes o hown')

theorem Inv.defined (h : Inv s) (hpending : s.pending = i :: pending) :
    Inv { s with objects := s.objects.modify i HostFunction.settle, pending } :=
  h.ended hpending (fun _ => ⟨rfl, rfl⟩) fun _ hown => hown

theorem Inv.thrown (h : Inv s) (hpending : s.pending = i :: pending) (kept : Bool) :
    Inv { s with objects := s.objects.modify i (HostFunction.keep kept), pending } :=
  h.ended hpending (fun _ => ⟨rfl, rfl⟩) fun _ hown => hown

theorem Inv.drop (h : Inv s) (hi : i ∉ s.pending) :
    Inv { s with objects := s.objects.modify i (HostFunction.keep false) } := by
  refine h.modify s.functions (fun _ => ⟨rfl, rfl⟩) (h.nested.modify hi (fun _ _ => rfl) _) ?_
  intro p hp halive
  rcases mem_modify_cases hp with hp | ⟨q, hq, rfl⟩
  · exact h.stable p hp halive
  · cases halive

-- ---------------------------------------------------------------------------
-- Where it takes care
-- ---------------------------------------------------------------------------

theorem rollback_invokes {n : ℕ} (h : o.fnId = n) :
    s.rollback.invokes o = if n + 1 < s.functions.length then s.invokes o else none := by
  rw [invokes_of_fnId h, invokes_of_fnId h]
  show s.functions.dropLast[n]? = _
  rw [List.getElem?_dropLast]
  split <;> split <;> first | rfl | omega

/-- The function of the failed registration is dropped, or that of the last one nested in it. -/
theorem Inv.failed (h : Inv s) (hpending : s.pending = i :: pending) (kept : Bool)
    (hsafe : ∀ o ∈ s.objects, o.alive → o.settled → o.fnId + 1 ≠ s.functions.length) :
    Inv { s.rollback with objects := s.objects.modify i (HostFunction.keep kept), pending } := by
  obtain ⟨o, n, hi, hsettled, hfnId, hown, hlt, hmem, hrest⟩ := h.innermost hpending
  refine h.modify s.functions.dropLast (fun _ => ⟨rfl, rfl⟩) ?_ ?_
  · refine (hrest.modify hmem (fun m hm => ?_) _).mono ?_
    · rw [List.getElem?_dropLast, if_pos (by omega)]
    · rw [List.length_dropLast]
      omega
  · intro p hp halive
    rcases mem_modify_cases hp with hp | ⟨q, hq, rfl⟩
    · obtain ⟨m, hm⟩ := h.index p hp
      obtain ⟨hown, hkept⟩ := h.stable p hp halive
      show (∀ r ∈ s.rollback.invokes p, _) ∧ (_ → s.rollback.invokes p = _)
      rw [rollback_invokes hm]
      split
      · exact ⟨hown, hkept⟩
      · refine ⟨by simp, fun hsettled => absurd (hkept hsettled) ?_⟩
        have hne := hsafe p hp halive hsettled
        rw [invokes_of_fnId hm, List.getElem?_eq_none (by omega)]
        simp
    · obtain rfl : o = q := Option.some.inj (hi.symm.trans hq)
      show (∀ r ∈ s.rollback.invokes o, _) ∧ (o.settled → s.rollback.invokes o = _)
      rw [rollback_invokes hfnId, hsettled]
      refine ⟨fun r hr => ?_, by simp⟩
      split at hr
      · rw [invokes_of_fnId hfnId, hown] at hr
        exact (Option.some.inj hr).symm
      · cases hr

/-- The state in which `JS_SetPropertyStr` is called. -/
def Host.opened (s : Host F) (refObjects : Bool) (function : F) : Host F where
  functions := s.functions ++ [⟨s.registered, function⟩]
  objects := s.objects ++ [⟨magicOf s.functions.length refObjects, ⟨s.registered, function⟩, false, true⟩]
  pending := s.objects.length :: s.pending
  registered := s.registered + 1

theorem opened_invokes {n : ℕ} (h : o.fnId = n) (hne : n ≠ s.functions.length) :
    (s.opened refObjects function).invokes o = s.invokes o := by
  rw [invokes_of_fnId h, invokes_of_fnId h]
  show (s.functions ++ [_])[n]? = _
  rcases Nat.lt_or_gt_of_ne hne with hlt | hgt
  · rw [List.getElem?_append_left hlt]
  · rw [List.getElem?_eq_none (by simp; omega), List.getElem?_eq_none (by omega)]

theorem opened_nested (h : Inv s) (hmax : s.functions.length ≤ kmpjsMaxFnId) (refObjects : Bool)
    (function : F) :
    Nested (s.opened refObjects function).functions (s.opened refObjects function).objects
      (s.functions.length + 1) (s.objects.length :: s.pending) := by
  have hnew : (s.opened refObjects function).objects[s.objects.length]? =
      some ⟨magicOf s.functions.length refObjects, ⟨s.registered, function⟩, false, true⟩ := by
    simp [Host.opened]
  refine .cons hnew rfl (fnId_magicOf hmax refObjects _ _ _) ?_ (Nat.lt_succ_self _) ?_
  · simp [Host.opened]
  · refine h.nested.congr (fun j hj o ho => ⟨o, getElem?_append_old ho, rfl, rfl, rfl⟩) fun n hn => ?_
    exact List.getElem?_append_left hn

theorem Inv.opened (h : Inv s) (hmax : s.functions.length ≤ kmpjsMaxFnId) (refObjects : Bool)
    (function : F)
    (hsafe : ∀ o ∈ s.objects, o.alive → o.fnId ≠ s.functions.length) :
      Inv (s.opened refObjects function) where
  stable := by
    intro o ho halive
    rcases List.mem_append.mp ho with ho | ho
    · obtain ⟨n, hn⟩ := h.index o ho
      have hne := hsafe o ho halive
      unfold Faithful
      rw [opened_invokes hn (by rw [hn] at hne; exact_mod_cast hne)]
      exact h.stable o ho halive
    · obtain rfl := List.mem_singleton.mp ho
      refine faithful_of_invokes ?_
      rw [invokes_of_fnId (fnId_magicOf hmax refObjects _ _ _)]
      simp [Host.opened]
  fresh := by
    intro o ho
    rcases List.mem_append.mp ho with ho | ho
    · exact Nat.lt_succ_of_lt (h.fresh o ho)
    · obtain rfl := List.mem_singleton.mp ho
      exact Nat.lt_succ_self _
  index := by
    intro o ho
    rcases List.mem_append.mp ho with ho | ho
    · exact h.index o ho
    · obtain rfl := List.mem_singleton.mp ho
      exact ⟨_, fnId_magicOf hmax refObjects _ _ _⟩
  nested := by
    show Nested _ _ (s.functions ++ [_]).length _
    rw [List.length_append]
    exact opened_nested h hmax refObjects function

/-- `registerFunction` changes nothing, or it opens a registration. -/
theorem step_register (s : Host F) (name : List UInt16) (refObjects : Bool) (function : F)
    (allocates : Bool) :
    s.step chars (.register name refObjects function allocates) =
      some (if isIdentifier chars name ∧ allocates ∧ s.functions.length ≤ kmpjsMaxFnId
        then s.opened refObjects function
        else if isIdentifier chars name then { s with registered := s.registered + 1 } else s) := by
  simp only [Host.step]
  cases hname : isIdentifier chars name with
  | false => simp
  | true =>
    cases allocates with
    | false => simp [Host.rollback]
    | true =>
      by_cases hmax : s.functions.length ≤ kmpjsMaxFnId
      · simp [hmax, Nat.not_lt.mpr hmax, Host.opened]
      · simp [hmax, Nat.lt_of_not_le hmax, Host.rollback]

theorem Inv.count (h : Inv s) : Inv { s with registered := s.registered + 1 } where
  stable := h.stable
  fresh := fun o ho => Nat.lt_succ_of_lt (h.fresh o ho)
  index := h.index
  nested := h.nested

theorem step_inv (h : Inv s) (hsafe : Safe chars s a)
    (hstep : s.step chars a = some s') : Inv s' := by
  cases a with
  | register name refObjects function allocates =>
    rw [step_register] at hstep
    obtain rfl := Option.some.inj hstep
    split
    · rename_i hopens
      obtain ⟨hname, hallocates, hmax⟩ := hopens
      exact h.opened hmax refObjects function (hsafe hname hallocates hmax)
    · split
      · exact h.count
      · exact h
  | defined =>
    simp only [Host.step] at hstep
    split at hstep
    · exact (Option.some.inj hstep) ▸ h.defined ‹_›
    · cases hstep
  | failed kept =>
    simp only [Host.step] at hstep
    split at hstep
    · exact (Option.some.inj hstep) ▸ h.failed ‹_› kept hsafe
    · cases hstep
  | thrown kept =>
    simp only [Host.step] at hstep
    split at hstep
    · exact (Option.some.inj hstep) ▸ h.thrown ‹_› kept
    · cases hstep
  | drop i =>
    simp only [Host.step] at hstep
    split at hstep
    · cases hstep
    · exact (Option.some.inj hstep) ▸ h.drop ‹_›

-- ---------------------------------------------------------------------------
-- And where it has to
-- ---------------------------------------------------------------------------

theorem safe_of_step (h : Inv s) (hstep : s.step chars a = some s') (hstable : Stable s') :
    Safe chars s a := by
  cases a with
  | register name refObjects function allocates =>
    intro hname hallocates hmax o ho halive hfnId
    rw [step_register, if_pos ⟨hname, hallocates, hmax⟩] at hstep
    obtain rfl := Option.some.inj hstep
    -- the old object invokes the new function
    have hnew : (s.opened refObjects function).invokes o = some ⟨s.registered, function⟩ := by
      rw [invokes_of_fnId hfnId]
      simp [Host.opened]
    have hsame := (hstable o (List.mem_append_left _ ho) halive).1 _ hnew
    have hfresh := h.fresh o ho
    rw [← hsame] at hfresh
    exact Nat.lt_irrefl _ hfresh
  | failed kept =>
    intro p hp halive hsettled hlast
    simp only [Host.step] at hstep
    split at hstep
    · rename_i i pending hpending
      obtain rfl := Option.some.inj hstep
      obtain ⟨o, n, hi, hopen, -⟩ := h.innermost hpending
      obtain ⟨m, hm⟩ := h.index p hp
      have hstays : p ∈ s.objects.modify i (HostFunction.keep kept) := by
        obtain ⟨j, hj⟩ := List.mem_iff_getElem?.mp hp
        have hne : i ≠ j := by
          rintro rfl
          obtain rfl : o = p := Option.some.inj (hi.symm.trans hj)
          simp [hsettled] at hopen
        exact List.mem_of_getElem? (i := j) (by simp [hne, hj])
      have hown : s.rollback.invokes p = some p.registration := (hstable p hstays halive).2 hsettled
      rw [rollback_invokes hm, if_neg (by omega)] at hown
      cases hown
    · cases hstep
  | _ => trivial

/-- A run whose steps are safe keeps dispatch stable, and a step keeps it exactly if it is
safe. -/
theorem dispatch_stable (h : Machine.Reaches (Host.step chars) (Safe chars) (init : Host F) s) :
    Stable s ∧ ∀ a s', s.step chars a = some s' → (Stable s' ↔ Safe chars s a) := by
  have hs : Inv s := h.invariant init_inv fun hs hsafe hstep => step_inv hs hsafe hstep
  refine ⟨hs.stable, fun a s' hstep => ⟨safe_of_step hs hstep, fun hsafe => ?_⟩⟩
  exact (step_inv hs hsafe hstep).stable

def anyLetter : CharClasses := ⟨fun _ => true, fun _ => true⟩

/-- After a registration that failed, and one that took its index. -/
def retaken (kept : Bool) : Host Bool :=
  ⟨[⟨1, false⟩], [⟨0, ⟨0, true⟩, false, kept⟩, ⟨0, ⟨1, false⟩, true, true⟩], [], 2⟩

theorem dispatch_stable_retaken :
    Stable (retaken false) ∧ ∀ a s', (retaken false).step anyLetter a = some s' →
      (Stable s' ↔ Safe anyLetter (retaken false) a) := by
  refine dispatch_stable (Machine.reaches_of_exec (l :=
    [.register [dollar] false true true, .failed false, .register [dollar] false false true,
      .defined]) ?_)
  decide +kernel

/-- The setter of the first registration has kept the object and thrown. -/
theorem kept_object_invokes_another :
    ¬ ∀ s : Host Bool, Machine.Reaches (Host.step anyLetter) Machine.always init s → Stable s := by
  intro h
  have hrun : Machine.exec (Host.step anyLetter) Machine.always init
      [.register [dollar] false true true, .failed true,
        .register [dollar] false false true, .defined] =
      some (retaken true) := by decide +kernel
  have hfirst := (h _ (Machine.reaches_of_exec hrun) ⟨0, ⟨0, true⟩, false, true⟩ (by decide) rfl).1 ⟨1, false⟩ rfl
  cases hfirst

end QuickJsKmp.Dispatch
