import QuickJsKmp.Handles

/-!
# A closed `JsRef` in its five roles

A `JsRef` is the receiver of an operation, the `thisArg` or an argument of `invoke`,
the value of `set`, or the result of a host function. Each role has its own checks
on the Kotlin side, and the shim checks the slots of the receiver and of
`thisArg` before it enters the engine.
-/

namespace QuickJsKmp.Handles

/-- A `JsRef` of this engine, or of another one. -/
inductive Operand
  | own (i : ℕ)
  | foreign
  deriving DecidableEq, Repr

/-- An operation of this engine; a value that is no ref is `none`. -/
inductive Operation
  /-- `get` and `toJson`. -/
  | get (receiver : ℕ)
  | set (receiver : ℕ) (value : Option Operand)
  | invoke (receiver : ℕ) (thisArg : Option Operand) (args : List (Option Operand))
  | retain (receiver : ℕ)
  | hostResult (value : Option Operand)
  deriving DecidableEq, Repr

inductive Refusal
  | closed
  | anotherEngine
  | invalid
  | notFunction
  | invalidThis
  deriving DecidableEq, Repr

/-- The check of `JsRef.op`. -/
def checkReceiver (s : Holding) (i : ℕ) : Except Refusal Ref :=
  match s.refs[i]? with
  | some r => if r.closed then .error .closed else .ok r
  | none => .error .closed

def checkOwned : Operand → Except Refusal Unit
  | .own _ => .ok ()
  | .foreign => .error .anotherEngine

/-- The checks of `encode`. -/
def encode (s : Holding) : Option Operand → Except Refusal Unit
  | none => .ok ()
  | some o => do
    checkOwned o
    match o with
    | .own i => (checkReceiver s i).map fun _ => ()
    | .foreign => .ok ()

def encodeAll (s : Holding) : List (Option Operand) → Except Refusal Unit
  | [] => .ok ()
  | v :: vs => do
    encode s v
    encodeAll s vs

/-- The shim's check of a receiver. -/
def checkSlot (s : Holding) (r : Ref) (refusal : Refusal) : Except Refusal Slot :=
  match s.table.slotGet r.handle with
  | some slot => .ok slot
  | none => .error refusal

def checkThis (s : Holding) : Option Operand → Except Refusal Unit
  | some (.own j) =>
    match s.refs[j]? with
    | some r => (checkSlot s r .invalidThis).map fun _ => ()
    | none => .error .invalidThis
  | _ => .ok ()

/-- Everything that is checked before the engine does anything. -/
def enter (s : Holding) : Operation → Except Refusal Unit
  | .get i => do
    let r ← checkReceiver s i
    let _ ← checkSlot s r .invalid
    .ok ()
  | .set i value => do
    let r ← checkReceiver s i
    encode s value
    let _ ← checkSlot s r .invalid
    .ok ()
  | .invoke i thisArg args => do
    let r ← checkReceiver s i
    thisArg.forM checkOwned
    encodeAll s args
    let slot ← checkSlot s r .invalid
    if slot.val.isFunction then checkThis s thisArg else .error .notFunction
  | .retain i => (checkReceiver s i).map fun _ => ()
  | .hostResult value => encode s value

/-- An operation with what the engine does when it is let through. -/
def perform (native : Operation → Holding → Holding) (s : Holding) (op : Operation) :
    Except Refusal Unit × Holding :=
  match enter s op with
  | .error e => (.error e, s)
  | .ok () => (.ok (), native op s)

/-- The operation fails and has no effect on the engine. -/
def Refused (native : Operation → Holding → Holding) (s : Holding) (op : Operation) : Prop :=
  ∃ e, perform native s op = (.error e, s)

/-- The refs the operation takes, in whatever role. -/
def Operation.operands : Operation → List Operand
  | .get i | .retain i => [.own i]
  | .set i value => .own i :: value.toList
  | .invoke i thisArg args => .own i :: (thisArg.toList ++ args.flatMap Option.toList)
  | .hostResult value => value.toList

/-- A closed `thisArg` whose slot is still in use, in an `invoke` that would be let through
without it. -/
def ThisAlive (s : Holding) : Operation → Prop
  | .invoke i (some (.own j)) args =>
    (∃ r, s.refs[j]? = some r ∧ r.closed ∧ (s.table.slotGet r.handle).isSome) ∧
      enter s (.invoke i none args) = .ok ()
  | _ => False

variable {native : Operation → Holding → Holding} {s s' t : Holding} {op : Operation} {i : ℕ}

theorem refused_iff : Refused native s op ↔ enter s op ≠ .ok () := by
  unfold Refused perform
  cases h : enter s op with
  | error e => simp
  | ok u => simp

-- ---------------------------------------------------------------------------
-- A closed ref stays closed
-- ---------------------------------------------------------------------------

def Shut (s : Holding) (i : ℕ) : Prop := ∃ r, s.refs[i]? = some r ∧ r.closed

theorem shut_append (h : Shut s i) : ∃ r, (s.refs ++ more)[i]? = some r ∧ r.closed := by
  obtain ⟨r, hr, hclosed⟩ := h
  exact ⟨r, by rw [List.getElem?_append_left (List.getElem?_eq_some_iff.mp hr).1, hr], hclosed⟩

theorem step_shut (h : Shut s i) (hstep : s.step a = some s') : Shut s' i := by
  obtain ⟨r, hr, hclosed⟩ := h
  cases Holding.step_cases hstep with
  | handOut v grow =>
    unfold Shut
    simp only
    split
    · exact ⟨r, hr, hclosed⟩
    · exact shut_append ⟨r, hr, hclosed⟩
  | close j =>
    obtain ⟨r', hr', -, -, hstays⟩ := closeRef_stays s j hr
    exact ⟨r', hr', hstays (.inl hclosed)⟩
  | @complete c =>
    obtain ⟨r', hr', -, -, hstays⟩ := closeAll_stays s c.objects hr
    exact ⟨r', hr', hstays (.inl hclosed)⟩
  | retain | invoke => exact shut_append ⟨r, hr, hclosed⟩
  | loseResult | beginCall | convert | endCall => exact ⟨r, hr, hclosed⟩

theorem reaches_shut (h : Machine.Reaches Holding.step Machine.always s t)
    (hs : Shut s i) : Shut t i :=
  h.invariant (I := fun s => Shut s i) hs fun hs _ hstep => step_shut hs hstep

/-- The ref is closed by this step: explicitly, or because it was an argument of a host
function that has returned. -/
def Closes (s : Holding) (i : ℕ) : Act → Prop
  | .close j => j = i
  | .complete => ∃ c ∈ s.calls.head?, i ∈ c.objects
  | _ => False

theorem closes_shut (hi : s.refs[i]? = some r) (hclose : Closes s i a)
    (hstep : s.step a = some s') :
    Shut s' i := by
  cases Holding.step_cases hstep with
  | close j =>
    obtain rfl := hclose
    obtain ⟨r', hr', -, -, hstays⟩ := closeRef_stays s j hi
    exact ⟨r', hr', hstays (.inr rfl)⟩
  | @complete c calls top =>
    obtain ⟨c', hc, hmem⟩ := hclose
    obtain rfl : c = c' := by simpa [top] using hc
    obtain ⟨r', hr', -, -, hstays⟩ := closeAll_stays s c.objects hi
    exact ⟨r', hr', hstays (.inr hmem)⟩
  | _ => cases hclose

-- ---------------------------------------------------------------------------
-- The roles
-- ---------------------------------------------------------------------------

theorem bind_ok {ε α β : Type} {m : Except ε α} {k : α → Except ε β} {b : β} :
    m >>= k = .ok b ↔ ∃ a, m = .ok a ∧ k a = .ok b := by
  cases m with
  | error e => simp [bind, Except.bind]
  | ok a => simp [bind, Except.bind]

theorem map_ok {ε α : Type} {m : Except ε α} :
    m.map (fun _ => ()) = .ok () ↔ ∃ a, m = .ok a := by
  cases m <;> simp [Except.map]

theorem checkReceiver_shut (h : Shut s i) : checkReceiver s i = .error .closed := by
  obtain ⟨r, hr, hclosed⟩ := h
  simp [checkReceiver, hr, hclosed]

/-- Closed, or of another engine. -/
def Unusable (s : Holding) : Operand → Prop
  | .own i => Shut s i
  | .foreign => True

theorem encode_unusable {o : Operand} (h : Unusable s o) : encode s (some o) ≠ .ok () := by
  cases o with
  | own i => simp [encode, checkOwned, checkReceiver_shut h, Except.map, bind, Except.bind]
  | foreign => simp [encode, checkOwned, bind, Except.bind]

theorem encodeAll_ok {args : List (Option Operand)} (h : encodeAll s args = .ok ())
    (hv : v ∈ args) :
    encode s v = .ok () := by
  induction args with
  | nil => cases hv
  | cons u args ih =>
    obtain ⟨_, hu, hrest⟩ := bind_ok.mp h
    rcases List.mem_cons.mp hv with rfl | hv
    · exact hu
    · exact ih hrest hv

/-- The receiver, the arguments and the function of an `invoke`. -/
theorem enter_invoke_none {args : List (Option Operand)} :
    enter s (.invoke i none args) = .ok () ↔
      ∃ r slot, checkReceiver s i = .ok r ∧ encodeAll s args = .ok () ∧
        checkSlot s r .invalid = .ok slot ∧ slot.val.isFunction := by
  unfold enter
  simp only [bind_ok, checkThis]
  constructor
  · rintro ⟨r, hr, _, -, _, hargs, slot, hslot, hfunction⟩
    refine ⟨r, slot, hr, hargs, hslot, ?_⟩
    by_contra hnot
    simp [hnot] at hfunction
  · rintro ⟨r, slot, hr, hargs, hslot, hfunction⟩
    exact ⟨r, hr, (), rfl, (), hargs, slot, hslot, by simp [hfunction]⟩

/-- A `thisArg` adds its two checks. -/
theorem enter_invoke_some {o : Operand} {args : List (Option Operand)} :
    enter s (.invoke i (some o) args) = .ok () ↔
      checkOwned o = .ok () ∧ checkThis s (some o) = .ok () ∧
        enter s (.invoke i none args) = .ok () := by
  rw [enter_invoke_none]
  unfold enter
  simp only [bind_ok]
  constructor
  · rintro ⟨r, hr, _, hthis, _, hargs, slot, hslot, hfunction⟩
    cases h : slot.val.isFunction with
    | false => simp [h] at hfunction
    | true => exact ⟨hthis, by simpa [h] using hfunction, r, slot, hr, hargs, hslot, h⟩
  · rintro ⟨hthis, halive, r, slot, hr, hargs, hslot, hfunction⟩
    exact ⟨r, hr, (), hthis, (), hargs, slot, hslot, by simp [hfunction, halive]⟩

theorem checkThis_shut {j : ℕ} (h : Shut s j) :
    checkThis s (some (.own j)) = .ok () ↔
      ∃ r, s.refs[j]? = some r ∧ r.closed ∧ (s.table.slotGet r.handle).isSome := by
  obtain ⟨r, hr, hclosed⟩ := h
  cases hget : s.table.slotGet r.handle with
  | none => simp [checkThis, checkSlot, hr, hget, Except.map]
  | some slot => simp [checkThis, checkSlot, hr, hclosed, hget, Except.map]

/-- No operation is let through with an unusable ref, but for `thisArg`. -/
theorem enter_unusable {o : Operand} (ho : Unusable s o) (hmem : o ∈ op.operands)
    (hok : enter s op = .ok ()) : ThisAlive s op := by
  have hreceiver : ∀ {i r}, checkReceiver s i = .ok r → o ≠ .own i := by
    rintro i r hr rfl
    rw [checkReceiver_shut ho] at hr
    cases hr
  have hvalue : ∀ {v : Option Operand}, encode s v = .ok () → v ≠ some o := by
    rintro v hv rfl
    exact encode_unusable ho hv
  cases op with
  | get j =>
    obtain ⟨r, hr, -⟩ := bind_ok.mp hok
    exact absurd (List.mem_singleton.mp hmem) (hreceiver hr)
  | retain j =>
    obtain ⟨r, hr⟩ := map_ok.mp hok
    exact absurd (List.mem_singleton.mp hmem) (hreceiver hr)
  | set j value =>
    obtain ⟨r, hr, hrest⟩ := bind_ok.mp hok
    obtain ⟨_, hv, -⟩ := bind_ok.mp hrest
    rcases List.mem_cons.mp hmem with h | h
    · exact absurd h (hreceiver hr)
    · exact absurd (Option.mem_toList.mp h) (hvalue hv)
  | hostResult value => exact absurd (Option.mem_toList.mp hmem) (hvalue hok)
  | invoke j thisArg args =>
    have hnone : enter s (.invoke j none args) = .ok () := by
      cases thisArg with
      | none => exact hok
      | some p => exact (enter_invoke_some.mp hok).2.2
    obtain ⟨r, slot, hr, hargs, -⟩ := enter_invoke_none.mp hnone
    simp only [Operation.operands, List.mem_cons, List.mem_append, List.mem_flatMap,
      Option.mem_toList] at hmem
    rcases hmem with h | h | ⟨v, hv, h⟩
    · exact absurd h (hreceiver hr)
    · obtain rfl := h
      obtain ⟨howned, hthis, -⟩ := enter_invoke_some.mp hok
      cases o with
      | own k => exact ⟨(checkThis_shut ho).mp hthis, hnone⟩
      | foreign => cases howned
    · exact absurd h (hvalue (encodeAll_ok hargs hv))

theorem enter_thisAlive (h : ThisAlive s op) : enter s op = .ok () := by
  unfold ThisAlive at h
  split at h
  · rename_i j k args
    obtain ⟨⟨r, hr, hclosed, hget⟩, hnone⟩ := h
    refine enter_invoke_some.mpr ⟨rfl, ?_, hnone⟩
    exact (checkThis_shut ⟨r, hr, hclosed⟩).mpr ⟨r, hr, hclosed, hget⟩
  · exact h.elim

theorem unusable_refused_iff {o : Operand} (ho : Unusable s o) (hmem : o ∈ op.operands) :
    Refused native s op ↔ ¬ ThisAlive s op :=
  refused_iff.trans (not_congr ⟨enter_unusable ho hmem, enter_thisAlive⟩)

theorem foreign_refused (hmem : .foreign ∈ op.operands) : Refused native s op := by
  refine refused_iff.mpr fun hok => ?_
  have halive := enter_unusable (o := .foreign) trivial hmem hok
  unfold ThisAlive at halive
  split at halive
  · rename_i j k args
    -- it is among the arguments, and they are checked in the same way without `thisArg`
    have hargs : .foreign ∈ (Operation.invoke j none args).operands := by
      simpa [Operation.operands] using hmem
    exact enter_unusable (o := .foreign) trivial hargs halive.2
  · exact halive

/-- Once a ref is closed, every later operation that takes it is refused, except an `invoke`
that takes it as `thisArg` while something else holds its slot. A ref of another engine is
refused in every role. -/
theorem closed_ref_refused_iff (hi : s.refs[i]? = some r) (hclose : Closes s i a)
    (hstep : s.step a = some s') (hrun : Machine.Reaches Holding.step Machine.always s' t) :
    (.own i ∈ op.operands → (Refused native t op ↔ ¬ ThisAlive t op)) ∧
      (.foreign ∈ op.operands → Refused native t op) :=
  ⟨unusable_refused_iff (o := .own i) (reaches_shut hrun (closes_shut hi hclose hstep)),
    foreign_refused⟩

/-- A function in the first slot, and an object in the second that two refs hold. -/
def sharedRefs : Holding :=
  ⟨⟨[⟨.object 7 .function, 1, -1, 0⟩, ⟨.object 8 .plain, 2, -1, 0⟩], 16, -1⟩,
    [⟨1, false, false⟩, ⟨2, false, false⟩, ⟨2, false, false⟩], []⟩

/-- The first of the two is closed. -/
def oneClosed : Holding :=
  ⟨⟨[⟨.object 7 .function, 1, -1, 0⟩, ⟨.object 8 .plain, 1, -1, 0⟩], 16, -1⟩,
    [⟨1, false, false⟩, ⟨2, true, false⟩, ⟨2, false, false⟩], []⟩

theorem sharedRefs_reached : Machine.Reaches Holding.step Machine.always init sharedRefs :=
  Machine.reaches_of_exec
    (l := [.handOut (.object 7 .function) true, .handOut (.object 8 .plain) true, .retain 1])
    (by decide +kernel)

theorem sharedRefs_close : sharedRefs.step (.close 1) = some oneClosed := by decide +kernel

theorem closed_ref_refused_argument :
    (.own 1 ∈ (Operation.invoke 0 none [some (.own 1)]).operands →
      (Refused (fun _ s => s) oneClosed (.invoke 0 none [some (.own 1)]) ↔
        ¬ ThisAlive oneClosed (.invoke 0 none [some (.own 1)]))) ∧
      (.foreign ∈ (Operation.invoke 0 none [some (.own 1)]).operands →
        Refused (fun _ s => s) oneClosed (.invoke 0 none [some (.own 1)])) :=
  closed_ref_refused_iff (s := sharedRefs) (r := ⟨2, false, false⟩) (a := .close 1) rfl rfl sharedRefs_close
    (Machine.Reaches.refl _)

/-- The closed one is still let through as `thisArg`. -/
theorem closed_this_accepted :
    ¬ ∀ (native : Operation → Holding → Holding) (s s' t : Holding) (i : ℕ) (r : Ref) (a : Act) (op : Operation),
      Machine.Reaches Holding.step Machine.always init s → s.refs[i]? = some r → Closes s i a →
        s.step a = some s' → Machine.Reaches Holding.step Machine.always s' t → .own i ∈ op.operands →
          Refused native t op := by
  intro h
  have hrefused := h (fun _ s => s) sharedRefs oneClosed oneClosed 1 ⟨2, false, false⟩ (.close 1)
    (.invoke 0 (some (.own 1)) []) sharedRefs_reached rfl rfl sharedRefs_close (Machine.Reaches.refl _) (by decide)
  have hthrough : enter oneClosed (.invoke 0 (some (.own 1)) []) = .ok () := by decide +kernel
  exact refused_iff.mp hrefused hthrough

end QuickJsKmp.Handles
