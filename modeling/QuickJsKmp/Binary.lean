import QuickJsKmp.ArrayBuffers

/-!
# Binary values that leave the engine

Under the JSON transport `value_to_out` hands every array buffer and typed array to
`binary_to_out`, and fails when that does. The length it copies is the one that the
typed array was made with.
-/

namespace QuickJsKmp.ArrayBuffers

inductive Value
  | buffer (i : ℕ)
  | array (j : ℕ)
  deriving DecidableEq, Repr

inductive Outcome
  | binary (bytes : Bytes)
  /-- `value_to_out` returns -1 with the exception pending. -/
  | exception
  /-- `buf_append` reads outside of the block. -/
  | wild
  deriving DecidableEq, Repr

/-- `typed_array_is_oob`. -/
def typedArrayIsOob (b : ArrayBuffer) (ta : TypedArray) : Bool :=
  if b.detached then true
  else if ta.offset > b.byteLength then true
  else if ta.trackRab then false
  else if b.byteLength < ta.offset + ta.length then true
  else ta.offset + ta.count * 2 ^ ta.cls.sizeLog2 > b.byteLength

/-- `JS_GetTypedArrayBuffer`: the offset and the length. -/
def getTypedArrayBuffer (b : ArrayBuffer) (ta : TypedArray) : Option (ℕ × ℕ) :=
  if typedArrayIsOob b ta then none else some (ta.offset, ta.length)

/-- `JS_GetArrayBuffer`: the size. -/
def getArrayBuffer (b : ArrayBuffer) : Option ℕ :=
  if b.detached then none else some b.byteLength

/-- `buf_append(sbuf, data + offset, len)`, if it has the memory. -/
def ArrayBuffer.copyOut (b : ArrayBuffer) (memory : Bool) (offset len : ℕ) : Outcome :=
  if memory = false then .exception
  else if offset + len ≤ b.data.length then .binary ((b.data.drop offset).take len)
  else .wild

/-- `binary_to_out`; there is no result for a value that does not exist. -/
def Heap.binaryToOut (s : Heap) (memory : Bool) : Value → Option Outcome
  | .buffer i => do
    let b ← s.buffers[i]?
    match getArrayBuffer b with
    | some len => some (b.copyOut memory 0 len)
    | none => some .exception
  | .array j => do
    let ta ← s.arrays[j]?
    let b ← s.buffers[ta.buffer]?
    match getTypedArrayBuffer b ta, getArrayBuffer b with
    | some (offset, len), some _ => some (b.copyOut memory offset len)
    | _, _ => some .exception

/-- The viewed bytes, or an exception if there are none. -/
def Spec.State.answer (t : Spec.State) : Value → Option Outcome
  | .buffer i => do
    let b ← t.buffers[i]?
    some (if b.detached then .exception else .binary b.bytes)
  | .array j => do
    let v ← t.views[j]?
    let b ← t.buffers[v.buffer]?
    some (if v.outOfBounds b then .exception else .binary ((b.bytes.drop v.offset).take (v.currentLength b)))

/-- The length that was stored is the current one, a shared buffer has not grown beyond its
memory, and there is memory for the copy. Nothing is asked of what is detached or out of
bounds. -/
def Current (s : Heap) (memory : Bool) : Value → Prop
  | .buffer i => ∀ b ∈ s.buffers[i]?, b.detached = false →
      memory ∧ (b.shared → b.byteLength ≤ b.data.length)
  | .array j => ∀ ta ∈ s.arrays[j]?, ∀ b ∈ s.buffers[ta.buffer]?, ¬ ta.abstract.outOfBounds b.abstract →
      memory ∧ ta.length = ta.abstract.currentLength b.abstract ∧
        (b.shared → ta.offset + ta.length ≤ b.data.length)

variable {s : Heap} {t : Spec.State} {b : ArrayBuffer} {ta : TypedArray} {memory : Bool}
  {offset len n : ℕ}

-- ---------------------------------------------------------------------------
-- One copy
-- ---------------------------------------------------------------------------

theorem copyOut_iff (memory : Bool) (len : ℕ) (hb : Sound b) (hin : offset + n ≤ b.byteLength) :
    b.copyOut memory offset len = .binary ((b.abstract.bytes.drop offset).take n) ↔
      memory ∧ len = n ∧ (b.shared → offset + len ≤ b.data.length) := by
  have hlength : ((b.abstract.bytes.drop offset).take n).length = n := by
    simp [ArrayBuffer.abstract]
    omega
  unfold ArrayBuffer.copyOut
  constructor
  · intro h
    split at h
    · cases h
    · rename_i hmemory
      split at h
      · rename_i hdata
        rw [← Outcome.binary.inj h] at hlength
        simp only [List.length_take, List.length_drop] at hlength
        exact ⟨by simpa using hmemory, by omega, fun _ => hdata⟩
      · cases h
  · rintro ⟨rfl, rfl, hshared⟩
    have hdata : offset + len ≤ b.data.length := by
      cases h : b.shared with
      | true => exact hshared h
      | false => exact Nat.le_trans hin (hb.covers h)
    rw [if_neg (by simp), if_pos hdata]
    exact congrArg _ (Padded.take_drop_fit hin hdata).symm

theorem typedArrayIsOob_iff (hta : Counted ta) :
    typedArrayIsOob b ta ↔ ta.abstract.outOfBounds b.abstract := by
  unfold typedArrayIsOob Spec.View.outOfBounds
  simp only [TypedArray.abstract, ArrayBuffer.abstract, Padded.length_fit]
  cases hdetached : b.detached with
  | true => simp
  | false =>
    cases htrack : ta.trackRab with
    | true => simp
    | false =>
      have hcount := hta htrack
      rw [Nat.shiftLeft_eq] at hcount
      simp only [Bool.false_eq_true, if_false, false_or, Option.getD_some]
      split
      · simp
        omega
      · split
        · simp
          omega
        · simp
          omega

theorem currentLength_in (h : ¬ ta.abstract.outOfBounds b.abstract) :
    ta.offset + ta.abstract.currentLength b.abstract ≤ b.byteLength := by
  unfold Spec.View.outOfBounds at h
  simp only [TypedArray.abstract, ArrayBuffer.abstract, Padded.length_fit, not_or] at h
  simp only [Spec.View.currentLength, TypedArray.abstract, ArrayBuffer.abstract, Padded.length_fit]
  cases htrack : ta.trackRab with
  | true =>
    have hwhole := Nat.div_mul_le_self (b.byteLength - ta.offset) (2 ^ ta.cls.sizeLog2)
    simp [htrack] at h ⊢
    omega
  | false =>
    simp [htrack] at h ⊢
    omega

-- ---------------------------------------------------------------------------
-- Every value
-- ---------------------------------------------------------------------------

theorem buffer_iff (h : Inv s) (i : ℕ) :
    s.binaryToOut memory (.buffer i) = s.abstract.answer (.buffer i) ↔
      Current s memory (.buffer i) := by
  cases hi : s.buffers[i]? with
  | none => simp [Heap.binaryToOut, Spec.State.answer, Heap.abstract, Current, hi]
  | some b =>
    have hb := h.buffers b (List.mem_of_getElem? hi)
    simp only [Heap.binaryToOut, Spec.State.answer, getElem?_abstract hi, hi, Current,
      Option.bind_eq_bind, Option.bind_some, Option.mem_def, Option.some.injEq, forall_eq',
        getArrayBuffer]
    cases hdetached : b.detached with
    | true => simp [ArrayBuffer.abstract, hdetached]
    | false =>
      have hwhole : b.abstract.bytes = (b.abstract.bytes.drop 0).take b.byteLength := by
        simp [ArrayBuffer.abstract]
      have hcopy := copyOut_iff memory b.byteLength hb (show 0 + b.byteLength ≤ b.byteLength by omega)
      rw [← hwhole] at hcopy
      simpa [ArrayBuffer.abstract, hdetached] using hcopy

theorem array_iff (h : Inv s) (j : ℕ) :
    s.binaryToOut memory (.array j) = s.abstract.answer (.array j) ↔
      Current s memory (.array j) := by
  cases hj : s.arrays[j]? with
  | none => simp [Heap.binaryToOut, Spec.State.answer, Heap.abstract, Current, hj]
  | some ta =>
    have hview : s.abstract.views[j]? = some ta.abstract := by simp [Heap.abstract, hj]
    cases hi : s.buffers[ta.buffer]? with
    | none => simp [Heap.binaryToOut, Spec.State.answer, Current, hj, hi, Heap.abstract, TypedArray.abstract]
    | some b =>
      have hb := h.buffers b (List.mem_of_getElem? hi)
      have hoob := typedArrayIsOob_iff (b := b) (h.arrays ta (List.mem_of_getElem? hj))
      have hget : s.abstract.buffers[ta.abstract.buffer]? = some b.abstract := getElem?_abstract hi
      simp only [Heap.binaryToOut, Spec.State.answer, hget, hview, hi, hj, Current,
        Option.bind_eq_bind, Option.bind_some, Option.mem_def, Option.some.injEq, forall_eq',
        getTypedArrayBuffer]
      by_cases hout : ta.abstract.outOfBounds b.abstract
      · simp [hoob.mpr hout, hout]
      · have hcopy := copyOut_iff memory ta.length hb (currentLength_in hout)
        have hattached : b.detached = false := by
          simpa [ArrayBuffer.abstract] using (not_or.mp hout).1
        have hnot : typedArrayIsOob b ta = false := by simpa using mt hoob.mp hout
        rw [show ta.abstract.offset = ta.offset from rfl]
        simpa [hnot, hout, getArrayBuffer, hattached] using hcopy

/-- After any sequence of operations, what leaves the engine is what the operations say if and
only if the lengths are current. -/
theorem binary_out_iff (h : Machine.exec Heap.step Machine.always init l = some s) :
    ∃ t, Machine.exec Spec.State.step Machine.always Spec.init l = some t ∧
      ∀ memory v, s.binaryToOut memory v = t.answer v ↔ Current s memory v := by
  obtain ⟨t, hrun, hinv, rfl⟩ : ∃ t,
    Machine.exec Spec.State.step Machine.always Spec.init l = some t ∧
      Inv s ∧ t = s.abstract := by
    refine Machine.exec_simulates (R := fun s t => Inv s ∧ t = s.abstract) ?_ ⟨init_inv, rfl⟩ h
    rintro s s' t a ⟨hinv, rfl⟩ hstep
    obtain ⟨hstep', hinv'⟩ := step_refines hinv hstep
    exact ⟨_, hstep', hinv', rfl⟩
  refine ⟨_, hrun, fun memory v => ?_⟩
  cases v with
  | buffer i => exact buffer_iff hinv i
  | array j => exact array_iff hinv j

/-- A fixed view and one that tracks, over a buffer that has stayed as it was. -/
theorem binary_out_iff_unchanged :
    ∃ t, Machine.exec Spec.State.step Machine.always Spec.init
        [.create false [1, 2, 3, 4] (some 8), .view 0 .uint16 2 (some 1), .view 0 .uint8 1 none, .write 0 2 7] =
        some t ∧
      ∀ memory v,
        Heap.binaryToOut ⟨[⟨4, some 8, false, false, [1, 2, 7, 4]⟩],
            [⟨.uint16, 0, 2, 2, false, 1⟩, ⟨.uint8, 0, 1, 3, true, 3⟩]⟩ memory v = t.answer v ↔
          Current ⟨[⟨4, some 8, false, false, [1, 2, 7, 4]⟩],
            [⟨.uint16, 0, 2, 2, false, 1⟩, ⟨.uint8, 0, 1, 3, true, 3⟩]⟩ memory v :=
  binary_out_iff (by decide +kernel)

/-- A view that tracks, after its buffer has shrunk: the copy runs over the end of the block. -/
theorem shrunk_buffer_read_over :
    ¬ ∀ (l : List Act) (s : Heap) (t : Spec.State) (v : Value),
      Machine.exec Heap.step Machine.always init l = some s →
        Machine.exec Spec.State.step Machine.always Spec.init l = some t → s.binaryToOut true v = t.answer v := by
  intro h
  have hrun := h [.create false [1, 2, 3, 4] (some 4), .view 0 .uint8 0 none, .resize 0 0]
    ⟨[⟨0, some 4, false, false, [1]⟩], [⟨.uint8, 0, 0, 4, true, 0⟩]⟩
    ⟨[⟨[], some 4, false, false⟩], [⟨.uint8, 0, 0, none⟩]⟩ (.array 0) (by decide +kernel) (by decide +kernel)
  revert hrun
  decide +kernel

end QuickJsKmp.ArrayBuffers
