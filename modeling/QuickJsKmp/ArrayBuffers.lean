import QuickJsKmp.Lib.Machine
import QuickJsKmp.Lib.Lookups
import QuickJsKmp.Lib.Parties
import QuickJsKmp.Slots

/-!
# Array buffers and typed arrays

An `ArrayBuffer` has a block of memory and a `byte_length`; a typed array has the offset
and the length it was made with, whether it tracks the length of its buffer, and
the number of its elements, which every change of the buffer's length computes
again. Writes outside of the block are not steps: what they do is not defined.
-/

namespace QuickJsKmp.ArrayBuffers

open Padded (fit)
open SlotTable (int32Max)

inductive ArrayClass
  | uint8Clamped
  | int8
  | uint8
  | int16
  | uint16
  | int32
  | uint32
  | bigInt64
  | bigUint64
  | float16
  | float32
  | float64
  deriving DecidableEq, Repr

/-- `typed_array_size_log2`. -/
def ArrayClass.sizeLog2 : ArrayClass → ℕ
  | .uint8Clamped | .int8 | .uint8 => 0
  | .int16 | .uint16 | .float16 => 1
  | .int32 | .uint32 | .float32 => 2
  | .bigInt64 | .bigUint64 | .float64 => 3

/-- `JSArrayBuffer`. -/
structure ArrayBuffer where
  byteLength : ℕ
  maxByteLength : Option ℕ
  detached : Bool
  shared : Bool
  /-- The allocated block. -/
  data : Bytes
  deriving DecidableEq, Repr

/-- `JSTypedArray`, with the `count` of its object. -/
structure TypedArray where
  cls : ArrayClass
  buffer : ℕ
  offset : ℕ
  length : ℕ
  trackRab : Bool
  count : ℕ
  deriving DecidableEq, Repr

structure Heap where
  buffers : List ArrayBuffer
  arrays : List TypedArray
  deriving DecidableEq, Repr

inductive Act
  /-- With a copy of these bytes; a constructor passes zeros. -/
  | create (shared : Bool) (content : Bytes) (maxByteLength : Option ℕ)
  /-- `resize`, and `grow` for a shared buffer. -/
  | resize (i len : ℕ)
  | detach (i : ℕ)
  | transfer (i newLen : ℕ) (toFixedLength : Bool)
  | view (i : ℕ) (cls : ArrayClass) (offset : ℕ) (length : Option ℕ)
  | write (i k : ℕ) (byte : UInt8)
  deriving DecidableEq, Repr

-- ---------------------------------------------------------------------------
-- The engine
-- ---------------------------------------------------------------------------

/-- `js_mallocz(max_int(len, 1))` and `memcpy`. -/
def newBlock (content : Bytes) : Bytes := if content = [] then [0] else content

/-- `js_realloc(max_int(len, 1))`, and `memset` of what is new. -/
def reallocBlock (data : Bytes) (byteLength len : ℕ) : Bytes :=
  let data := data.take (max len 1)
  if len > byteLength then data.take byteLength ++ List.replicate (len - byteLength) 0 else data

/-- One round of `js_array_buffer_update_typed_arrays`. -/
def TypedArray.recount (ta : TypedArray) (byteLength : ℕ) : TypedArray :=
  { ta with
    count :=
      if ta.trackRab then
        if byteLength ≥ ta.offset + 2 ^ ta.cls.sizeLog2 then (byteLength - ta.offset) >>> ta.cls.sizeLog2 else 0
      else if byteLength ≥ ta.offset + ta.length then ta.length >>> ta.cls.sizeLog2
      else 0 }

/-- The buffer changes, and the typed arrays in its list with it. -/
def Heap.update (s : Heap) (i : ℕ) (b : ArrayBuffer) : Heap where
  buffers := s.buffers.set i b
  arrays := s.arrays.map fun ta => if ta.buffer = i then ta.recount b.byteLength else ta

def ArrayBuffer.resize (b : ArrayBuffer) (len : ℕ) : Option ArrayBuffer :=
  if b.detached then none
  else
    match b.maxByteLength with
    | none => none
    | some max =>
      if len > max then none
      else if b.shared then if len < b.byteLength then none else some { b with byteLength := len }
      else some { b with byteLength := len, data := reallocBlock b.data b.byteLength len }

def ArrayBuffer.detach (b : ArrayBuffer) : ArrayBuffer :=
  { b with byteLength := 0, detached := true, data := [] }

/-- `js_array_buffer_constructor0` and `js_array_buffer_constructor3`. -/
def newArrayBuffer (shared : Bool) (content : Bytes) (maxByteLength : Option ℕ) : Option ArrayBuffer :=
  if maxByteLength.any (content.length > ·) then none
  else if content.length > int32Max ∨ maxByteLength.any (· > int32Max) then none
  else some ⟨content.length, maxByteLength, false, shared, newBlock content⟩

/-- The new buffer of `js_array_buffer_transfer`. -/
def ArrayBuffer.transfer (b : ArrayBuffer) (newLen : ℕ) (toFixedLength : Bool) : Option ArrayBuffer :=
  if b.shared ∨ b.detached then none
  else
    let maxByteLength := if toFixedLength then none else b.maxByteLength
    if maxByteLength.any (newLen > ·) ∨ newLen > int32Max then none
    else
      let data :=
        if newLen = 0 then [0]
        else if newLen = b.byteLength then b.data
        else reallocBlock b.data b.byteLength newLen
      some ⟨newLen, maxByteLength, false, false, data⟩

/-- The part of `js_typed_array_constructor` about a buffer, and `typed_array_init`. -/
def newTypedArray (b : ArrayBuffer) (i : ℕ) (cls : ArrayClass) (offset : ℕ) (length : Option ℕ) :
    Option TypedArray :=
  let size := 2 ^ cls.sizeLog2
  if offset % size ≠ 0 ∨ b.detached then none
  else
    match length with
    | none =>
      let trackRab := b.maxByteLength.isSome
      if offset > b.byteLength ∨ (trackRab = false ∧ b.byteLength % size ≠ 0) then none
      else
        let len := (b.byteLength - offset) >>> cls.sizeLog2
        some ⟨cls, i, offset, len <<< cls.sizeLog2, trackRab, len⟩
    | some len =>
      if offset + len <<< cls.sizeLog2 > b.byteLength then none
      else some ⟨cls, i, offset, len <<< cls.sizeLog2, false, len⟩

def Heap.step (s : Heap) : Act → Option Heap
  | .create shared content maxByteLength => do
    let b ← newArrayBuffer shared content maxByteLength
    some { s with buffers := s.buffers ++ [b] }
  | .resize i len => do
    let b ← s.buffers[i]?
    let b ← b.resize len
    some (s.update i b)
  | .detach i => do
    let b ← s.buffers[i]?
    -- a shared buffer cannot be detached
    if b.shared ∨ b.detached then some s else some (s.update i b.detach)
  | .transfer i newLen toFixedLength => do
    let b ← s.buffers[i]?
    let res ← b.transfer newLen toFixedLength
    let s := s.update i b.detach
    some { s with buffers := s.buffers ++ [res] }
  | .view i cls offset length => do
    let b ← s.buffers[i]?
    let ta ← newTypedArray b i cls offset length
    some { s with arrays := s.arrays ++ [ta] }
  | .write i k byte => do
    let b ← s.buffers[i]?
    if k < b.byteLength ∧ k < b.data.length then
      some { s with buffers := s.buffers.set i { b with data := b.data.set k byte } }
    else none

def init : Heap := ⟨[], []⟩

-- ---------------------------------------------------------------------------
-- What they stand for
-- ---------------------------------------------------------------------------

namespace Spec

/-- The current length is the number of the bytes. -/
structure Buffer where
  bytes : Bytes
  maxLength : Option ℕ
  detached : Bool
  shared : Bool
  deriving DecidableEq, Repr

/-- A view without a fixed length tracks the length of its buffer. -/
structure View where
  cls : ArrayClass
  buffer : ℕ
  offset : ℕ
  fixed : Option ℕ
  deriving DecidableEq, Repr

structure State where
  buffers : List Buffer
  views : List View
  deriving DecidableEq, Repr

def View.outOfBounds (v : View) (b : Buffer) : Prop :=
  b.detached ∨ v.offset + v.fixed.getD 0 > b.bytes.length

instance (v : View) (b : Buffer) : Decidable (v.outOfBounds b) := by
  unfold View.outOfBounds
  infer_instance

/-- The current byte length of a view that is in bounds: whole elements. -/
def View.currentLength (v : View) (b : Buffer) : ℕ :=
  let size := 2 ^ v.cls.sizeLog2
  v.fixed.getD ((b.bytes.length - v.offset) / size * size)

def Buffer.resizable (b : Buffer) (len : ℕ) : Prop :=
  b.detached = false ∧ b.maxLength.any (len ≤ ·) ∧ (b.shared → b.bytes.length ≤ len)

def State.setBytes (s : State) (i : ℕ) (b : Buffer) (bytes : Bytes) : State :=
  { s with buffers := s.buffers.set i { b with bytes } }

def State.detach (s : State) (i : ℕ) (b : Buffer) : State :=
  { s with buffers := s.buffers.set i { b with bytes := [], detached := true } }

instance (b : Buffer) (len : ℕ) : Decidable (b.resizable len) := by
  unfold Buffer.resizable
  infer_instance

def State.step (s : State) : Act → Option State
  | .create shared content maxLength =>
    if maxLength.all fun m => content.length ≤ m then
      some { s with buffers := s.buffers ++ [⟨content, maxLength, false, shared⟩] }
    else none
  | .resize i len => do
    let b ← s.buffers[i]?
    if b.resizable len then some (s.setBytes i b (fit 0 b.bytes len)) else none
  | .detach i => do
    let b ← s.buffers[i]?
    if b.shared ∨ b.detached then some s else some (s.detach i b)
  | .transfer i newLen toFixedLength => do
    let b ← s.buffers[i]?
    if b.shared ∨ b.detached then none
    else
      let s := s.detach i b
      let maxLength := if toFixedLength then none else b.maxLength
      some { s with buffers := s.buffers ++ [⟨fit 0 b.bytes newLen, maxLength, false, false⟩] }
  | .view i cls offset length => do
    let b ← s.buffers[i]?
    let size := 2 ^ cls.sizeLog2
    let fixed := if length.isNone ∧ b.maxLength.isSome then none
      else some ((length.map (· * size)).getD (b.bytes.length - offset))
    let v : View := ⟨cls, i, offset, fixed⟩
    if v.outOfBounds b then none else some { s with views := s.views ++ [v] }
  | .write i k byte => do
    let b ← s.buffers[i]?
    if k < b.bytes.length then some (s.setBytes i b (b.bytes.set k byte)) else none

def init : State := ⟨[], []⟩

end Spec

/-- Memory that a shared buffer has grown beyond counts as zeros. -/
def ArrayBuffer.abstract (b : ArrayBuffer) : Spec.Buffer :=
  ⟨fit 0 b.data b.byteLength, b.maxByteLength, b.detached, b.shared⟩

def TypedArray.abstract (ta : TypedArray) : Spec.View :=
  ⟨ta.cls, ta.buffer, ta.offset, if ta.trackRab then none else some ta.length⟩

def Heap.abstract (s : Heap) : Spec.State :=
  ⟨s.buffers.map ArrayBuffer.abstract, s.arrays.map TypedArray.abstract⟩

variable {s s' : Heap} {b b' : ArrayBuffer} {ta : TypedArray} {i len : ℕ}

-- ---------------------------------------------------------------------------
-- One buffer
-- ---------------------------------------------------------------------------

/-- A buffer that is not shared has its memory; one that is has zeros from its length on. -/
structure Sound (b : ArrayBuffer) : Prop where
  covers : b.shared = false → b.byteLength ≤ b.data.length
  zeros : b.shared → ∀ k, b.byteLength ≤ k → b.data.getD k 0 = 0

theorem length_reallocBlock (h : byteLength ≤ data.length) :
    len ≤ (reallocBlock data byteLength len).length := by
  unfold reallocBlock
  simp only
  split
  · simp
    omega
  · simp
    omega

theorem fit_reallocBlock (h : byteLength ≤ data.length) :
    fit 0 (reallocBlock data byteLength len) len = fit 0 (fit 0 data byteLength) len := by
  unfold reallocBlock
  simp only
  split
  · rename_i hgrows
    obtain ⟨m, rfl⟩ := Nat.exists_eq_add_of_le (Nat.le_of_lt hgrows)
    rw [List.take_take, Nat.min_eq_left (by omega), Nat.add_sub_cancel_left, Padded.fit_append h]
  · rename_i hshrinks
    rw [Padded.fit_fit_of_le (Nat.le_of_not_lt hshrinks)]
    refine Padded.fit_congr fun k hk => ?_
    rw [List.getD_eq_getElem?_getD, List.getElem?_take_of_lt (by omega), List.getD_eq_getElem?_getD]

theorem newArrayBuffer_spec (h : newArrayBuffer shared content maxByteLength = some b) :
    Sound b ∧ b.abstract = ⟨content, maxByteLength, false, shared⟩ ∧
      maxByteLength.all fun m => content.length ≤ m := by
  unfold newArrayBuffer at h
  split at h
  · cases h
  · rename_i hmax
    split at h
    · cases h
    · obtain rfl := Option.some.inj h
      refine ⟨⟨fun _ => ?_, fun _ k hk => ?_⟩, ?_, ?_⟩
      · unfold newBlock
        split <;> simp_all
      · unfold newBlock
        split
        · cases k <;> rfl
        · exact List.getD_eq_default _ _ hk
      · unfold ArrayBuffer.abstract newBlock
        split
        · rename_i hempty
          simp [hempty]
        · simp [Padded.fit_eq_take]
      · cases maxByteLength with
        | none => rfl
        | some m => simpa using hmax

theorem resize_spec (h : b.resize len = some b') (hb : Sound b) :
    Sound b' ∧ b.abstract.resizable len ∧
      b'.abstract = { b.abstract with bytes := fit 0 b.abstract.bytes len } := by
  unfold ArrayBuffer.resize at h
  split at h
  · cases h
  · rename_i hattached
    split at h
    · cases h
    · rename_i m hm
      split at h
      · cases h
      · rename_i hle
        split at h
        · rename_i hshared
          split at h
          · cases h
          · rename_i hgrows
            obtain rfl := Option.some.inj h
            refine ⟨⟨fun hnot => ?_, fun _ k hk => hb.zeros hshared k (Nat.le_trans (Nat.le_of_not_lt hgrows) hk)⟩,
              ⟨by simpa [ArrayBuffer.abstract] using hattached, ?_, fun _ => ?_⟩, ?_⟩
            · simp [hshared] at hnot
            · simpa [ArrayBuffer.abstract, hm] using hle
            · simpa [ArrayBuffer.abstract] using hgrows
            · simp only [ArrayBuffer.abstract]
              rw [Padded.fit_fit fun k hk _ => hb.zeros hshared k hk]
        · rename_i hshared
          obtain rfl := Option.some.inj h
          have hcovers := hb.covers (by simpa using hshared)
          refine ⟨⟨fun _ => length_reallocBlock hcovers, fun hnot => absurd hnot hshared⟩,
            ⟨by simpa [ArrayBuffer.abstract] using hattached, ?_,
              fun hnot => absurd hnot hshared⟩, ?_⟩
          · simpa [ArrayBuffer.abstract, hm] using hle
          · simp only [ArrayBuffer.abstract]
            rw [fit_reallocBlock hcovers]

theorem detach_spec (hshared : b.shared = false) :
    Sound b.detach ∧ b.detach.abstract = { b.abstract with bytes := [], detached := true } := by
  refine ⟨⟨fun _ => Nat.le_refl _, fun hnot => ?_⟩, rfl⟩
  simp [ArrayBuffer.detach, hshared] at hnot

theorem transfer_spec (h : b.transfer newLen toFixedLength = some b') (hb : Sound b) :
    b.shared = false ∧ b.detached = false ∧ Sound b' ∧
      b'.abstract = ⟨fit 0 b.abstract.bytes newLen, if toFixedLength then none else b.maxByteLength,
        false, false⟩ := by
  unfold ArrayBuffer.transfer at h
  split at h
  · cases h
  · rename_i hown
    obtain ⟨hshared, hattached⟩ : b.shared = false ∧ b.detached = false := by simpa using hown
    have hcovers := hb.covers hshared
    simp only at h
    by_cases hlong : (if toFixedLength then none else b.maxByteLength).any (newLen > ·) ∨
      newLen > int32Max
    · rw [if_pos hlong] at h
      cases h
    · rw [if_neg hlong] at h
      obtain rfl := Option.some.inj h
      refine ⟨hshared, hattached, ⟨fun _ => ?_, nofun⟩, ?_⟩
      · simp only
        split
        · omega
        · split
          · omega
          · exact length_reallocBlock hcovers
      · simp only [ArrayBuffer.abstract]
        congr 1
        split
        · rename_i hzero
          simp [hzero]
        · split
          · rename_i hsame
            rw [hsame, Padded.fit_fit_of_le (Nat.le_refl _)]
          · exact fit_reallocBlock hcovers

theorem write_spec (hb : Sound b) (hk : k < b.byteLength) (hdata : k < b.data.length)
    (byte : UInt8) :
    Sound { b with data := b.data.set k byte } ∧
      ({ b with data := b.data.set k byte } : ArrayBuffer).abstract =
        { b.abstract with bytes := b.abstract.bytes.set k byte } := by
  refine ⟨⟨fun hshared => ?_, fun hshared j hj => ?_⟩, ?_⟩
  · simpa using hb.covers hshared
  · have hne : k ≠ j := by
      have hle : b.byteLength ≤ j := hj
      omega
    rw [List.getD_eq_getElem?_getD, List.getElem?_set_ne hne, ← List.getD_eq_getElem?_getD]
    exact hb.zeros hshared j hj
  · simp only [ArrayBuffer.abstract]
    rw [Padded.fit_set hdata]

-- ---------------------------------------------------------------------------
-- One typed array
-- ---------------------------------------------------------------------------

/-- The elements of an array with a fixed length lie within it. -/
def Counted (ta : TypedArray) : Prop := ta.trackRab = false → ta.count <<< ta.cls.sizeLog2 ≤ ta.length

theorem recount_counted (ta : TypedArray) (byteLength : ℕ) : Counted (ta.recount byteLength) := by
  intro hfixed
  have hfixed : ta.trackRab = false := hfixed
  simp only [TypedArray.recount, hfixed, Bool.false_eq_true, if_false]
  split
  · rw [Nat.shiftLeft_eq, Nat.shiftRight_eq_div_pow]
    exact Nat.div_mul_le_self _ _
  · simp

theorem recount_abstract (ta : TypedArray) (byteLength : ℕ) :
    (ta.recount byteLength).abstract = ta.abstract := rfl

theorem newTypedArray_spec (h : newTypedArray b i cls offset length = some ta) :
    Counted ta ∧
      ta.abstract = ⟨cls, i, offset, if length.isNone ∧ b.maxByteLength.isSome then none
        else some ((length.map (· * 2 ^ cls.sizeLog2)).getD (b.byteLength - offset))⟩ ∧
      ¬ ta.abstract.outOfBounds b.abstract := by
  unfold newTypedArray at h
  simp only at h
  split at h
  · cases h
  · rename_i haligned
    obtain ⟨hoffset, hattached⟩ : offset % 2 ^ cls.sizeLog2 = 0 ∧ b.detached = false := by
      simpa using haligned
    split at h
    · split at h
      · cases h
      · rename_i hfits
        obtain rfl := Option.some.inj h
        obtain ⟨hle, hwhole⟩ := not_or.mp hfits
        refine ⟨fun _ => Nat.le_refl _, ?_, ?_⟩
        · cases hmax : b.maxByteLength with
          | some m => simp [TypedArray.abstract]
          | none =>
            have hrest : (b.byteLength - offset) % 2 ^ cls.sizeLog2 = 0 := by
              have hbytes : b.byteLength % 2 ^ cls.sizeLog2 = 0 := by simpa [hmax] using hwhole
              exact Nat.sub_mod_eq_zero_of_mod_eq (hbytes.trans hoffset.symm)
            have hlen : (b.byteLength - offset) >>> cls.sizeLog2 <<< cls.sizeLog2 = b.byteLength - offset := by
              rw [Nat.shiftLeft_eq, Nat.shiftRight_eq_div_pow]
              exact Nat.div_mul_cancel (Nat.dvd_of_mod_eq_zero hrest)
            simp [TypedArray.abstract, hlen]
        · have hlen : (b.byteLength - offset) >>> cls.sizeLog2 <<< cls.sizeLog2 ≤ b.byteLength - offset := by
            rw [Nat.shiftLeft_eq, Nat.shiftRight_eq_div_pow]
            exact Nat.div_mul_le_self _ _
          simp only [Spec.View.outOfBounds, TypedArray.abstract, ArrayBuffer.abstract, hattached,
            Padded.length_fit, Bool.false_eq_true, false_or, Nat.not_lt, gt_iff_lt]
          split
          · simpa using hle
          · simp only [Option.getD_some]
            omega
    · rename_i len
      split at h
      · cases h
      · rename_i hle
        obtain rfl := Option.some.inj h
        refine ⟨fun _ => Nat.le_refl _, ?_, ?_⟩
        · simp [TypedArray.abstract, Nat.shiftLeft_eq]
        · simpa [Spec.View.outOfBounds, TypedArray.abstract, ArrayBuffer.abstract,
            hattached] using hle

-- ---------------------------------------------------------------------------
-- The whole heap
-- ---------------------------------------------------------------------------

structure Inv (s : Heap) : Prop where
  buffers : ∀ b ∈ s.buffers, Sound b
  arrays : ∀ ta ∈ s.arrays, Counted ta

theorem init_inv : Inv init where
  buffers := by simp [init]
  arrays := by simp [init]

theorem Inv.update (h : Inv s) (hb : Sound b) (i : ℕ) : Inv (s.update i b) where
  buffers := by
    intro c hc
    rcases List.mem_or_eq_of_mem_set hc with hc | rfl
    · exact h.buffers c hc
    · exact hb
  arrays := by
    intro ta hta
    obtain ⟨ta', hta', rfl⟩ := List.mem_map.mp hta
    split
    · exact recount_counted _ _
    · exact h.arrays ta' hta'

theorem Inv.push (h : Inv s) (hb : Sound b) : Inv { s with buffers := s.buffers ++ [b] } where
  buffers := by
    intro c hc
    rcases List.mem_append.mp hc with hc | hc
    · exact h.buffers c hc
    · exact List.mem_singleton.mp hc ▸ hb
  arrays := h.arrays

theorem update_abstract (s : Heap) (i : ℕ) (b : ArrayBuffer) :
    (s.update i b).abstract = { s.abstract with buffers := s.abstract.buffers.set i b.abstract } := by
  simp only [Heap.update, Heap.abstract, List.map_set, List.map_map]
  congr 1
  refine List.map_congr_left fun ta _ => ?_
  simp only [Function.comp]
  split
  · exact recount_abstract _ _
  · rfl

theorem getElem?_abstract (h : s.buffers[i]? = some b) :
    s.abstract.buffers[i]? = some b.abstract := by
  simp [Heap.abstract, h]

/-- Each step of the engine is the abstract one. -/
theorem step_refines (h : Inv s) (hstep : s.step a = some s') :
    s.abstract.step a = some s'.abstract ∧ Inv s' := by
  cases a with
  | create shared content maxByteLength =>
    obtain ⟨b, hb, hs⟩ := Option.bind_eq_some_iff.mp hstep
    obtain rfl := Option.some.inj hs
    obtain ⟨hsound, habstract, hmax⟩ := newArrayBuffer_spec hb
    refine ⟨?_, h.push hsound⟩
    simp only [Spec.State.step, hmax, if_true]
    simp [Heap.abstract, habstract]
  | resize i len =>
    obtain ⟨b, hi, hb⟩ := Option.bind_eq_some_iff.mp hstep
    obtain ⟨b', hresize, hs⟩ := Option.bind_eq_some_iff.mp hb
    obtain rfl := Option.some.inj hs
    obtain ⟨hsound, hresizable, habstract⟩ :=
      resize_spec hresize (h.buffers b (List.mem_of_getElem? hi))
    refine ⟨?_, h.update hsound i⟩
    rw [update_abstract, habstract]
    simp [Spec.State.step, getElem?_abstract hi, hresizable, Spec.State.setBytes]
  | detach i =>
    obtain ⟨b, hi, hb⟩ := Option.bind_eq_some_iff.mp hstep
    split at hb
    · rename_i hnone
      obtain rfl := Option.some.inj hb
      refine ⟨?_, h⟩
      simp only [Spec.State.step, getElem?_abstract hi, Option.bind_eq_bind, Option.bind_some]
      exact if_pos hnone
    · rename_i hown
      obtain rfl := Option.some.inj hb
      obtain ⟨hsound, habstract⟩ := detach_spec (b := b) (by simpa using (not_or.mp hown).1)
      refine ⟨?_, h.update hsound i⟩
      rw [update_abstract, habstract]
      simp only [Spec.State.step, getElem?_abstract hi, Option.bind_eq_bind, Option.bind_some]
      exact if_neg hown
  | transfer i newLen toFixedLength =>
    obtain ⟨b, hi, hb⟩ := Option.bind_eq_some_iff.mp hstep
    obtain ⟨res, htransfer, hs⟩ := Option.bind_eq_some_iff.mp hb
    obtain rfl := Option.some.inj hs
    obtain ⟨hshared, hattached, hsound, habstract⟩ :=
      transfer_spec htransfer (h.buffers b (List.mem_of_getElem? hi))
    obtain ⟨hsound', habstract'⟩ := detach_spec hshared
    refine ⟨?_, (h.update hsound' i).push hsound⟩
    have hupdate := update_abstract s i b.detach
    simp only [Heap.abstract, Spec.State.mk.injEq] at hupdate
    simp only [Spec.State.step, getElem?_abstract hi, Option.bind_eq_bind, Option.bind_some]
    rw [if_neg (by simp [ArrayBuffer.abstract, hshared, hattached])]
    simp only [Heap.abstract, List.map_append, List.map_singleton, hupdate.1, hupdate.2,
      habstract, habstract']
    rfl
  | view i cls offset length =>
    obtain ⟨b, hi, hb⟩ := Option.bind_eq_some_iff.mp hstep
    obtain ⟨ta, hta, hs⟩ := Option.bind_eq_some_iff.mp hb
    obtain rfl := Option.some.inj hs
    obtain ⟨hcounted, habstract, hbounds⟩ := newTypedArray_spec hta
    refine ⟨?_, h.buffers, ?_⟩
    · rw [habstract] at hbounds
      simp only [Spec.State.step, getElem?_abstract hi, Option.bind_eq_bind, Option.bind_some]
      rw [show b.abstract.bytes.length = b.byteLength from Padded.length_fit]
      refine (if_neg hbounds).trans ?_
      simp only [Heap.abstract, List.map_append, List.map_singleton, habstract]
      rfl
    · intro ta' hta'
      rcases List.mem_append.mp hta' with hta' | hta'
      · exact h.arrays ta' hta'
      · exact List.mem_singleton.mp hta' ▸ hcounted
  | write i k byte =>
    obtain ⟨b, hi, hb⟩ := Option.bind_eq_some_iff.mp hstep
    split at hb
    · rename_i hk
      obtain rfl := Option.some.inj hb
      obtain ⟨hsound, habstract⟩ := write_spec
        (h.buffers b (List.mem_of_getElem? hi)) hk.1 hk.2 byte
      refine ⟨?_, ?_, h.arrays⟩
      · simp only [Spec.State.step, getElem?_abstract hi, Option.bind_eq_bind, Option.bind_some]
        rw [if_pos (by simpa [ArrayBuffer.abstract] using hk.1)]
        simp [Spec.State.setBytes, Heap.abstract, List.map_set, habstract]
      · intro c hc
        rcases List.mem_or_eq_of_mem_set hc with hc | rfl
        · exact h.buffers c hc
        · exact hsound
    · cases hb

end QuickJsKmp.ArrayBuffers
