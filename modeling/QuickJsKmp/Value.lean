import Mathlib.Data.Nat.Notation

/-!
# What crosses the boundary

`JSValue` is what the engine holds; an object or a symbol is known by its
pointer, so two values are the same exactly when `JS_VALUE_GET_PTR` agrees.
`HostValue` is what a host hands in as a `kmpjs_value`.

What is published stands in one of the shared output buffers: `kmp_buf` with the
bytes of its block, and with who wrote them. A call publishes a pointer into the
engine's buffer, and a call nested in it may write the same block, or have
`realloc` take it away, before the outer one returns. The C heap is assumed to
give the memory that is asked for.
-/

namespace QuickJsKmp

-- ---------------------------------------------------------------------------
-- Values
-- ---------------------------------------------------------------------------

abbrev Bytes := List UInt8

/-- A string literal of the source; they are all ASCII. -/
def ascii (s : String) : Bytes := s.toList.map fun c => c.toNat.toUInt8

/-- The classes the shim tells apart with `JS_IsFunction`, `JS_IsArray`,
`JS_PromiseState`, `JS_IsError` and `JS_GetClassID`. A proxy is of the class
these see through it, unless `js_resolve_proxy` does not come to the end of its
chain: at a revoked one, or after more than a thousand. -/
inductive ClassId
  | plain
  | array
  | function
  | promise
  | error
  | binary
  | revokedProxy (callable : Bool)
  | deepProxy (callable : Bool)
  deriving DecidableEq, Repr

/-- A double is carried as its bit pattern; no modelled function computes
with it. -/
inductive JSValue
  | undefined
  | null
  | bool (b : Bool)
  | number (bits : UInt64)
  | string (utf8 : Bytes)
  | bigInt (text : Bytes)
  | symbol (ptr : ℕ)
  | object (ptr : ℕ) (cls : ClassId)
  deriving DecidableEq, Repr

def JSValue.isFunction : JSValue → Bool
  | .object _ .function => true
  | .object _ (.revokedProxy callable) | .object _ (.deepProxy callable) => callable
  | _ => false

def JSValue.isError : JSValue → Bool
  | .object _ .error => true
  | _ => false

/-- `int64_t`: the slot index plus one below, the generation above. -/
abbrev Handle := BitVec 64

/-- What a host hands in. The text of an `object` is JSON, and `none` where
`v->str` is NULL; `exception` carries the message. -/
inductive HostValue
  | undefined
  | null
  | bool (b : Bool)
  | number (bits : UInt64)
  | string (utf8 : Bytes)
  | object (json : Option Bytes)
  | ref (h : Handle)
  | bigInt (text : Bytes)
  | binary (bytes : Bytes)
  | exception (message : Bytes)
  deriving DecidableEq, Repr

-- ---------------------------------------------------------------------------
-- The shared output buffers
-- ---------------------------------------------------------------------------

/-- The call under consideration, or a call nested in it. -/
inductive Writer
  | own
  | nested
  deriving DecidableEq, Repr

structure Cell where
  byte : UInt8
  writer : Writer
  deriving DecidableEq, Repr

def cells (who : Writer) (bytes : Bytes) : List Cell := bytes.map fun b => ⟨b, who⟩

/-- `data` is the whole block, `cap` its length, and `none` a byte never
written. `moves` counts the `realloc`s: a pointer into the block of an earlier
count is dangling. -/
structure Buf where
  data : List (Option Cell)
  len : ℕ
  moves : ℕ
  deriving DecidableEq, Repr

/-- A buffer with no block, as `memset` and `buf_free` leave it. -/
def Buf.zero : Buf := ⟨[], 0, 0⟩

def Buf.reset (b : Buf) : Buf := { b with len := 0 }

/-- The doubling loop of `buf_append`; `fuel` bounds it and `need` rounds are
enough, since a capacity starts above zero. -/
def growCap (need : ℕ) : ℕ → ℕ → ℕ
  | 0, cap => cap
  | fuel + 1, cap => if cap < need then growCap need fuel (cap * 2) else cap

def Buf.append (b : Buf) (cs : List Cell) : Buf :=
  if b.data.length - b.len < cs.length then
    let need := b.len + cs.length
    let cap := growCap need need (if b.data.length = 0 then 64 else b.data.length)
    { data := b.data.take b.len ++ cs.map some ++ List.replicate (cap - need) none
      len := need
      moves := b.moves + 1 }
  else
    { b with
      data := b.data.take b.len ++ cs.map some ++ b.data.drop (b.len + cs.length)
      len := b.len + cs.length }

/-- The write that every publishing function makes. -/
def Buf.write (b : Buf) (cs : List Cell) : Buf := b.reset.append cs

/-- The pointer and the length that `publish` stores. -/
structure Ptr where
  moves : ℕ
  len : ℕ
  deriving DecidableEq, Repr

def Buf.publish (b : Buf) : Ptr := ⟨b.moves, b.len⟩

/-- The bytes that a pointer into this buffer designates, if its block is still
there. No byte is designated by a length of zero, wherever it points. -/
def Buf.read (b : Buf) (p : Ptr) : Option (List (Option Cell)) :=
  if p.len = 0 then some []
  else if p.moves = b.moves then some (b.data.take p.len)
  else none

-- ---------------------------------------------------------------------------
-- What a write does to a published pointer
-- ---------------------------------------------------------------------------

theorem Buf.write_cases (b : Buf) (cs : List Cell) :
    ∃ tail k, b.write cs = ⟨cs.map some ++ tail, cs.length, b.moves + k⟩ := by
  by_cases h : b.data.length < cs.length
  · exact ⟨_, 1, by simp [write, reset, append, h]; rfl⟩
  · exact ⟨_, 0, by simp [write, reset, append, h]; rfl⟩

theorem Buf.write_len (b : Buf) (cs : List Cell) : (b.write cs).len = cs.length := by
  obtain ⟨tail, k, h⟩ := b.write_cases cs
  simp [h]

theorem Buf.write_data (b : Buf) (cs : List Cell) :
    ∃ tail, (b.write cs).data = cs.map some ++ tail := by
  obtain ⟨tail, k, h⟩ := b.write_cases cs
  exact ⟨tail, by simp [h]⟩

/-- A write is what its own pointer designates. -/
theorem Buf.read_write (b : Buf) (cs : List Cell) :
    (b.write cs).read (b.write cs).publish = some (cs.map some) := by
  obtain ⟨tail, hdata⟩ := b.write_data cs
  simp only [read, publish, write_len, hdata]
  split
  · simp [List.eq_nil_of_length_eq_zero ‹_›]
  · simp

theorem Buf.write_nil (b : Buf) : b.write [] = b.reset := by
  simp [write, reset, append]

theorem Buf.read_reset (b : Buf) (p : Ptr) : b.reset.read p = b.read p := rfl

/-- The first byte of the block is one that a nested call wrote. -/
def Buf.Spoiled (b : Buf) : Prop := ∃ c, b.data.head? = some (some c) ∧ c.writer = .nested

theorem Buf.spoiled_of_write (b : Buf) (hbs : bytes ≠ []) :
    (b.write (cells .nested bytes)).Spoiled := by
  obtain ⟨tail, hdata⟩ := b.write_data (cells .nested bytes)
  cases bytes with
  | nil => exact absurd rfl hbs
  | cons x xs => exact ⟨⟨x, .nested⟩, by rw [hdata]; rfl, rfl⟩

theorem Buf.Spoiled.write {b : Buf} (h : b.Spoiled) (bytes : Bytes) :
    (b.write (cells .nested bytes)).Spoiled := by
  cases bytes with
  | nil => rwa [cells, List.map_nil, Buf.write_nil]
  | cons x xs => exact b.spoiled_of_write (by simp)

/-- A pointer into a spoiled buffer does not designate bytes of the call's own,
whether or not its block is still there. -/
theorem Buf.Spoiled.read_ne {b : Buf} {p : Ptr} (h : b.Spoiled) (hlen : p.len ≠ 0) :
    b.read p ≠ some ((cells .own bytes).map some) := by
  obtain ⟨c, hc, hw⟩ := h
  intro hread
  simp only [Buf.read, hlen, if_false] at hread
  split at hread
  · have hhead : b.data.head? = ((cells .own bytes).map some).head? := by
      rw [← Option.some.inj hread, List.head?_take, if_neg hlen]
    cases bytes with
    | nil => simp [hc, cells] at hhead
    | cons x xs =>
      simp only [hc, cells, List.map_cons, List.head?_cons, Option.some.injEq] at hhead
      simp [hhead] at hw
  · cases hread

end QuickJsKmp
