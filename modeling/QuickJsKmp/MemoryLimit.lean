import Mathlib.Algebra.BigOperators.Group.List.Basic
import Mathlib.Data.BitVec
import Mathlib.Data.List.Perm.Subperm
import Mathlib.Tactic.Abel
import QuickJsKmp.Attribution
import QuickJsKmp.CStrings

/-!
# The memory limit

What `kmp_malloc`, `kmp_free` and `kmp_realloc` keep about their blocks, and which requests they
refuse, from the first allocation of `kmpjs_create` on. `size_t` has `w` bits and `overhead` is
`KMP_MALLOC_OVERHEAD`. The C heap answers as it likes.
-/

namespace QuickJsKmp.MemoryLimit

open Machine (Along along_congr)
open Attribution (MallocState Granted kmpMalloc kmpFree kmpRealloc)

-- ---------------------------------------------------------------------------
-- The configuration
-- ---------------------------------------------------------------------------

structure JsEngineConfig where
  memoryLimit : BitVec 64
  maxStackSize : BitVec 64
  gcThreshold : BitVec 64
  moduleScheme : Text
  memoryLimit_nonneg : 0 ≤ memoryLimit.toInt
  maxStackSize_nonneg : 0 ≤ maxStackSize.toInt
  gcThreshold_nonneg : 0 ≤ gcThreshold.toInt
  moduleScheme_accepted : NameUse.moduleScheme.Accepts moduleScheme

instance (text : Text) : Decidable (NameUse.moduleScheme.Accepts text) :=
  inferInstanceAs (Decidable (_ → _))

/-- The constructor, with the `require`s of its `init`. -/
def JsEngineConfig.new (memoryLimit maxStackSize gcThreshold : BitVec 64) (moduleScheme : Text) :
    Except String JsEngineConfig :=
  if hmemory : 0 ≤ memoryLimit.toInt then
    if hstack : 0 ≤ maxStackSize.toInt then
      if hgc : 0 ≤ gcThreshold.toInt then
        if hscheme : NameUse.moduleScheme.Accepts moduleScheme then
          .ok ⟨memoryLimit, maxStackSize, gcThreshold, moduleScheme, hmemory, hstack, hgc, hscheme⟩
        else .error "moduleScheme must be a non-empty URL scheme"
      else .error "gcThreshold must not be negative"
    else .error "maxStackSize must not be negative"
  else .error "memoryLimit must not be negative"

/-- More than `memoryLimit` bytes, where 0 is no limit. -/
def JsEngineConfig.ExceededBy (c : JsEngineConfig) (n : ℕ) : Prop :=
  0 < c.memoryLimit.toInt ∧ c.memoryLimit.toInt < n

instance (c : JsEngineConfig) (n : ℕ) : Decidable (c.ExceededBy n) :=
  inferInstanceAs (Decidable (_ ∧ _))

variable {w : ℕ}

/-- How `kmpjs_create` calls `JS_SetMemoryLimit`. -/
def setMemoryLimit (c : JsEngineConfig) (s : MallocState w) : MallocState w :=
  if 0 < c.memoryLimit.toInt then { s with mallocLimit := .ofInt w c.memoryLimit.toInt } else s

-- ---------------------------------------------------------------------------
-- The heap
-- ---------------------------------------------------------------------------

/-- What `malloc` returned, and what `kmp_malloc_usable_size` says of it. -/
structure Block (w : ℕ) where
  addr : BitVec w
  usable : BitVec w
  deriving DecidableEq, Repr

/-- `limited` tells whether `kmpjs_create` has come past `JS_SetMemoryLimit`. The program keeps
neither that nor the list of the live blocks. -/
structure Heap (w : ℕ) where
  state : MallocState w
  oom : Bool
  limited : Bool
  blocks : List (Block w)
  deriving DecidableEq, Repr

/-- As `JS_NewRuntime2` begins. -/
def Heap.init : Heap w := ⟨⟨0, 0, -1⟩, false, false, []⟩

/-- `given` is the answer of the C heap if it is asked. `clearOom` is `run_begin` or
`take_exception`. -/
inductive Op (w : ℕ)
  | malloc (size : BitVec w) (given : Option (Block w))
  | free (ptr : Option (Block w))
  | realloc (ptr : Option (Block w)) (size : BitVec w) (given : Option (Block w))
  | setMemoryLimit
  | clearOom
  deriving DecidableEq, Repr

/-- The live blocks without the one that is pointed to. -/
def dropped (ptr : Option (Block w)) (blocks : List (Block w)) : List (Block w) :=
  ptr.elim blocks blocks.erase

/-- The live blocks after a call that was served. -/
def Op.served : Op w → List (Block w) → List (Block w)
  | .malloc _ given, blocks => given.toList ++ blocks
  | .free ptr, blocks => dropped ptr blocks
  | .realloc ptr size given, blocks =>
    if size = 0 then dropped ptr blocks else given.toList ++ dropped ptr blocks
  | _, blocks => blocks

def Op.serve (c : JsEngineConfig) (overhead : BitVec w) (s : MallocState w) :
    Op w → MallocState w × Granted
  | .malloc size given => kmpMalloc overhead s size (given.map Block.usable)
  | .free ptr => (kmpFree overhead s (ptr.map Block.usable), .done)
  | .realloc ptr size given =>
    kmpRealloc overhead s (ptr.map Block.usable) size (given.map Block.usable)
  | .setMemoryLimit => (QuickJsKmp.MemoryLimit.setMemoryLimit c s, .done)
  | .clearOom => (s, .done)

def Heap.step (c : JsEngineConfig) (overhead : BitVec w) (h : Heap w) (op : Op w) :
    Heap w × Granted :=
  let (state, granted) := op.serve c overhead h.state
  ({ state
     oom := (h.oom && op ≠ .clearOom) || granted = .refused
     limited := h.limited || op = .setMemoryLimit
     blocks := if granted = .done then op.served h.blocks else h.blocks }, granted)

-- ---------------------------------------------------------------------------
-- Requests and releases
-- ---------------------------------------------------------------------------

/-- The call asks for `size` bytes, in place of a block or for a new one. -/
inductive Op.Requests : Op w → BitVec w → Option (Block w) → Option (Block w) → Prop
  | malloc (size : BitVec w) (given : Option (Block w)) :
    Requests (.malloc size given) size none given
  | realloc (ptr : Option (Block w)) {size : BitVec w} (given : Option (Block w)) (ask : size ≠ 0) :
    Requests (.realloc ptr size given) size ptr given

/-- The call gives the block back. -/
inductive Op.Releases : Op w → Block w → Prop
  | free (b : Block w) : Releases (.free (some b)) b
  | realloc (b : Block w) (given : Option (Block w)) : Releases (.realloc (some b) 0 given) b

/-- The call does nothing. -/
inductive Op.Idles : Op w → Prop
  | free : Idles (.free none)
  | realloc (given : Option (Block w)) : Idles (.realloc none 0 given)

def usableOf (ptr : Option (Block w)) : BitVec w := ptr.elim 0 Block.usable

/-- The accounting once `b` is there, in place of `old` if that is a block. -/
def charged (overhead : BitVec w) (s : MallocState w) (old : Option (Block w)) (b : Block w) :
    MallocState w :=
  match old with
  | none =>
    { s with
      mallocCount := s.mallocCount + 1
      mallocSize := s.mallocSize + (b.usable + overhead) }
  | some o => { s with mallocSize := s.mallocSize + (b.usable - o.usable) }

/-- What a call comes to. -/
inductive Heap.Stepped (c : JsEngineConfig) (overhead : BitVec w) (h : Heap w) :
    Op w → Heap w × Granted → Prop
  | refused {op : Op w} {size : BitVec w} {old given : Option (Block w)}
    (request : op.Requests size old given)
    (above : h.state.mallocLimit < h.state.mallocSize + size - usableOf old) :
    Stepped c overhead h op ({ h with oom := true }, .refused)
  | exhausted {op : Op w} {size : BitVec w} {old : Option (Block w)}
    (request : op.Requests size old none)
    (within : ¬ h.state.mallocLimit < h.state.mallocSize + size - usableOf old) :
    Stepped c overhead h op (h, .exhausted)
  | taken {op : Op w} {size : BitVec w} {old : Option (Block w)} {b : Block w}
    (request : op.Requests size old (some b))
    (within : ¬ h.state.mallocLimit < h.state.mallocSize + size - usableOf old) :
    Stepped c overhead h op
      ({ h with state := charged overhead h.state old b, blocks := b :: dropped old h.blocks },
        .done)
  | released {op : Op w} {b : Block w} (release : op.Releases b) :
    Stepped c overhead h op
      ({ h with
          state := kmpFree overhead h.state (some b.usable)
          blocks := h.blocks.erase b }, .done)
  | idle {op : Op w} (idles : op.Idles) : Stepped c overhead h op (h, .done)
  | limited :
    Stepped c overhead h .setMemoryLimit
      ({ h with state := setMemoryLimit c h.state, limited := true }, .done)
  | cleared : Stepped c overhead h .clearOom ({ h with oom := false }, .done)

variable {c : JsEngineConfig} {overhead : BitVec w} {h h' : Heap w} {op : Op w} {size : BitVec w}
  {old given : Option (Block w)} {b : Block w} {blocks : List (Block w)}

theorem serve_request (h : op.Requests size old given) (s : MallocState w) :
    op.serve c overhead s =
      if s.mallocLimit < s.mallocSize + size - usableOf old then (s, .refused)
      else
        match given with
        | none => (s, .exhausted)
        | some b => (charged overhead s old b, .done) := by
  cases h with
  | malloc => cases given <;> simp [Op.serve, kmpMalloc, usableOf, charged]
  | realloc _ _ ask =>
    cases old with
    | none =>
      simp only [Op.serve, Option.map_none, kmpRealloc, if_neg ask]
      cases given <;> simp [kmpMalloc, usableOf, charged]
    | some o =>
      simp only [Op.serve, Option.map_some, kmpRealloc, if_neg ask]
      cases given <;> rfl

theorem served_request (h : op.Requests size old given) (blocks : List (Block w)) :
    op.served blocks = given.toList ++ dropped old blocks := by
  cases h with
  | malloc => rfl
  | realloc _ _ ask => rw [Op.served, if_neg ask]

theorem requests_flags (h : op.Requests size old given) :
    op ≠ .clearOom ∧ op ≠ .setMemoryLimit := by
  cases h <;> exact ⟨nofun, nofun⟩

theorem step_request (c : JsEngineConfig) (overhead : BitVec w) (h : Heap w)
    (hreq : op.Requests size old given) :
    h.step c overhead op =
      if h.state.mallocLimit < h.state.mallocSize + size - usableOf old then
        ({ h with oom := true }, .refused)
      else
        match given with
        | none => (h, .exhausted)
        | some b =>
          ({ h with
              state := charged overhead h.state old b
              blocks := b :: dropped old h.blocks }, .done) := by
  obtain ⟨hclear, hset⟩ := requests_flags hreq
  have hserve : op.serve c overhead h.state = _ := serve_request hreq h.state
  split at hserve
  case isTrue hover => simp [Heap.step, hserve, hset, hover]
  case isFalse hwithin =>
    cases given with
    | none => simp [Heap.step, hserve, hset, hclear, hwithin]
    | some b => simp [Heap.step, hserve, hset, hclear, hwithin, served_request hreq]

theorem request_cases (hreq : op.Requests size old given) :
    h.Stepped c overhead op (h.step c overhead op) := by
  rw [step_request c overhead h hreq]
  split
  case isTrue hover => exact .refused hreq hover
  case isFalse hwithin =>
    cases given with
    | none => exact .exhausted hreq hwithin
    | some b => exact .taken hreq hwithin

theorem refused_iff (hreq : op.Requests size old given) :
    (h.step c overhead op).2 = .refused ↔
      h.state.mallocLimit < h.state.mallocSize + size - usableOf old := by
  rw [step_request c overhead h hreq]
  split
  case isTrue hover => exact iff_of_true rfl hover
  case isFalse hwithin => cases given <;> exact iff_of_false nofun hwithin

theorem done_iff (hreq : op.Requests size old (some b)) :
    (h.step c overhead op).2 = .done ↔
      ¬ h.state.mallocLimit < h.state.mallocSize + size - usableOf old := by
  rw [step_request c overhead h hreq]
  split
  case isTrue hover => exact iff_of_false nofun (not_not_intro hover)
  case isFalse hwithin => exact iff_of_true rfl hwithin

theorem step_cases (c : JsEngineConfig) (overhead : BitVec w) (h : Heap w) (op : Op w) :
    h.Stepped c overhead op (h.step c overhead op) := by
  cases op with
  | malloc size given => exact request_cases (.malloc size given)
  | free ptr =>
    cases ptr with
    | none => simpa [Heap.step, Op.serve, Op.served, kmpFree, dropped] using .idle .free
    | some b => simpa [Heap.step, Op.serve, Op.served, dropped] using .released (.free b)
  | realloc ptr size given =>
    by_cases hsize : size = 0
    · subst hsize
      cases ptr with
      | none =>
        simpa [Heap.step, Op.serve, Op.served, kmpRealloc, dropped] using .idle (.realloc given)
      | some b =>
        simpa [Heap.step, Op.serve, Op.served, kmpRealloc, dropped] using
          .released (.realloc b given)
    · exact request_cases (.realloc ptr given hsize)
  | setMemoryLimit => simpa [Heap.step, Op.serve, Op.served] using .limited
  | clearOom => simpa [Heap.step, Op.serve, Op.served] using .cleared

-- ---------------------------------------------------------------------------
-- What is asked of a run
-- ---------------------------------------------------------------------------

/-- What the C heap may answer: another address than those of the other live blocks, and at least
the bytes that were asked for. The pointers that are passed are live. -/
structure Heap.Allowed (h : Heap w) (op : Op w) : Prop where
  resized : ∀ size b given, op.Requests size (some b) given → b ∈ h.blocks
  released : ∀ b, op.Releases b → b ∈ h.blocks
  apart : ∀ size old b, op.Requests size old (some b) →
    b.addr ≠ 0 ∧ ∀ b' ∈ dropped old h.blocks, b'.addr ≠ b.addr
  enough : ∀ size old b, op.Requests size old (some b) → size ≤ b.usable

/-- Usable size and overhead of all blocks. -/
def accounted (overhead : BitVec w) (blocks : List (Block w)) : ℕ :=
  (blocks.map fun b => b.usable.toNat + overhead.toNat).sum

/-- The accounted size with what is asked for, less the block that it is to replace. -/
def Heap.total (overhead : BitVec w) (h : Heap w) (size : BitVec w) (old : Option (Block w)) : ℕ :=
  accounted overhead h.blocks + size.toNat - (usableOf old).toNat

structure Heap.Exact (overhead : BitVec w) (h : Heap w) : Prop where
  count : h.state.mallocCount.toNat = h.blocks.length
  size : h.state.mallocSize.toNat = accounted overhead h.blocks

/-- The accounting is exact after the call, no sum of the limit test wraps, nothing goes below zero,
and exactly the requests that exceed the limit are refused, which sets the flag and nothing else. -/
structure Heap.Sound (c : JsEngineConfig) (overhead : BitVec w) (h : Heap w) (op : Op w) :
    Prop where
  exact : (h.step c overhead op).1.Exact overhead
  released : ∀ b, op.Releases b → 1 ≤ h.state.mallocCount.toNat ∧
    b.usable.toNat + overhead.toNat ≤ h.state.mallocSize.toNat
  tested : ∀ size old given, op.Requests size old given →
    h.state.mallocSize.toNat + size.toNat < 2 ^ w ∧
      (usableOf old).toNat ≤ h.state.mallocSize.toNat + size.toNat
  refused : (h.step c overhead op).2 = .refused ↔
    ∃ size old given, op.Requests size old given ∧ c.ExceededBy (h.total overhead size old)
  unchanged : (h.step c overhead op).2 = .refused →
    (h.step c overhead op).1 = { h with oom := true }

/-- The difference that `kmp_realloc` adds, `kmp_malloc_usable_size(ptr) - old_size`, does not wrap
either. -/
def Heap.Differs (c : JsEngineConfig) (overhead : BitVec w) (h : Heap w) (op : Op w) : Prop :=
  ∀ size o b, op.Requests size (some o) (some b) → (h.step c overhead op).2 = .done →
    (b.usable - o.usable).toNat + o.usable.toNat = b.usable.toNat

/-- The sum for a request is in the range of `size_t`. It does not exceed the limit before that is
set, nor what the cast leaves of a limit out of range. With the block that the C heap gives for it,
the blocks are in that range together. -/
structure Heap.Fits (c : JsEngineConfig) (overhead : BitVec w) (h : Heap w) (op : Op w) :
    Prop where
  room : ∀ size old given, op.Requests size old given →
    accounted overhead h.blocks + size.toNat < 2 ^ w
  early : h.limited = false → ∀ size old given, op.Requests size old given →
    ¬ c.ExceededBy (h.total overhead size old)
  cast : h.limited = true → 2 ^ w ≤ c.memoryLimit.toInt →
    ∀ size old given, op.Requests size old given →
      h.total overhead size old ≤ c.memoryLimit.toInt % 2 ^ w
  answer : ∀ size old b, op.Requests size old (some b) →
    ¬ c.ExceededBy (h.total overhead size old) →
      accounted overhead (b :: dropped old h.blocks) < 2 ^ w

/-- A block that is resized does not become smaller. -/
def Heap.Grows (c : JsEngineConfig) (overhead : BitVec w) (h : Heap w) (op : Op w) : Prop :=
  ∀ size o b, op.Requests size (some o) (some b) → ¬ c.ExceededBy (h.total overhead size (some o)) →
    o.usable ≤ b.usable

-- ---------------------------------------------------------------------------
-- The accounting modulo 2 ^ w
-- ---------------------------------------------------------------------------

/-- Whatever wraps, the fields are what they should be modulo `2 ^ w`. -/
structure Heap.Books (overhead : BitVec w) (h : Heap w) : Prop where
  count : h.state.mallocCount = BitVec.ofNat w h.blocks.length
  size : h.state.mallocSize = BitVec.ofNat w (accounted overhead h.blocks)

theorem accounted_cons (b : Block w) (blocks : List (Block w)) :
    accounted overhead (b :: blocks) =
      b.usable.toNat + overhead.toNat + accounted overhead blocks := by
  rw [accounted, List.map_cons, List.sum_cons, accounted]

theorem accounted_erase (h : b ∈ blocks) :
    b.usable.toNat + overhead.toNat + accounted overhead (blocks.erase b) =
      accounted overhead blocks :=
  List.sum_map_erase (fun b : Block w => b.usable.toNat + overhead.toNat) h

theorem length_erase (h : b ∈ blocks) :
    (blocks.erase b).length + 1 = blocks.length := by
  rw [List.length_erase_of_mem h]
  exact Nat.sub_add_cancel (List.length_pos_of_mem h)

theorem ofNat_weight (b : Block w) (n : ℕ) :
    BitVec.ofNat w (b.usable.toNat + overhead.toNat + n) =
      b.usable + overhead + BitVec.ofNat w n := by
  rw [BitVec.ofNat_add, BitVec.ofNat_add, BitVec.ofNat_toNat, BitVec.ofNat_toNat,
    BitVec.setWidth_eq, BitVec.setWidth_eq]

theorem books_init : (Heap.init : Heap w).Books overhead := ⟨rfl, rfl⟩

theorem books_charged (b : Block w) (hbooks : h.Books overhead)
    (hlive : ∀ o, old = some o → o ∈ h.blocks) :
    Heap.Books overhead
      { h with state := charged overhead h.state old b, blocks := b :: dropped old h.blocks } := by
  cases old with
  | none =>
    constructor
    · show h.state.mallocCount + 1 = BitVec.ofNat w (h.blocks.length + 1)
      rw [hbooks.count, BitVec.ofNat_add]
      rfl
    · show h.state.mallocSize + (b.usable + overhead) =
        BitVec.ofNat w (accounted overhead (b :: h.blocks))
      rw [hbooks.size, accounted_cons, ofNat_weight]
      exact add_comm _ _
  | some o =>
    have ho : o ∈ h.blocks := hlive o rfl
    constructor
    · show h.state.mallocCount = BitVec.ofNat w ((h.blocks.erase o).length + 1)
      rw [hbooks.count, length_erase ho]
    · show h.state.mallocSize + (b.usable - o.usable) =
        BitVec.ofNat w (accounted overhead (b :: h.blocks.erase o))
      rw [hbooks.size, ← accounted_erase ho, accounted_cons, ofNat_weight, ofNat_weight]
      abel

theorem books_released (hbooks : h.Books overhead) (hb : b ∈ h.blocks) :
    Heap.Books overhead
      { h with
        state := kmpFree overhead h.state (some b.usable)
        blocks := h.blocks.erase b } := by
  constructor
  · show h.state.mallocCount - 1 = BitVec.ofNat w (h.blocks.erase b).length
    rw [hbooks.count, ← length_erase hb, BitVec.ofNat_add]
    exact add_sub_cancel_right _ _
  · show h.state.mallocSize - (b.usable + overhead) =
      BitVec.ofNat w (accounted overhead (h.blocks.erase b))
    rw [hbooks.size, ← accounted_erase hb, ofNat_weight]
    exact add_sub_cancel_left _ _

-- ---------------------------------------------------------------------------
-- Reachable heaps
-- ---------------------------------------------------------------------------

structure Heap.Inv (c : JsEngineConfig) (overhead : BitVec w) (h : Heap w) : Prop where
  books : h.Books overhead
  small : accounted overhead h.blocks < 2 ^ w
  distinct : ((0 : BitVec w) :: h.blocks.map Block.addr).Nodup
  limit : h.state.mallocLimit =
    if h.limited ∧ 0 < c.memoryLimit.toInt then .ofInt w c.memoryLimit.toInt else -1

theorem init_inv (c : JsEngineConfig) : (Heap.init : Heap w).Inv c overhead :=
  ⟨books_init, Nat.two_pow_pos w, List.nodup_singleton 0, rfl⟩

/-- There are less blocks than addresses. -/
theorem length_lt
    (h : ((0 : BitVec w) :: blocks.map Block.addr).Nodup) : blocks.length < 2 ^ w := by
  have hnodup : (((0 : BitVec w) :: blocks.map Block.addr).map BitVec.toNat).Nodup :=
    h.map fun _ _ => BitVec.eq_of_toNat_eq
  have hsub : ((0 : BitVec w) :: blocks.map Block.addr).map BitVec.toNat ⊆ List.range (2 ^ w) := by
    intro n hn
    obtain ⟨x, -, rfl⟩ := List.mem_map.mp hn
    exact List.mem_range.mpr x.isLt
  have hle := (hnodup.subperm hsub).length_le
  rw [List.length_map, List.length_cons, List.length_map, List.length_range] at hle
  exact hle

theorem Heap.Inv.exact (hinv : h.Inv c overhead) : h.Exact overhead := by
  constructor
  · rw [hinv.books.count, BitVec.toNat_ofNat, Nat.mod_eq_of_lt (length_lt hinv.distinct)]
  · rw [hinv.books.size, BitVec.toNat_ofNat, Nat.mod_eq_of_lt hinv.small]

theorem weight_le (h : b ∈ blocks) :
    b.usable.toNat + overhead.toNat ≤ accounted overhead blocks :=
  Nat.le.intro (accounted_erase h)

theorem usableOf_le (hlive : ∀ o, old = some o → o ∈ blocks) :
    (usableOf old).toNat ≤ accounted overhead blocks := by
  cases old with
  | none => exact Nat.zero_le _
  | some o => exact (Nat.le_add_right _ _).trans (weight_le (hlive o rfl))

theorem Heap.Allowed.live (hallowed : h.Allowed op)
    (hreq : op.Requests size old given) : ∀ o, old = some o → o ∈ h.blocks := by
  rintro o rfl
  exact hallowed.resized size o given hreq

theorem total_lt (old : Option (Block w))
    (hroom : accounted overhead h.blocks + size.toNat < 2 ^ w) :
    h.total overhead size old < 2 ^ w :=
  lt_of_le_of_lt (Nat.sub_le _ _) hroom

/-- Without a wrap the limit test compares what is asked for. -/
theorem over_iff (hinv : h.Inv c overhead)
    (hlive : ∀ o, old = some o → o ∈ h.blocks)
    (hroom : accounted overhead h.blocks + size.toNat < 2 ^ w) :
    h.state.mallocLimit < h.state.mallocSize + size - usableOf old ↔
      h.state.mallocLimit.toNat < h.total overhead size old := by
  have hsize : h.state.mallocSize.toNat = accounted overhead h.blocks := hinv.exact.size
  have hsum : (h.state.mallocSize + size).toNat = accounted overhead h.blocks + size.toNat := by
    rw [BitVec.toNat_add_of_lt (hsize ▸ hroom), hsize]
  have hle : usableOf old ≤ h.state.mallocSize + size := by
    rw [BitVec.le_def, hsum]
    exact (usableOf_le hlive).trans (Nat.le_add_right _ _)
  rw [BitVec.lt_def, BitVec.toNat_sub_of_le hle, hsum, Heap.total]

theorem unlimited_of_unset (hinv : h.Inv c overhead)
    (hset : ¬ (h.limited = true ∧ 0 < c.memoryLimit.toInt)) (hn : n < 2 ^ w) :
    ¬ h.state.mallocLimit.toNat < n := by
  have hones : (-1 : BitVec w).toNat = 2 ^ w - 1 :=
    (congrArg BitVec.toNat BitVec.neg_one_eq_allOnes).trans BitVec.toNat_allOnes
  rw [hinv.limit, if_neg hset, hones]
  omega

theorem toNat_limit (hinv : h.Inv c overhead)
    (hset : h.limited = true ∧ 0 < c.memoryLimit.toInt) :
    (h.state.mallocLimit.toNat : ℤ) = c.memoryLimit.toInt % 2 ^ w := by
  have hne : ((2 ^ w : ℕ) : ℤ) ≠ 0 := Int.natCast_ne_zero.mpr (Nat.two_pow_pos w).ne'
  rw [hinv.limit, if_pos hset, BitVec.toNat_ofInt, Int.toNat_of_nonneg (Int.emod_nonneg _ hne),
    Nat.cast_pow]
  rfl

/-- What is stored decides as the limit does, unless it is not set yet or out of range. -/
theorem limit_iff (hinv : h.Inv c overhead) (hn : n < 2 ^ w) :
    (h.state.mallocLimit.toNat < n ↔ c.ExceededBy n) ↔
      (h.limited = false → ¬ c.ExceededBy n) ∧
      (h.limited = true → 2 ^ w ≤ c.memoryLimit.toInt → n ≤ c.memoryLimit.toInt % 2 ^ w) := by
  have hlt : (n : ℤ) < 2 ^ w := by exact_mod_cast hn
  by_cases hset : h.limited = true ∧ 0 < c.memoryLimit.toInt
  · have hlimit := toNat_limit hinv hset
    obtain ⟨hlimited, hpos⟩ := hset
    simp only [hlimited, reduceCtorEq, false_imp_iff, true_imp_iff, true_and,
      JsEngineConfig.ExceededBy, hpos]
    by_cases hfit : c.memoryLimit.toInt < 2 ^ w
    · rw [Int.emod_eq_of_lt hpos.le hfit] at hlimit
      omega
    · omega
  · have hnot := unlimited_of_unset hinv hset hn
    simp only [hnot, false_iff]
    constructor
    · intro hwithin
      exact ⟨fun _ => hwithin, fun hlimited hrange => absurd ⟨hlimited, by omega⟩ hset⟩
    · rintro ⟨hearly, -⟩ hexceeded
      cases hlimited : h.limited with
      | false => exact hearly hlimited hexceeded
      | true => exact hset ⟨hlimited, hexceeded.1⟩

theorem Op.Requests.unique (h : op.Requests size old given)
    (h' : op.Requests size' old' given') : size = size' ∧ old = old' ∧ given = given' := by
  cases h <;> cases h' <;> exact ⟨rfl, rfl, rfl⟩

theorem Heap.Fits.over_iff (hfits : h.Fits c overhead op)
    (hinv : h.Inv c overhead) (hallowed : h.Allowed op) (hreq : op.Requests size old given) :
    h.state.mallocLimit < h.state.mallocSize + size - usableOf old ↔
      c.ExceededBy (h.total overhead size old) := by
  have hroom := hfits.room size old given hreq
  rw [MemoryLimit.over_iff hinv (hallowed.live hreq) hroom]
  refine (limit_iff hinv (total_lt old hroom)).mpr ⟨fun hearly => ?_, ?_⟩
  · exact hfits.early hearly size old given hreq
  · exact fun hlimited hrange => hfits.cast hlimited hrange size old given hreq

theorem dropped_sublist (ptr : Option (Block w)) (blocks : List (Block w)) :
    (dropped ptr blocks).Sublist blocks := by
  cases ptr with
  | none => exact .refl _
  | some b => exact List.erase_sublist

theorem distinct_dropped (ptr : Option (Block w))
    (h : ((0 : BitVec w) :: blocks.map Block.addr).Nodup) :
    ((0 : BitVec w) :: (dropped ptr blocks).map Block.addr).Nodup :=
  h.sublist (((dropped_sublist ptr blocks).map Block.addr).cons_cons 0)

theorem charged_limit (s : MallocState w) (old : Option (Block w)) (b : Block w) :
    (charged overhead s old b).mallocLimit = s.mallocLimit := by
  cases old <;> rfl

theorem setMemoryLimit_fields (c : JsEngineConfig) (s : MallocState w) :
    (setMemoryLimit c s).mallocCount = s.mallocCount ∧
    (setMemoryLimit c s).mallocSize = s.mallocSize ∧
    (setMemoryLimit c s).mallocLimit =
      if 0 < c.memoryLimit.toInt then .ofInt w c.memoryLimit.toInt else s.mallocLimit := by
  unfold setMemoryLimit
  split <;> exact ⟨rfl, rfl, rfl⟩

theorem step_inv (hinv : h.Inv c overhead) (hallowed : h.Allowed op)
    (hfits : h.Fits c overhead op) : (h.step c overhead op).1.Inv c overhead := by
  have hstep := step_cases c overhead h op
  generalize h.step c overhead op = r at hstep ⊢
  cases hstep with
  | refused | exhausted | idle | cleared =>
    exact ⟨⟨hinv.books.count, hinv.books.size⟩, hinv.small, hinv.distinct, hinv.limit⟩
  | @taken _ size old b request within =>
    have hnot := mt (hfits.over_iff hinv hallowed request).mpr within
    refine ⟨books_charged b hinv.books (hallowed.live request),
      hfits.answer size old b request hnot, ?_, (charged_limit _ old b).trans hinv.limit⟩
    obtain ⟨hzero, hnodup⟩ := List.nodup_cons.mp (distinct_dropped old hinv.distinct)
    obtain ⟨hne, happart⟩ := hallowed.apart size old b request
    have hfresh : b.addr ∉ (dropped old h.blocks).map Block.addr := by
      rintro hmem
      obtain ⟨b', hb', heq⟩ := List.mem_map.mp hmem
      exact happart b' hb' heq
    refine List.nodup_cons.mpr ⟨?_, List.nodup_cons.mpr ⟨hfresh, hnodup⟩⟩
    intro hmem
    rcases List.mem_cons.mp hmem with heq | hmem
    · exact hne heq.symm
    · exact hzero hmem
  | @released _ b release =>
    have hb := hallowed.released b release
    refine ⟨books_released hinv.books hb, lt_of_le_of_lt ?_ hinv.small,
      distinct_dropped (some b) hinv.distinct, hinv.limit⟩
    exact (Nat.le_add_left _ _).trans (accounted_erase hb).le
  | limited =>
    obtain ⟨hcount, hsize, hlimit⟩ := setMemoryLimit_fields c h.state
    refine ⟨⟨hcount.trans hinv.books.count, hsize.trans hinv.books.size⟩, hinv.small,
      hinv.distinct, ?_⟩
    rw [hlimit, hinv.limit]
    by_cases hpos : 0 < c.memoryLimit.toInt
    · simp only [hpos, and_self, if_true]
    · simp only [hpos, and_false, if_false]

theorem sound_of_fits (hinv : h.Inv c overhead) (hallowed : h.Allowed op)
    (hfits : h.Fits c overhead op) : h.Sound c overhead op where
  exact := (step_inv hinv hallowed hfits).exact
  released := by
    intro b hrel
    have hb := hallowed.released b hrel
    rw [hinv.exact.count, hinv.exact.size]
    exact ⟨List.length_pos_of_mem hb, weight_le hb⟩
  tested := by
    intro size old given hreq
    rw [hinv.exact.size]
    exact ⟨hfits.room size old given hreq,
      (usableOf_le (hallowed.live hreq)).trans (Nat.le_add_right _ _)⟩
  refused := by
    constructor
    · intro hrefused
      have hstep := step_cases c overhead h op
      generalize h.step c overhead op = r at hstep hrefused
      cases hstep with
      | refused request above =>
        exact ⟨_, _, _, request, (hfits.over_iff hinv hallowed request).mp above⟩
      | _ => cases hrefused
    · rintro ⟨size, old, given, hreq, hexceeded⟩
      exact (refused_iff hreq).mpr ((hfits.over_iff hinv hallowed hreq).mpr hexceeded)
  unchanged := by
    have hstep := step_cases c overhead h op
    generalize h.step c overhead op = r at hstep ⊢
    intro hrefused
    cases hstep with
    | refused => rfl
    | _ => cases hrefused

theorem fits_of_sound (hinv : h.Inv c overhead) (hallowed : h.Allowed op)
    (hsound : h.Sound c overhead op) : h.Fits c overhead op := by
  have hroom : ∀ size old given, op.Requests size old given →
      accounted overhead h.blocks + size.toNat < 2 ^ w := by
    intro size old given hreq
    have htested := (hsound.tested size old given hreq).1
    rwa [hinv.exact.size] at htested
  have hrefused : ∀ size old given, op.Requests size old given →
      ((h.step c overhead op).2 = .refused ↔ c.ExceededBy (h.total overhead size old)) := by
    intro size old given hreq
    rw [hsound.refused]
    constructor
    · rintro ⟨size', old', given', hreq', hexceeded⟩
      obtain ⟨rfl, rfl, -⟩ := hreq.unique hreq'
      exact hexceeded
    · exact fun hexceeded => ⟨size, old, given, hreq, hexceeded⟩
  have hlimit : ∀ size old given, op.Requests size old given →
      (h.limited = false → ¬ c.ExceededBy (h.total overhead size old)) ∧
      (h.limited = true → 2 ^ w ≤ c.memoryLimit.toInt →
        h.total overhead size old ≤ c.memoryLimit.toInt % 2 ^ w) := by
    intro size old given hreq
    have hlt := hroom size old given hreq
    refine (limit_iff hinv (total_lt old hlt)).mp ?_
    rw [← over_iff hinv (hallowed.live hreq) hlt, ← refused_iff hreq]
    exact hrefused size old given hreq
  refine ⟨hroom, fun hearly size old given hreq => (hlimit size old given hreq).1 hearly,
    fun hlimited hrange size old given hreq => (hlimit size old given hreq).2 hlimited hrange, ?_⟩
  intro size old b hreq hnot
  have hexact := hsound.exact
  have hwithin := mt (refused_iff hreq).mpr (mt (hrefused size old (some b) hreq).mp hnot)
  rw [step_request c overhead h hreq, if_neg hwithin] at hexact
  exact hexact.size ▸ BitVec.isLt _

theorem sound_iff (hinv : h.Inv c overhead) (hallowed : h.Allowed op) :
    h.Sound c overhead op ↔ h.Fits c overhead op :=
  ⟨fits_of_sound hinv hallowed, sound_of_fits hinv hallowed⟩

theorem toNat_sub_add_iff (x y : BitVec w) : (x - y).toNat + y.toNat = x.toNat ↔ y ≤ x := by
  rw [BitVec.le_def]
  constructor
  · exact fun h => h ▸ Nat.le_add_left _ _
  · intro h
    rw [BitVec.toNat_sub_of_le h, Nat.sub_add_cancel h]

theorem differs_iff (hinv : h.Inv c overhead) (hallowed : h.Allowed op)
    (hfits : h.Fits c overhead op) : h.Differs c overhead op ↔ h.Grows c overhead op := by
  refine forall₃_congr fun size o b => forall_congr' fun hreq => ?_
  rw [toNat_sub_add_iff, done_iff hreq, hfits.over_iff hinv hallowed hreq]

-- ---------------------------------------------------------------------------
-- Runs
-- ---------------------------------------------------------------------------

def Heap.next (c : JsEngineConfig) (overhead : BitVec w) (h : Heap w) (op : Op w) :
    Option (Heap w) :=
  some (h.step c overhead op).1

theorem next_inv (hinv : h.Inv c overhead) (hallowed : h.Allowed op)
    (hfits : h.Fits c overhead op) (hnext : h.next c overhead op = some h') : h'.Inv c overhead :=
  Option.some.inj hnext ▸ step_inv hinv hallowed hfits

/-- Whatever the C heap answers, the accounting is exact and the limit decides throughout a run if
and only if no request goes past the range of `size_t`, past the limit before that is set or past
what the cast leaves of it, and the blocks are in that range together. The difference of two usable
sizes does not wrap either if and only if, besides, no block becomes smaller. -/
theorem accounting_sound_iff (c : JsEngineConfig) (overhead : BitVec w) (ops : List (Op w))
    (hallowed : Along (Heap.next c overhead) Heap.Allowed .init ops) :
    (Along (Heap.next c overhead) (Heap.Sound c overhead) .init ops ↔
      Along (Heap.next c overhead) (Heap.Fits c overhead) .init ops) ∧
    (Along (Heap.next c overhead)
        (fun h op => h.Sound c overhead op ∧ h.Differs c overhead op) .init ops ↔
      Along (Heap.next c overhead)
        (fun h op => h.Fits c overhead op ∧ h.Grows c overhead op) .init ops) := by
  constructor
  · exact along_congr sound_iff next_inv (init_inv c) hallowed
  · refine along_congr (fun {h op} hinv hop => ?_)
      (fun hinv hop hfits => next_inv hinv hop hfits.1) (init_inv c) hallowed
    rw [sound_iff hinv hop]
    exact and_congr_right (differs_iff hinv hop)

theorem allowed_malloc
    (hgiven : ∀ b ∈ given, b.addr ≠ 0 ∧ (∀ b' ∈ h.blocks, b'.addr ≠ b.addr) ∧ size ≤ b.usable) :
    h.Allowed (.malloc size given) where
  resized := nofun
  released := nofun
  apart := by
    rintro _ _ b ⟨⟩
    exact ⟨(hgiven b rfl).1, (hgiven b rfl).2.1⟩
  enough := by
    rintro _ _ b ⟨⟩
    exact (hgiven b rfl).2.2

/-- A block is got, the limit is set, and the C heap has no other block. -/
theorem allowed_opening (hne : b.addr ≠ 0) (henough : size ≤ b.usable) (size' : BitVec w) :
    Along (Heap.next c overhead) Heap.Allowed .init
      [.malloc size (some b), .setMemoryLimit, .malloc size' none] := by
  refine ⟨allowed_malloc ?_, fun _ _ => ⟨⟨nofun, nofun, nofun, nofun⟩, fun _ _ => ?_⟩⟩
  · rintro _ ⟨⟩
    exact ⟨hne, nofun, henough⟩
  · exact ⟨allowed_malloc nofun, fun _ _ => trivial⟩

def limitedTo (memoryLimit : BitVec 64) (h : 0 ≤ memoryLimit.toInt) : JsEngineConfig :=
  ⟨memoryLimit, 0x40000, 0, [0x6B, 0x6D, 0x70], h, by decide, by decide, by decide⟩

theorem accounting_sound_iff_limited :
    let c := limitedTo 0x800000 (by decide)
    let ops : List (Op 64) := [.malloc 1000 (some ⟨64, 1008⟩), .setMemoryLimit, .malloc 100 none]
    (Along (Heap.next c 8) (Heap.Sound c 8) .init ops ↔
      Along (Heap.next c 8) (Heap.Fits c 8) .init ops) ∧
    (Along (Heap.next c 8) (fun h op => h.Sound c 8 op ∧ h.Differs c 8 op) .init ops ↔
      Along (Heap.next c 8) (fun h op => h.Fits c 8 op ∧ h.Grows c 8 op) .init ops) :=
  accounting_sound_iff _ 8 _ (allowed_opening (by decide) (by decide) 100)

/-- With 32 bits the cast makes a limit of 4 GiB zero, and the first request after it is refused. -/
theorem cast_limit_refuses :
    ¬ ∀ w, w = 32 ∨ w = 64 → ∀ (c : JsEngineConfig) (overhead : BitVec w) (ops : List (Op w)),
      Along (Heap.next c overhead) Heap.Allowed .init ops →
        Along (Heap.next c overhead) (Heap.Sound c overhead) .init ops := by
  intro h
  have hsound := h 32 (.inl rfl) (limitedTo 0x100000000 (by decide)) 8
    [.malloc 1000 (some ⟨64, 1000⟩), .setMemoryLimit, .malloc 100 none]
    (allowed_opening (by decide) (by decide) 100)
  have hlast := ((hsound.2 _ rfl).2 _ rfl).1
  obtain ⟨size, old, given, hreq, hexceeded⟩ := hlast.refused.mp (by decide)
  cases hreq
  exact absurd hexceeded (by decide)

end QuickJsKmp.MemoryLimit
