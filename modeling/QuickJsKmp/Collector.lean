import QuickJsKmp.Lib.Incidence
import QuickJsKmp.Lib.Machine

/-!
# Counted objects and the collection of cycles

The objects of an engine that its collector knows, with their reference counts: what giving
back a reference frees, and how `JS_RunGC` finds and frees the cycles that nothing holds. Memory
maps an address to what stands there; a function that would read freed memory, give back a
reference that is not counted, count past an `int`, fail an assertion or reach an `abort` has no
result.
-/

namespace QuickJsKmp.Collector

-- ---------------------------------------------------------------------------
-- Objects
-- ---------------------------------------------------------------------------

/-- `JSGCObjectTypeEnum`. -/
inductive GcObjType
  | jsObject
  | functionBytecode
  | shape
  | varRef
  | asyncFunction
  | jsContext
  | module
  deriving DecidableEq, Repr

/-- What an object keeps: a counted reference, or one of `js_weakref_new`. -/
inductive Ref
  | strong (p : ℕ)
  | weak (p : ℕ)
  deriving DecidableEq, Repr

/-- `INT32_MAX`, where the `int` of a `ref_count` ends. -/
def maxRefCount : ℕ := 0x7fffffff

/-- How often one `Ref` can be counted: a `weakref_count` is a `uint32_t`. -/
def Ref.most : Ref → ℕ
  | .strong _ => maxRefCount
  | .weak _ => 0xffffffff

structure GcObject where
  gcObjType : GcObjType
  refCount : ℕ
  mark : Bool
  weakrefCount : ℕ
  /-- What `mark_children` visits and what freeing gives back, here in one order. -/
  refs : List Ref
  deriving DecidableEq, Repr

/-- `ref_count++`. -/
def GcObject.incref (o : GcObject) : Option GcObject :=
  if o.refCount < maxRefCount then some { o with refCount := o.refCount + 1 } else none

/-- `JSGCPhaseEnum`. -/
inductive GcPhase
  | none
  | decref
  | removeCycles
  deriving DecidableEq, Repr

structure Runtime where
  objects : ℕ → Option GcObject
  /-- Addresses from here on were never handed out. -/
  next : ℕ
  gcObjList : List ℕ
  gcZeroRefCountList : List ℕ
  tmpObjList : List ℕ
  gcPhase : GcPhase

namespace Runtime

def set (rt : Runtime) (p : ℕ) (o : GcObject) : Runtime :=
  { rt with objects := Function.update rt.objects p (some o) }

/-- `js_free_rt`. -/
def jsFreeRt (rt : Runtime) (p : ℕ) : Runtime :=
  { rt with objects := Function.update rt.objects p none }

/-- `list_del` of the object's link, whichever list it stands in. -/
def listDel (rt : Runtime) (p : ℕ) : Runtime :=
  { rt with
    gcObjList := rt.gcObjList.erase p
    gcZeroRefCountList := rt.gcZeroRefCountList.erase p
    tmpObjList := rt.tmpObjList.erase p }

def toZeroHead (rt : Runtime) (p : ℕ) : Runtime :=
  { rt.listDel p with gcZeroRefCountList := p :: (rt.listDel p).gcZeroRefCountList }

def toZeroTail (rt : Runtime) (p : ℕ) : Runtime :=
  { rt.listDel p with gcZeroRefCountList := (rt.listDel p).gcZeroRefCountList ++ [p] }

def toTmpTail (rt : Runtime) (p : ℕ) : Runtime :=
  { rt.listDel p with tmpObjList := (rt.listDel p).tmpObjList ++ [p] }

def toGcTail (rt : Runtime) (p : ℕ) : Runtime :=
  { rt.listDel p with gcObjList := (rt.listDel p).gcObjList ++ [p] }

def refsOf (rt : Runtime) (p : ℕ) : List Ref :=
  (rt.objects p).elim [] GcObject.refs

end Runtime

-- ---------------------------------------------------------------------------
-- Giving references back
-- ---------------------------------------------------------------------------

def jsWeakrefNew (rt : Runtime) (p : ℕ) : Option Runtime := do
  let o ← rt.objects p
  return rt.set p { o with weakrefCount := (o.weakrefCount + 1) % 0x100000000 }

def jsWeakrefFree (rt : Runtime) (p : ℕ) : Option Runtime := do
  let o ← rt.objects p
  if o.weakrefCount = 0 then none
  else
    let rt := rt.set p { o with weakrefCount := o.weakrefCount - 1 }
    return if o.weakrefCount = 1 ∧ o.refCount = 0 ∧ o.mark = false then rt.jsFreeRt p else rt

def jsWeakrefIsLive (rt : Runtime) (p : ℕ) : Option Bool := do
  let o ← rt.objects p
  return decide (o.refCount ≠ 0)

def dropRef (free : Runtime → ℕ → Option Runtime) (rt : Runtime) : Ref → Option Runtime
  | .strong p => free rt p
  | .weak p => jsWeakrefFree rt p

/-- Gives back what an object kept, in order. -/
def dropRefs (free : Runtime → ℕ → Option Runtime) (rt : Runtime) (refs : List Ref) :
    Option Runtime :=
  refs.foldlM (dropRef free) rt

/-- `js_free_shape0`, and what `free_var_ref` and `JS_FreeContext` do at a count of zero. -/
def freeAtOnce (free : Runtime → ℕ → Option Runtime) (rt : Runtime) (p : ℕ) : Option Runtime := do
  let o ← rt.objects p
  let rt ← dropRefs free (rt.set p { o with refs := [] }) o.refs
  return (rt.listDel p).jsFreeRt p

/-- `__JS_FreeValueRT` of an object, a function's bytecode or a module. -/
def freeValueZero (freeZeroRefcount : Runtime → Option Runtime) (rt : Runtime) (p : ℕ) :
    Option Runtime := do
  if rt.gcPhase = .removeCycles then return rt
  let o ← rt.objects p
  let rt := (rt.toZeroHead p).set p { o with mark := true }
  if rt.gcPhase = .none then freeZeroRefcount rt else return rt

/-- `async_func_free` at a count of zero. -/
def asyncFuncFreeZero (freeZeroRefcount : Runtime → Option Runtime) (rt : Runtime) (p : ℕ) :
    Option Runtime := do
  if rt.gcPhase = .removeCycles then return rt
  let rt := rt.toZeroHead p
  if rt.gcPhase = .none then freeZeroRefcount rt else return rt

/-- Gives back one reference: `JS_FreeValueRT`, `js_free_shape`, `free_var_ref`,
`async_func_free` or `JS_FreeContext`, after the type of what is referred to. -/
def release (freeZeroRefcount : Runtime → Option Runtime) : ℕ → Runtime → ℕ → Option Runtime
  | 0, _, _ => none
  | depth + 1, rt, p => do
    let o ← rt.objects p
    if o.refCount = 0 then none
    else
      let rt := rt.set p { o with refCount := o.refCount - 1 }
      if o.refCount = 1 then
        match o.gcObjType with
        | .jsObject | .functionBytecode | .module => freeValueZero freeZeroRefcount rt p
        | .asyncFunction => asyncFuncFreeZero freeZeroRefcount rt p
        | .shape | .varRef | .jsContext => freeAtOnce (release freeZeroRefcount depth) rt p
      else return rt

/-- A context refers to shapes, and a shape to an object. -/
def releaseDepth : ℕ := 3

/-- `free_gc_object`, called in one of the two phases of freeing. -/
def freeGcObject (rt : Runtime) (p : ℕ) : Option Runtime := do
  let o ← rt.objects p
  match o.gcObjType with
  | .shape | .varRef | .jsContext => none
  | _ =>
    let rt ← dropRefs (release (fun _ => none) releaseDepth) (rt.set p { o with refs := [] }) o.refs
    let o ← rt.objects p
    if rt.gcPhase = .removeCycles then
      -- The structure stays while references to it are still counted.
      if o.refCount = 0 ∧ (o.gcObjType = .jsObject → o.weakrefCount = 0) then
        return (rt.listDel p).jsFreeRt p
      else return rt.toZeroTail p
    else if o.gcObjType = .jsObject ∧ o.weakrefCount ≠ 0 then
      return (rt.listDel p).set p { o with mark := false }
    else return (rt.listDel p).jsFreeRt p

/-- The loop of `free_zero_refcount`, of at most `n` rounds. -/
def freeZeroLoop : ℕ → Runtime → Option Runtime
  | 0, rt => if rt.gcZeroRefCountList = [] then some rt else none
  | n + 1, rt =>
    match rt.gcZeroRefCountList with
    | [] => some rt
    | p :: _ => do
      let o ← rt.objects p
      if o.refCount = 0 then freeZeroLoop n (← freeGcObject rt p) else none

def freeZeroRefcount (rt : Runtime) : Option Runtime := do
  let rounds := rt.gcObjList.length + rt.gcZeroRefCountList.length
  let rt ← freeZeroLoop rounds { rt with gcPhase := .decref }
  return { rt with gcPhase := .none }

/-- `JS_FreeValue` and its like, called from outside of the collector. -/
def freeValue (rt : Runtime) (p : ℕ) : Option Runtime :=
  release freeZeroRefcount releaseDepth rt p

/-- `JS_DupValue` and its like. -/
def dupValue (rt : Runtime) (p : ℕ) : Option Runtime := do
  let o ← rt.objects p
  return rt.set p (← o.incref)

def dupRef (rt : Runtime) : Ref → Option Runtime
  | .strong p => dupValue rt p
  | .weak p => jsWeakrefNew rt p

def freeRef (rt : Runtime) : Ref → Option Runtime
  | .strong p => freeValue rt p
  | .weak p => jsWeakrefFree rt p

-- ---------------------------------------------------------------------------
-- The collection of cycles
-- ---------------------------------------------------------------------------

def Ref.strong? : Ref → Option ℕ
  | .strong p => some p
  | .weak _ => none

def markChildren (rt : Runtime) (p : ℕ) (markFunc : Runtime → ℕ → Option Runtime) :
    Option Runtime := do
  let o ← rt.objects p
  (o.refs.filterMap Ref.strong?).foldlM markFunc rt

def gcDecrefChild (rt : Runtime) (p : ℕ) : Option Runtime := do
  let o ← rt.objects p
  if o.refCount = 0 then none
  else
    let rt := rt.set p { o with refCount := o.refCount - 1 }
    return if o.refCount = 1 ∧ o.mark = true then rt.toTmpTail p else rt

/-- The body of the loop of `gc_decref`. -/
def gcDecrefOne (rt : Runtime) (p : ℕ) : Option Runtime := do
  let o ← rt.objects p
  if o.mark then none
  else
    let rt ← markChildren rt p gcDecrefChild
    let o ← rt.objects p
    let rt := rt.set p { o with mark := true }
    return if o.refCount = 0 then rt.toTmpTail p else rt

-- What a round moves away stands before the round's own object in the list, or is that object.
def gcDecref (rt : Runtime) : Option Runtime :=
  rt.gcObjList.foldlM gcDecrefOne { rt with tmpObjList := [] }

def gcScanIncrefChild (rt : Runtime) (p : ℕ) : Option Runtime := do
  let o ← rt.objects p
  let o' ← o.incref
  -- The first reference that is found brings the object back.
  return if o'.refCount = 1 then (rt.toGcTail p).set p { o' with mark := false } else rt.set p o'

def gcScanIncrefChild2 (rt : Runtime) (p : ℕ) : Option Runtime := do
  let o ← rt.objects p
  return rt.set p (← o.incref)

/-- The first loop of `gc_scan` from the `i`-th object on; the list grows while it runs. -/
def gcScanLoop : ℕ → Runtime → ℕ → Option Runtime
  | 0, rt, i => if rt.gcObjList.length ≤ i then some rt else none
  | n + 1, rt, i =>
    match rt.gcObjList[i]? with
    | none => some rt
    | some p => do
      let o ← rt.objects p
      if o.refCount = 0 then none
      else
        let rt ← markChildren (rt.set p { o with mark := false }) p gcScanIncrefChild
        gcScanLoop n rt (i + 1)

def gcScan (rt : Runtime) : Option Runtime := do
  let rt ← gcScanLoop (rt.gcObjList.length + rt.tmpObjList.length) rt 0
  rt.tmpObjList.foldlM (fun rt p => markChildren rt p gcScanIncrefChild2) rt

/-- The first loop of `gc_free_cycles`, of at most `n` rounds. -/
def gcFreeLoop : ℕ → Runtime → Option Runtime
  | 0, rt => if rt.tmpObjList = [] then some rt else none
  | n + 1, rt =>
    match rt.tmpObjList with
    | [] => some rt
    | p :: _ => do
      let o ← rt.objects p
      match o.gcObjType with
      | .jsObject | .functionBytecode | .asyncFunction | .module =>
        gcFreeLoop n (← freeGcObject rt p)
      | .shape | .varRef | .jsContext => gcFreeLoop n (rt.toZeroTail p)

/-- The body of the last loop of `gc_free_cycles`. -/
def gcFreeKept (rt : Runtime) (p : ℕ) : Option Runtime := do
  let o ← rt.objects p
  match o.gcObjType with
  | .jsObject =>
    return if o.weakrefCount ≠ 0 then rt.set p { o with mark := false } else rt.jsFreeRt p
  | .functionBytecode | .asyncFunction | .module => return rt.jsFreeRt p
  | .shape | .varRef | .jsContext => none

def gcFreeCycles (rt : Runtime) : Option Runtime := do
  let rt ← gcFreeLoop rt.tmpObjList.length { rt with gcPhase := .removeCycles }
  let rt := { rt with gcPhase := .none }
  let rt ← rt.gcZeroRefCountList.foldlM gcFreeKept rt
  return { rt with gcZeroRefCountList := [] }

/-- `JS_RunGCInternal` without `gc_remove_weak_objects`. -/
def jsRunGc (rt : Runtime) : Option Runtime := do
  let rt ← gcDecref rt
  let rt ← gcScan rt
  gcFreeCycles rt

-- ---------------------------------------------------------------------------
-- What the engine does between two collections
-- ---------------------------------------------------------------------------

/-- What an object of the one type keeps a counted reference to. -/
def GcObjType.refersTo : GcObjType → GcObjType → Bool
  | .jsObject, _ => true
  | .functionBytecode, t => (t matches .jsObject | .functionBytecode | .module | .jsContext)
  | .shape, t => (t matches .jsObject)
  | .varRef, t => (t matches .jsObject | .functionBytecode | .module | .asyncFunction)
  | .asyncFunction, t => (t matches .jsObject | .functionBytecode | .module)
  | .jsContext, t => (t matches .jsObject | .functionBytecode | .module | .shape)
  | .module, t => (t matches .jsObject | .functionBytecode | .module | .varRef)

/-- The program keeps no list of who holds what from outside of the heap. -/
structure State where
  rt : Runtime
  held : List ℕ

inductive Op
  | new (gcObjType : GcObjType) (refs : List Ref)
  | dup (p : ℕ)
  | free (p : ℕ)
  | put (p : ℕ) (r : Ref)
  | remove (p : ℕ) (r : Ref)
  | deref (p : ℕ)
  | runGc
  deriving DecidableEq, Repr

def newObject (rt : Runtime) (gcObjType : GcObjType) (refs : List Ref) : Option Runtime := do
  let rt ← refs.foldlM dupRef rt
  return { rt.set rt.next ⟨gcObjType, 1, false, 0, refs⟩ with
    next := rt.next + 1, gcObjList := rt.gcObjList ++ [rt.next] }

def putRef (rt : Runtime) (p : ℕ) (r : Ref) : Option Runtime := do
  let rt ← dupRef rt r
  let o ← rt.objects p
  return rt.set p { o with refs := o.refs ++ [r] }

def removeRef (rt : Runtime) (p : ℕ) (r : Ref) : Option Runtime := do
  let o ← rt.objects p
  freeRef (rt.set p { o with refs := o.refs.erase r }) r

def State.step (s : State) : Op → Option State
  | .new t refs => do
    let rt ← newObject s.rt t refs
    return ⟨rt, s.rt.next :: s.held⟩
  | .dup p => do return ⟨← dupValue s.rt p, p :: s.held⟩
  | .free p => do return ⟨← freeValue s.rt p, s.held.erase p⟩
  | .put p r => do return ⟨← putRef s.rt p r, s.held⟩
  | .remove p r => do return ⟨← removeRef s.rt p r, s.held⟩
  | .deref p => do
    -- `js_weakref_deref`, of a reference that some object keeps.
    if ← jsWeakrefIsLive s.rt p then return ⟨← dupValue s.rt p, p :: s.held⟩ else return s
  | .runGc => do return ⟨← jsRunGc s.rt, s.held⟩

def State.init : State :=
  ⟨⟨fun _ => none, 0, [], [], [], .none⟩, []⟩

end QuickJsKmp.Collector
