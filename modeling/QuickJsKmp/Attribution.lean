import Mathlib.Data.Nat.Notation
import Mathlib.Logic.Basic
import QuickJsKmp.Interrupt

/-!
# Whom an exception is put down to

`e->oom` beside the calls: the allocator sets it when the memory limit refuses
a request, the outermost `run_begin` and every `take_exception` reset it, and
`take_exception` reads it when the exception is null. The calls move as the
machine of the interrupt state has them. Script, the engine's own code and host
code may do anything in between; who raised a null and what happened before are
told apart here only.
-/

namespace QuickJsKmp.Attribution

-- ---------------------------------------------------------------------------
-- The allocator
-- ---------------------------------------------------------------------------

/-- `JSMallocState`, with a `size_t` of `w` bits. -/
structure MallocState (w : ℕ) where
  mallocCount : BitVec w
  mallocSize : BitVec w
  mallocLimit : BitVec w
  deriving DecidableEq, Repr

/-- NULL at the limit, which sets the flag; NULL from the C heap; or as asked. -/
inductive Granted
  | refused
  | exhausted
  | done
  deriving DecidableEq, Repr

variable {w : ℕ}

/-- `given` is the usable size of the block that `malloc` returns. -/
def kmpMalloc (overhead : BitVec w) (s : MallocState w) (size : BitVec w)
    (given : Option (BitVec w)) : MallocState w × Granted :=
  if s.mallocSize + size > s.mallocLimit then (s, .refused)
  else
    match given with
    | none => (s, .exhausted)
    | some usable =>
      ({ s with
        mallocCount := s.mallocCount + 1
        mallocSize := s.mallocSize + (usable + overhead) }, .done)

/-- A pointer is the usable size of its block. -/
def kmpFree (overhead : BitVec w) (s : MallocState w) : Option (BitVec w) → MallocState w
  | none => s
  | some usable =>
    { s with
      mallocCount := s.mallocCount - 1
      mallocSize := s.mallocSize - (usable + overhead) }

def kmpRealloc (overhead : BitVec w) (s : MallocState w) (ptr : Option (BitVec w)) (size : BitVec w)
    (given : Option (BitVec w)) : MallocState w × Granted :=
  match ptr with
  | none => if size = 0 then (s, .done) else kmpMalloc overhead s size given
  | some oldSize =>
    if size = 0 then (kmpFree overhead s (some oldSize), .done)
    else if s.mallocSize + size - oldSize > s.mallocLimit then (s, .refused)
    else
      match given with
      | none => (s, .exhausted)
      | some usable => ({ s with mallocSize := s.mallocSize + (usable - oldSize) }, .done)

inductive Request (w : ℕ)
  | malloc (size : BitVec w) (given : Option (BitVec w))
  | free (ptr : Option (BitVec w))
  | realloc (ptr : Option (BitVec w)) (size : BitVec w) (given : Option (BitVec w))
  deriving DecidableEq, Repr

/-- `overhead` is `KMP_MALLOC_OVERHEAD`. -/
def MallocState.serve (overhead : BitVec w) (s : MallocState w) :
    Request w → MallocState w × Granted
  | .malloc size given => kmpMalloc overhead s size given
  | .free ptr => (kmpFree overhead s ptr, .done)
  | .realloc ptr size given => kmpRealloc overhead s ptr size given

-- ---------------------------------------------------------------------------
-- State
-- ---------------------------------------------------------------------------

/-- Who raised a null. `limit` is the engine, which could not allocate the error object because of
the memory limit; `other` is script's own `throw null`, or the engine when the C heap had no
memory. Script that throws a null again that it has caught does not change who raised it. -/
inductive Origin
  | limit
  | other
  deriving DecidableEq, Repr

inductive Exc
  | null (origin : Origin)
  | error
  deriving DecidableEq, Repr

def Exc.isNull : Exc → Bool
  | .null _ => true
  | .error => false

/-- An exception that was captured, and whether it is reported through `oom_to_out`. -/
structure Report where
  exc : Exc
  oom : Bool
  deriving DecidableEq, Repr

/-- Reported as want of memory are the nulls that the memory limit has led to, and no others. -/
def Report.Right (r : Report) : Prop := r.oom = true ↔ r.exc = .null .limit

/-- `exc` is the local variable of `drain_jobs`, `taken` are `exc` and `oom` of `finish` and of
`exception_to_out`. -/
structure Call where
  frame : Frame
  exc : Option Exc
  taken : Option Report
  deriving DecidableEq, Repr

/-- What bears on the flag. `begun` is an outermost `run_begin`, `captured` a `take_exception`. -/
inductive Event
  | refused
  | begun
  | captured (exc : Exc)
  deriving DecidableEq, Repr

/-- `pending` is the context's current exception. The program has no `raised` (the memory limit has
led to a null), no `history` and no `reports`; the latest come first in both. -/
structure Engine (w : ℕ) where
  state : RunState
  heap : MallocState w
  oom : Bool
  pending : Option Exc
  stack : List Call
  raised : Bool
  history : List Event
  reports : List Report
  deriving DecidableEq, Repr

/-- After `kmpjs_create`. -/
def Engine.init (heap : MallocState w) : Engine w := ⟨.idle, heap, false, none, [], false, [], []⟩

-- ---------------------------------------------------------------------------
-- Steps
-- ---------------------------------------------------------------------------

/-- With `raised`, a request got NULL and the engine throws null for it. `describe` is
`exception_to_out` outside of `finish`: for bytecode that cannot be read, for `import.meta` and for
the property of a host function. -/
inductive Act (w : ℕ)
  | enter (e : Entry)
  | move (m : Move)
  | ret
  | interrupt
  | allocate (request : Request w) (raised : Bool)
  | throw (exc : Exc)
  | caught
  | describe
  deriving DecidableEq, Repr

namespace Engine

/-- The engine's own code or script runs. -/
def working (s : Engine w) : Bool :=
  match s.stack with
  | [] => false
  | c :: _ => c.frame.busy = .native || c.frame.busy = .script

def mayEnter (s : Engine w) : Bool :=
  match s.stack with
  | [] => true
  | c :: _ => c.frame.busy = .host true || c.frame.busy = .host false

def takeException (s : Engine w) : Option (Report × Engine w) :=
  s.pending.map fun exc =>
    (⟨exc, exc.isNull && s.oom⟩,
      { s with pending := none, oom := false, history := .captured exc :: s.history })

def begun (s : Engine w) : Engine w := { s with oom := false, history := .begun :: s.history }

def capture (s : Engine w) (c : Call) : Option (Engine w × Call) :=
  s.takeException.map fun (r, s) => (s, { c with taken := some r })

/-- The exception that ends `drain_jobs` is set aside while the jobs are discarded. -/
def setAside (s : Engine w) (c : Call) : Option (Engine w × Call) :=
  if c.frame.pc = .discard false ∨ c.frame.pc = .discard true then
    s.pending.map fun exc => ({ s with pending := none }, { c with exc := some exc })
  else some (s, c)

/-- `oom_to_out` or `error_to_out`, for the exception that was taken. -/
def publish (s : Engine w) (c : Call) : Option (Engine w × Call) :=
  c.taken.map fun r => ({ s with reports := r :: s.reports }, { c with taken := none })

/-- What a step of the call does to the exceptions, on its way from `pc` to the frame that `c` has
now. `failed` is the frame's before. -/
def moved (s : Engine w) (c : Call) (failed : Bool) : Pc → Move → Option (Engine w × Call)
  | .guard, .begin => some (if c.frame.outermost then s.begun else s, c)
  | .body, .finish true => s.capture c
  | .firstCheck, .test => s.setAside c
  | .check _, .test => s.setAside c
  | .job _, .jobFailed => s.setAside c
  -- the exception is thrown again, and the call takes it or frees it
  | .discard late, .discarded =>
    c.exc.bind fun exc =>
      if failed ∧ late = false then some ({ s with pending := none }, { c with exc := none })
      else capture { s with pending := some exc } { c with exc := none }
  | .unwrap, .unwrapped true => s.capture c
  | .convert, .converted how =>
    if failed then s.publish c
    else if how = .threw then s.capture c
    else some (s, c)
  | .convertError, .errorConverted => s.publish c
  | _, _ => some (s, c)

def step (overhead : BitVec w) (s : Engine w) : Act w → Option (Engine w)
  | .enter e =>
    if s.mayEnter then some { s with stack := ⟨.start e, none, none⟩ :: s.stack } else none
  | .move m =>
    match s.stack with
    | [] => none
    | c :: rest =>
      (c.frame.advance s.state m).bind fun (st, f) =>
        (moved { s with state := st } { c with frame := f } c.frame.failed c.frame.pc m).map
          fun (s, c) => { s with stack := c :: rest }
  | .ret =>
    match s.stack with
    | [] => none
    | c :: rest => if c.frame.pc = .returned then some { s with stack := rest } else none
  | .interrupt =>
    some { s with
      state := kmpjsInterrupt s.state
      stack := s.stack.map fun c => { c with frame := c.frame.mark } }
  | .allocate request raised =>
    if s.working then
      match s.heap.serve overhead request, raised with
      | (heap, .refused), false =>
        some { s with heap, oom := true, history := .refused :: s.history }
      | (heap, .refused), true =>
        some { s with
          heap
          oom := true
          history := .refused :: s.history
          pending := some (.null .limit)
          raised := true }
      | (heap, .exhausted), true => some { s with heap, pending := some (.null .other) }
      | (heap, _), false => some { s with heap }
      | _, true => none
    else none
  | .throw exc =>
    if s.working ∧ (exc = .null .limit → s.raised) then some { s with pending := some exc }
    else none
  | .caught => if s.working then some { s with pending := none } else none
  | .describe =>
    if s.working then
      s.takeException.map fun (r, s) => { s with reports := r :: s.reports }
    else none

end Engine

-- ---------------------------------------------------------------------------
-- What is asked of a run
-- ---------------------------------------------------------------------------

/-- The reports that were made, and those of the exceptions that calls have taken. -/
def Engine.Decided (s : Engine w) (r : Report) : Prop :=
  r ∈ s.reports ∨ ∃ c ∈ s.stack, c.taken = some r

/-- Since the last outermost begin and the last captured exception, the limit has refused an
allocation. -/
def Standing : List Event → Bool
  | .refused :: _ => true
  | _ => false

/-- When a null was captured, it was raised for a refused allocation exactly if the limit had
refused one since the begin of the outermost call and since the exception captured before. -/
def Attributable : List Event → Prop
  | [] => True
  | .captured (.null origin) :: h => (origin = .limit ↔ Standing h) ∧ Attributable h
  | _ :: h => Attributable h

-- ---------------------------------------------------------------------------
-- What a step of a call can do
-- ---------------------------------------------------------------------------

/-- Where a call that has taken an exception still has to report it. -/
def holds : Pc → Bool
  | .firstCheck | .check false | .job false | .discard false | .report false => true
  | .convert | .convertError => true
  | _ => false

/-- An exception that the call has taken is its failure, and the report is ahead. -/
def Call.Ok (c : Call) : Prop := c.taken ≠ none → c.frame.failed = true ∧ holds c.frame.pc = true

variable {overhead : BitVec w} {heap : MallocState w} {s s' : Engine w} {c c' : Call} {f f' : Frame}
  {st st' : RunState} {m : Move} {a : Act w}

theorem holds_afterDrain (h : f.failed = true) : holds f.afterDrain = true := by
  rw [Frame.afterDrain, h, Bool.not_true, Bool.false_and, if_neg Bool.false_ne_true]
  split <;> rfl

def publishes : Move → Bool
  | .converted _ | .errorConverted => true
  | _ => false

/-- A failed call stays failed, and does not end before it has reported. -/
theorem holds_advanceNative (hfailed : f.failed = true) (hholds : holds f.pc = true)
    (hm : publishes m = false) (h : f.advanceNative st f.pc m = some (st', f')) :
    f'.failed = true ∧ holds f'.pc = true := by
  generalize hpc : f.pc = pc at hholds h
  have hdrain : holds f.afterDrain = true := holds_afterDrain hfailed
  unfold Frame.advanceNative at h
  split at h
  case h_6 =>
    split at h
    all_goals cases h; exact ⟨hfailed, rfl⟩
  case h_7 late =>
    cases late
    · split at h
      all_goals cases h; exact ⟨hfailed, rfl⟩
    · cases hholds
  case h_8 late | h_9 late =>
    cases late
    · cases h
      exact ⟨hfailed, rfl⟩
    · cases hholds
  case h_10 late =>
    cases late
    · cases h
      exact ⟨hfailed, hdrain⟩
    · cases hholds
  case h_11 late =>
    cases late
    · cases h
      exact ⟨rfl, holds_afterDrain (f := { f with failed := true }) rfl⟩
    · cases hholds
  case h_13 late =>
    cases late
    · cases h
      exact ⟨hfailed, rfl⟩
    · cases hholds
  case h_14 | h_15 => cases hm
  case h_17 | h_18 =>
    split at h
    · cases h
      exact ⟨hfailed, hpc ▸ hholds⟩
    · cases h
  case h_19 => cases h
  -- nothing has been taken yet, or the call has ended
  all_goals cases hholds

theorem holds_advance (hfailed : f.failed = true) (hholds : holds f.pc = true)
    (hm : publishes m = false) (h : f.advance st m = some (st', f')) :
    f'.failed = true ∧ holds f'.pc = true := by
  unfold Frame.advance at h
  split at h
  · exact holds_advanceNative hfailed hholds hm h
  · cases h
    exact ⟨hfailed, hholds⟩
  · split at h
    · cases h
      exact ⟨hfailed, hholds⟩
    · cases h
  · cases h
    exact ⟨hfailed, hholds⟩
  · cases h
    exact ⟨hfailed, hholds⟩
  · cases h

theorem publishes_advance (hm : publishes m = true) (h : f.advance st m = some (st', f')) :
    (f.pc = .convert ∧ ∃ how, m = .converted how) ∨
    (f.pc = .convertError ∧ m = .errorConverted) := by
  unfold publishes at hm
  split at hm
  · rename_i how
    cases hbusy : f.busy with
    | native =>
      cases hpc : f.pc with
      | convert => exact .inl ⟨rfl, how, rfl⟩
      | _ =>
        simp only [Frame.advance, hbusy, hpc, Frame.advanceNative] at h
        cases h
    | _ =>
      simp only [Frame.advance, hbusy] at h
      cases h
  · cases hbusy : f.busy with
    | native =>
      cases hpc : f.pc with
      | convertError => exact .inr ⟨rfl, rfl⟩
      | _ =>
        simp only [Frame.advance, hbusy, hpc, Frame.advanceNative] at h
        cases h
    | _ =>
      simp only [Frame.advance, hbusy] at h
      cases h
  · cases hm

def takes (failed : Bool) : Pc → Move → Bool
  | .body, .finish true | .discard _, .discarded | .unwrap, .unwrapped true => true
  | .convert, .converted .threw => !failed
  | _, _ => false

/-- A call that takes an exception has failed, and will report it. -/
theorem takes_advance (ht : takes f.failed f.pc m = true) (h : f.advance st m = some (st', f')) :
    f'.failed = true ∧ holds f'.pc = true := by
  generalize hpc : f.pc = pc at ht
  unfold takes at ht
  split at ht
  · cases hbusy : f.busy <;> simp only [Frame.advance, hbusy, hpc, Frame.advanceNative] at h
    · split at h
      · cases h
        refine ⟨rfl, ?_⟩
        dsimp only
        split
        · rfl
        · exact holds_afterDrain (f := { f with failed := true }) rfl
      · cases h
    all_goals cases h
  · rename_i late
    cases hbusy : f.busy <;> simp only [Frame.advance, hbusy, hpc, Frame.advanceNative] at h
    · cases h
      refine ⟨rfl, ?_⟩
      cases late
      · exact holds_afterDrain (f := { f with failed := true }) rfl
      · rfl
    all_goals cases h
  · cases hbusy : f.busy <;> simp only [Frame.advance, hbusy, hpc, Frame.advanceNative] at h
    · cases h
      refine ⟨Bool.or_true _, ?_⟩
      dsimp only
      split <;> rfl
    all_goals cases h
  · have hfailed : f.failed = false := by simpa using ht
    cases hbusy : f.busy <;> simp only [Frame.advance, hbusy, hpc, Frame.advanceNative] at h
    · rw [if_neg (by simp [hfailed])] at h
      cases h
      exact ⟨rfl, rfl⟩
    all_goals cases h
  · cases ht

/-- What a step can do to the flag, to the exceptions and to the reports. -/
inductive Moved (s : Engine w) (c : Call) : Engine w → Call → Prop
  | quiet (pending : Option Exc) (exc : Option Exc) :
    Moved s c { s with pending } { c with exc }
  | begun : Moved s c s.begun c
  | captured (exc : Exc) (aside : Option Exc) (free : c.taken = none) :
    Moved s c { s with pending := none, oom := false, history := .captured exc :: s.history }
      { c with exc := aside, taken := some ⟨exc, exc.isNull && s.oom⟩ }
  | published (r : Report) (taken : c.taken = some r) :
    Moved s c { s with reports := r :: s.reports } { c with taken := none }

theorem capture_spec {pending aside : Option Exc} (hfree : c.taken = none)
    (hheld : c.frame.failed = true ∧ holds c.frame.pc = true)
    (h : Engine.capture { s with pending } { c with exc := aside } = some (s', c')) :
    Moved s c s' c' ∧ c'.Ok := by
  cases pending with
  | none => cases h
  | some exc =>
    cases h
    exact ⟨.captured exc aside hfree, fun _ => hheld⟩

theorem publish_spec (h : s.publish c = some (s', c')) : Moved s c s' c' ∧ c'.Ok := by
  obtain ⟨r, hr, hmoved⟩ := Option.map_eq_some_iff.mp h
  cases hmoved
  exact ⟨.published r hr, fun hne => absurd rfl hne⟩

theorem setAside_spec (hok : c.Ok) (h : s.setAside c = some (s', c')) :
    Moved s c s' c' ∧ c'.Ok := by
  unfold Engine.setAside at h
  split at h
  · obtain ⟨exc, -, hmoved⟩ := Option.map_eq_some_iff.mp h
    cases hmoved
    exact ⟨.quiet none (some exc), hok⟩
  · cases h
    exact ⟨.quiet s.pending c.exc, hok⟩

theorem moved_spec (hok : c.Ok) (hadv : c.frame.advance st m = some (st', f))
    (h : Engine.moved s { c with frame := f } c.frame.failed c.frame.pc m = some (s', c')) :
    Moved s { c with frame := f } s' c' ∧ c'.Ok := by
  have hfree (hnot : ¬ (c.frame.failed = true ∧ holds c.frame.pc = true)) : c.taken = none :=
    Classical.not_not.mp fun ht => hnot (hok ht)
  have htakes (ht : takes c.frame.failed c.frame.pc m = true) := takes_advance ht hadv
  cases hm : publishes m with
  | true =>
    rcases publishes_advance hm hadv with ⟨hpc, how, rfl⟩ | ⟨hpc, rfl⟩
    · simp only [hpc, Engine.moved] at h
      split at h
      · exact publish_spec h
      rename_i hfailed
      have hnone : c.taken = none := hfree fun hheld => hfailed hheld.1
      split at h
      · rename_i hthrew
        subst hthrew
        exact capture_spec hnone (htakes (by simp [hpc, takes, hfailed])) h
      · cases h
        exact ⟨.quiet s.pending c.exc, fun ht => absurd hnone ht⟩
    · simp only [hpc, Engine.moved] at h
      exact publish_spec h
  | false =>
    have hkeeps : Call.Ok { c with frame := f } := fun ht =>
      holds_advance (hok ht).1 (hok ht).2 hm hadv
    unfold Engine.moved at h
    split at h
    -- run_begin
    · split at h
      · cases h
        exact ⟨.begun, hkeeps⟩
      · cases h
        exact ⟨.quiet s.pending c.exc, hkeeps⟩
    -- the call's own exception
    · rename_i hpc
      exact capture_spec (hfree (by simp [hpc, holds])) (htakes (by rw [hpc]; rfl)) h
    -- drain_jobs fails
    · exact setAside_spec hkeeps h
    · exact setAside_spec hkeeps h
    · exact setAside_spec hkeeps h
    · rename_i late hpc
      obtain ⟨exc, -, h⟩ := Option.bind_eq_some_iff.mp h
      split at h
      · cases h
        exact ⟨.quiet none none, hkeeps⟩
      · rename_i hnot
        refine capture_spec (hfree ?_) (htakes (by rw [hpc]; rfl)) h
        rintro ⟨hfailed, hholds⟩
        rw [hpc] at hholds
        cases late
        · exact hnot ⟨hfailed, rfl⟩
        · cases hholds
    -- unwrap_promise throws
    · rename_i hpc
      exact capture_spec (hfree (by simp [hpc, holds])) (htakes (by rw [hpc]; rfl)) h
    · cases hm
    · cases hm
    · cases h
      exact ⟨.quiet s.pending c.exc, hkeeps⟩

-- ---------------------------------------------------------------------------
-- The flag and the history
-- ---------------------------------------------------------------------------

/-- What the history makes of every exception that was captured. -/
def verdicts : List Event → List Report
  | [] => []
  | .captured exc :: h => ⟨exc, exc.isNull && Standing h⟩ :: verdicts h
  | _ :: h => verdicts h

theorem right_null_iff (origin : Origin) (oom : Bool) :
    Report.Right ⟨.null origin, oom⟩ ↔ (origin = .limit ↔ oom = true) := by
  simp only [Report.Right, Exc.null.injEq]
  exact iff_comm

theorem right_error : Report.Right ⟨.error, false⟩ := by simp [Report.Right]

theorem attributable_iff (h : List Event) : Attributable h ↔ ∀ r ∈ verdicts h, r.Right := by
  induction h with
  | nil => simp [Attributable, verdicts]
  | cons e h ih =>
    cases e with
    | captured exc =>
      cases exc with
      | null origin =>
        rw [Attributable, verdicts, List.forall_mem_cons, ih, right_null_iff]
        simp only [Exc.isNull, Bool.true_and]
      | error =>
        rw [Attributable, verdicts, List.forall_mem_cons, ih]
        · exact (and_iff_right right_error).symm
        · exact fun _ heq => nomatch heq
    | _ => exact ih

/-- The flag is what the history says, and every captured exception is reported, or will be, as the
flag was when it was captured. -/
structure Inv (s : Engine w) : Prop where
  flag : s.oom = Standing s.history
  decided : ∀ r, s.Decided r ↔ r ∈ verdicts s.history
  calls : ∀ c ∈ s.stack, c.Ok

theorem decided_cons {rest : List Call} {r : Report} (h : s.stack = c :: rest) :
    s.Decided r ↔ r ∈ s.reports ∨ c.taken = some r ∨ ∃ c' ∈ rest, c'.taken = some r := by
  simp only [Engine.Decided, h, List.mem_cons, exists_eq_or_imp]

theorem moved_inv {rest : List Call} (hinv : Inv s) (hstack : s.stack = c :: rest)
    {f : Frame} (hmoved : Moved { s with state := st } { c with frame := f } s' c') (hok : c'.Ok) :
    Inv { s' with stack := c' :: rest } := by
  have hrest : ∀ d ∈ rest, d.Ok := fun d hd => hinv.calls d (by rw [hstack]; exact .tail _ hd)
  have hcalls : ∀ d ∈ c' :: rest, d.Ok := List.forall_mem_cons.mpr ⟨hok, hrest⟩
  have hdecided (r : Report) := (decided_cons hstack).symm.trans (hinv.decided r)
  cases hmoved with
  | quiet pending exc =>
    refine ⟨hinv.flag, fun r => ?_, hcalls⟩
    rw [decided_cons rfl]
    exact hdecided r
  | begun =>
    refine ⟨rfl, fun r => ?_, hcalls⟩
    rw [decided_cons rfl]
    exact hdecided r
  | captured exc aside free =>
    refine ⟨rfl, fun r => ?_, hcalls⟩
    have hbefore : r ∈ s.reports ∨ (∃ d ∈ rest, d.taken = some r) ↔ r ∈ verdicts s.history := by
      rw [← hdecided r, show c.taken = none from free]
      simp only [reduceCtorEq, false_or]
    rw [decided_cons rfl, verdicts, List.mem_cons, ← hbefore, ← hinv.flag, Option.some.injEq]
    exact or_left_comm.trans (or_congr_left eq_comm)
  | published taken htaken =>
    refine ⟨hinv.flag, fun r => ?_, hcalls⟩
    rw [decided_cons rfl, List.mem_cons, ← hdecided r, show c.taken = some taken from htaken,
      Option.some.injEq]
    simp only [reduceCtorEq, false_or]
    rw [or_assoc, or_left_comm]
    exact or_congr_right (or_congr_left eq_comm)

theorem init_inv (heap : MallocState w) : Inv (.init heap) :=
  ⟨rfl, fun r => by simp [Engine.Decided, Engine.init, verdicts], fun c hc => nomatch hc⟩

theorem taken_of_returned (hok : c.Ok) (hpc : c.frame.pc = .returned) : c.taken = none :=
  Classical.not_not.mp fun ht => by
    have hholds := (hok ht).2
    rw [hpc] at hholds
    cases hholds

theorem takeException_eq (h : s.takeException = some (r, s')) :
    ∃ exc, s.pending = some exc ∧ r = ⟨exc, exc.isNull && s.oom⟩ ∧
      s' = { s with pending := none, oom := false, history := .captured exc :: s.history } := by
  obtain ⟨exc, hexc, heq⟩ := Option.map_eq_some_iff.mp h
  cases heq
  exact ⟨exc, hexc, rfl, rfl⟩

def Act.control : Act w → Option CallAct
  | .enter e => some (.enter e)
  | .move m => some (.move m)
  | .ret => some .ret
  | .interrupt => some .interrupt
  | _ => none

/-- What a step comes to. The engine's own work is a refused allocation, or bears on no more than
the heap and the pending exception. -/
inductive Stepped (s : Engine w) : Act w → Engine w → Prop
  | entered (e : Entry) (may : s.mayEnter) :
    Stepped s (.enter e) { s with stack := ⟨.start e, none, none⟩ :: s.stack }
  | moved {c c' : Call} {f : Frame} {st : RunState} {m : Move} {s' : Engine w} {rest : List Call}
    (stack : s.stack = c :: rest) (advance : c.frame.advance s.state m = some (st, f))
    (moved : Engine.moved { s with state := st } { c with frame := f } c.frame.failed c.frame.pc m =
      some (s', c')) :
    Stepped s (.move m) { s' with stack := c' :: rest }
  | returned {c : Call} {rest : List Call} (stack : s.stack = c :: rest) (pc : c.frame.pc = .returned) :
    Stepped s .ret { s with stack := rest }
  | interrupted :
    Stepped s .interrupt { s with
      state := kmpjsInterrupt s.state
      stack := s.stack.map fun c => { c with frame := c.frame.mark } }
  | refused {a : Act w} (control : a.control = none) (heap : MallocState w) (pending : Option Exc)
    (raised : Bool) :
    Stepped s a { s with
      heap
      oom := true
      pending
      raised
      history := .refused :: s.history }
  | worked {a : Act w} (control : a.control = none) (heap : MallocState w) (pending : Option Exc) :
    Stepped s a { s with heap, pending }
  | described (exc : Exc) :
    Stepped s .describe { s with
      oom := false
      pending := none
      history := .captured exc :: s.history
      reports := ⟨exc, exc.isNull && s.oom⟩ :: s.reports }

theorem step_cases (h : s.step overhead a = some s') : Stepped s a s' := by
  cases a with
  | enter e =>
    obtain ⟨hmay, heq⟩ := Option.ite_none_right_eq_some.mp h
    exact Option.some.inj heq ▸ .entered e hmay
  | move m =>
    simp only [Engine.step] at h
    split at h
    · cases h
    rename_i c rest hstack
    obtain ⟨⟨st, f⟩, hadv, h⟩ := Option.bind_eq_some_iff.mp h
    obtain ⟨⟨s₁, c₁⟩, hmoved, heq⟩ := Option.map_eq_some_iff.mp h
    cases heq
    exact .moved hstack hadv hmoved
  | ret =>
    simp only [Engine.step] at h
    split at h
    · cases h
    rename_i c rest hstack
    obtain ⟨hpc, heq⟩ := Option.ite_none_right_eq_some.mp h
    exact Option.some.inj heq ▸ .returned hstack hpc
  | interrupt => exact Option.some.inj h ▸ .interrupted
  | allocate request raised =>
    obtain ⟨-, h⟩ := Option.ite_none_right_eq_some.mp h
    split at h
    · exact Option.some.inj h ▸ .refused rfl _ s.pending s.raised
    · exact Option.some.inj h ▸ .refused rfl _ (some (.null .limit)) true
    · exact Option.some.inj h ▸ .worked rfl _ (some (.null .other))
    · exact Option.some.inj h ▸ .worked rfl _ s.pending
    · cases h
  | throw exc =>
    obtain ⟨-, heq⟩ := Option.ite_none_right_eq_some.mp h
    exact Option.some.inj heq ▸ .worked rfl s.heap (some exc)
  | caught =>
    obtain ⟨-, heq⟩ := Option.ite_none_right_eq_some.mp h
    exact Option.some.inj heq ▸ .worked rfl s.heap none
  | describe =>
    obtain ⟨-, h⟩ := Option.ite_none_right_eq_some.mp h
    obtain ⟨⟨r, s₁⟩, htake, heq⟩ := Option.map_eq_some_iff.mp h
    obtain ⟨exc, -, rfl, rfl⟩ := takeException_eq htake
    exact heq ▸ .described exc

theorem step_inv (hinv : Inv s) (h : s.step overhead a = some s') : Inv s' := by
  cases step_cases h with
  | entered e may =>
    refine ⟨hinv.flag, fun r => ?_,
      List.forall_mem_cons.mpr ⟨fun ht => absurd rfl ht, hinv.calls⟩⟩
    rw [decided_cons rfl, ← hinv.decided r, Engine.Decided]
    simp only [reduceCtorEq, false_or]
  | moved stack advance moved =>
    have hok : Call.Ok _ := hinv.calls _ (by rw [stack]; exact .head _)
    obtain ⟨hmoved, hok'⟩ := moved_spec hok advance moved
    exact moved_inv hinv stack hmoved hok'
  | returned stack pc =>
    have hcalls := List.forall_mem_cons.mp (stack ▸ hinv.calls)
    refine ⟨hinv.flag, fun r => ?_, hcalls.2⟩
    rw [← hinv.decided r, decided_cons stack, taken_of_returned hcalls.1 pc]
    simp only [reduceCtorEq, false_or]
    rfl
  | interrupted =>
    have hmark (f : Frame) : f.mark.failed = f.failed ∧ f.mark.pc = f.pc := by
      unfold Frame.mark
      split <;> exact ⟨rfl, rfl⟩
    refine ⟨hinv.flag, fun r => ?_, ?_⟩
    · rw [← hinv.decided r]
      simp only [Engine.Decided, List.mem_map, exists_exists_and_eq_and]
    · intro d hd
      obtain ⟨c, hc, rfl⟩ := List.mem_map.mp hd
      intro ht
      rw [(hmark c.frame).1, (hmark c.frame).2]
      exact hinv.calls c hc ht
  | refused => exact ⟨rfl, hinv.decided, hinv.calls⟩
  | worked => exact ⟨hinv.flag, hinv.decided, hinv.calls⟩
  | described exc =>
    refine ⟨rfl, fun r => ?_, hinv.calls⟩
    rw [verdicts, List.mem_cons, ← hinv.decided r, ← hinv.flag]
    simp only [Engine.Decided, List.mem_cons, or_assoc]

theorem reaches_inv (h : Machine.Reaches (Engine.step overhead) Machine.always (.init heap) s) : Inv s :=
  h.invariant (init_inv heap) fun hinv _ hstep => step_inv hinv hstep

-- ---------------------------------------------------------------------------
-- Runs
-- ---------------------------------------------------------------------------

/-- In every run, the exceptions that the limit has led to are reported so, and no others, exactly
when every null is captured in keeping with the flag: after a refused allocation that nothing has
reset if the limit has led to it, and not so if it has not. -/
theorem reports_right_iff (h : Machine.Reaches (Engine.step overhead) Machine.always (.init heap) s) :
    (∀ r, s.Decided r → r.Right) ↔ Attributable s.history := by
  rw [attributable_iff]
  simp only [(reaches_inv h).decided]

/-- A limit of a hundred bytes, on Apple. -/
def small : MallocState 64 := ⟨0, 0, 100⟩

abbrev run (l : List (Act 64)) : Option (Engine 64) :=
  Machine.exec (Engine.step 0) Machine.always (.init small) l

/-- `kmpjs_eval` up to its script. -/
def evalBegins : List (Act 64) := [.enter .eval, .move .begin, .move .script]

/-- The script of the outermost call has thrown: `finish`, no job, nothing to report, the
description of the exception, and the return. -/
def evalFails : List (Act 64) :=
  [.move .scriptDone, .move (.finish true), .move .test, .move .drained, .move .reported,
    .move (.converted .done), .move .runEnd, .ret]

/-- The memory runs out, and nothing comes in between. -/
def limitNull : List (Act 64) := evalBegins ++ [.allocate (.malloc 200 none) true] ++ evalFails

theorem limitNull_runs : ∃ s, run limitNull = some s ∧ s.reports = [⟨.null .limit, true⟩] :=
  ⟨_, rfl, rfl⟩

theorem reports_right_iff_limit :
    ∃ s, run limitNull = some s ∧ s.reports = [⟨.null .limit, true⟩] ∧
      ((∀ r, s.Decided r → r.Right) ↔ Attributable s.history) := by
  obtain ⟨s, hrun, hreports⟩ := limitNull_runs
  exact ⟨s, hrun, hreports, reports_right_iff (Machine.reaches_of_exec hrun)⟩

/-- `try { new ArrayBuffer(200) } catch (e) {} throw null`; there is memory for the error. -/
def scriptNull : List (Act 64) :=
  evalBegins ++ [.allocate (.malloc 200 none) false, .throw .error, .caught,
    .throw (.null .other)] ++ evalFails

theorem scriptNull_runs : ∃ s, run scriptNull = some s ∧ s.reports = [⟨.null .other, true⟩] :=
  ⟨_, rfl, rfl⟩

/-- A script's own null is reported as want of memory. -/
theorem script_null_reported :
    ¬ ∀ s : Engine 64, Machine.Reaches (Engine.step 0) Machine.always (.init small) s →
      ∀ r, s.Decided r → r.Right := by
  intro h
  obtain ⟨s, hrun, hreports⟩ := scriptNull_runs
  have hright := h s (Machine.reaches_of_exec hrun) ⟨.null .other, true⟩
    (.inl (by rw [hreports]; exact .head _))
  exact absurd (hright.mp rfl) (by decide)

end QuickJsKmp.Attribution
