import QuickJsKmp.Lib.Reactions

/-!
# `drain_jobs` and `discard_jobs` over the promise graph

Under the one-byte stack limit no function body is entered. What a job still does it
does with resolving functions and with the requests of async generators: it settles
promises that exist, whose reactions then join the queue, queues the job that calls a
thenable's `then`, or waits for a promise. Each resolving function works once and each
request is answered once, and those that are made meanwhile are called only to reject:
so these jobs come from a reserve that does not grow. What a job does under the usual
limit is up to the script: any heap may come of it.
-/

namespace QuickJsKmp.Discarding

open Reactions (Promise Effect)

inductive Exc
  | interrupted
  | thrown (n : ℕ)
  deriving DecidableEq, Repr

/-- `promise_reaction_job` and its like, and `js_promise_resolve_thenable_job`. -/
inductive Job
  | reaction
  | thenable
  deriving DecidableEq, Repr

/-- The reserve is what the resolving functions that were not called, and the requests that
were not answered, may queue. -/
abbrev Heap := Reactions.Heap Job

/-- The engine as far as the drain sees it. -/
structure Engine where
  heap : Heap
  /-- The stack limit. -/
  limit : ℕ
  pending : Option Exc
  /-- `e->state` is `KMP_INTERRUPTED`. -/
  interrupted : Bool
  deriving DecidableEq, Repr

/-- A job that ran under the usual limit. `left` is an exception that is pending although
the job has not thrown. -/
structure Ran where
  heap : Heap
  threw : Option Exc
  left : Option Exc
  interrupted : Bool
  deriving DecidableEq, Repr

/-- A job that ran under the one-byte limit. It may fail and settle promises all the
same, as a reaction that could not call its handler does. -/
structure Discarded where
  effects : List (Effect Job)
  threw : Option Exc
  left : Option Exc
  deriving DecidableEq, Repr

/-- What the jobs do; `n` counts them. -/
structure Behaviour where
  ran : ℕ → Engine → Ran
  discarded : ℕ → Engine → Discarded

/-- `JS_ExecutePendingJob`: its return value and the engine. -/
def executePendingJob (b : Behaviour) (n : ℕ) (e : Engine) : ℤ × Engine :=
  match e.heap.queue with
  | [] => (0, e)
  | _ :: queue =>
    let e := { e with heap := { e.heap with queue := queue } }
    if e.limit = 1 then
      let d := b.discarded n e
      (if d.threw.isSome then -1 else 1,
        { e with heap := e.heap.applyAll d.effects, pending := d.threw.or d.left })
    else
      let r := b.ran n e
      (if r.threw.isSome then -1 else 1,
        { e with heap := r.heap, pending := r.threw.or r.left, interrupted := r.interrupted })

/-- The first loop of `discard_jobs`. `JS_GetException` clears the exception. -/
def discardLoop (b : Behaviour) : ℕ → ℕ → Engine → Option Engine
  | 0, _, _ => none
  | fuel + 1, n, e =>
    let (rc, e) := executePendingJob b n e
    if rc ≠ 0 then discardLoop b fuel (n + 1) { e with pending := none } else some e

/-- `forget_rejected` on the last entry, until none is left. -/
def forgetAll (h : Heap) : Heap := { h with rejected := [] }

def discardJobs (b : Behaviour) (maxStackSize fuel n : ℕ) (e : Engine) : Option Engine := do
  let e ← discardLoop b fuel n { e with limit := 1 }
  some { e with limit := maxStackSize, heap := forgetAll e.heap }

/-- The loop of `drain_jobs`: its `rc`, the number of the next job and the engine. -/
def drainLoop (b : Behaviour) : ℕ → ℕ → Engine → Option (ℤ × ℕ × Engine)
  | 0, _, _ => none
  | fuel + 1, n, e =>
    if e.interrupted then some (-1, n, { e with pending := some .interrupted })
    else
      let (rc, e) := executePendingJob b n e
      if rc ≤ 0 then some (rc, n + 1, e) else drainLoop b fuel (n + 1) e

def drainJobs (b : Behaviour) (maxStackSize fuel : ℕ) (e : Engine) : Option (ℤ × Engine) := do
  let (rc, n, e) ← drainLoop b fuel 0 e
  if rc < 0 then
    let exc := e.pending
    let e ← discardJobs b maxStackSize fuel n { e with pending := none }
    some (rc, { e with pending := exc })
  else some (rc, e)

/-- The drain stops with this exception: the state is interrupted before a job, or a job fails. -/
inductive StoppedBy (b : Behaviour) : ℕ → Engine → Exc → Prop
  | interrupted {n : ℕ} {e : Engine} (hstate : e.interrupted) : StoppedBy b n e .interrupted
  | failed {n : ℕ} {e : Engine} {exc : Exc} (hstate : e.interrupted = false)
      (hrc : (executePendingJob b n e).1 < 0)
      (hexc : (executePendingJob b n e).2.pending = some exc) : StoppedBy b n e exc
  | next {n : ℕ} {e : Engine} {exc : Exc} (hstate : e.interrupted = false)
      (hrc : 0 < (executePendingJob b n e).1)
      (hnext : StoppedBy b (n + 1) (executePendingJob b n e).2 exc) : StoppedBy b n e exc

-- ---------------------------------------------------------------------------
-- The discard ends
-- ---------------------------------------------------------------------------

variable {b : Behaviour} {e e' : Engine} {fuel n : ℕ}

theorem discarded_lighter (h : Heap) (job : Job) (effects : List (Effect Job)) :
    (({ h with queue := queue } : Heap).applyAll effects).load <
      ({ h with queue := job :: queue } : Heap).load := by
  have hle := ({ h with queue := queue } : Heap).applyAll_load_le effects
  simp only [Reactions.Heap.load, List.length_cons] at hle ⊢
  omega

/-- A job under the one-byte limit makes the heap lighter. -/
theorem execute_lighter (hlimit : e.limit = 1) (hqueue : e.heap.queue ≠ []) :
    (executePendingJob b n e).1 ≠ 0 ∧ (executePendingJob b n e).2.limit = 1 ∧
      (executePendingJob b n e).2.heap.load < e.heap.load := by
  obtain ⟨⟨queue, promises, rejected, reserve⟩, limit, pending, interrupted⟩ := e
  obtain ⟨job, queue, rfl⟩ := List.exists_cons_of_ne_nil hqueue
  simp only [executePendingJob, if_pos (show limit = 1 from hlimit)]
  refine ⟨?_, hlimit, discarded_lighter ⟨[], promises, rejected, reserve⟩ job _⟩
  split <;> decide

theorem execute_empty (hqueue : e.heap.queue = []) : executePendingJob b n e = (0, e) := by
  simp [executePendingJob, hqueue]

/-- The loop ends after as many rounds as the heap has load. -/
theorem discardLoop_ends (hlimit : e.limit = 1) (hfuel : e.heap.load < fuel) :
    ∃ e', discardLoop b fuel n e = some e' := by
  induction fuel generalizing n e with
  | zero => cases hfuel
  | succ fuel ih =>
    by_cases hqueue : e.heap.queue = []
    · exact ⟨e, by simp [discardLoop, execute_empty hqueue]⟩
    · obtain ⟨hrc, hlimit', hlighter⟩ := execute_lighter (b := b) (n := n) hlimit hqueue
      simp only [discardLoop, ne_eq, hrc, not_false_eq_true, if_true]
      exact ih hlimit' (by simpa using Nat.lt_of_lt_of_le hlighter (Nat.le_of_lt_succ hfuel))

theorem execute_zero (h : (executePendingJob b n e).1 = 0) :
    e.heap.queue = [] ∧ (executePendingJob b n e).2 = e := by
  cases hqueue : e.heap.queue with
  | nil => simp [execute_empty hqueue]
  | cons job queue =>
    simp only [executePendingJob, hqueue] at h
    split at h <;> simp only at h <;> split at h <;> cases h

theorem discardLoop_empties (h : discardLoop b fuel n e = some e') : e'.heap.queue = [] := by
  induction fuel generalizing n e with
  | zero => cases h
  | succ fuel ih =>
    simp only [discardLoop] at h
    split at h
    · exact ih h
    · rename_i hrc
      obtain ⟨hqueue, hsame⟩ := execute_zero (by simpa using hrc)
      rw [hsame, Option.some.injEq] at h
      exact h ▸ hqueue

theorem discardJobs_spec (h : discardJobs b maxStackSize fuel n e = some e') :
    e'.heap.queue = [] ∧ e'.heap.rejected = [] ∧ e'.limit = maxStackSize := by
  simp only [discardJobs, Option.bind_eq_bind, Option.bind_eq_some_iff, Option.some.injEq] at h
  obtain ⟨e₁, hloop, rfl⟩ := h
  have hqueue : e₁.heap.queue = [] := discardLoop_empties hloop
  exact ⟨hqueue, rfl, rfl⟩

theorem discardJobs_ends (hfuel : e.heap.load < fuel) :
    ∃ e', discardJobs b maxStackSize fuel n e = some e' := by
  obtain ⟨e₁, hloop⟩ := discardLoop_ends (b := b) (n := n) (e := { e with limit := 1 }) rfl hfuel
  exact ⟨{ e₁ with limit := maxStackSize, heap := forgetAll e₁.heap }, by simp [discardJobs, hloop]⟩

-- ---------------------------------------------------------------------------
-- The exception that stopped the drain
-- ---------------------------------------------------------------------------

/-- A job that fails leaves its exception. -/
theorem execute_failed (h : (executePendingJob b n e).1 < 0) :
    (executePendingJob b n e).1 = -1 ∧ ∃ exc, (executePendingJob b n e).2.pending = some exc := by
  cases hqueue : e.heap.queue with
  | nil => simp [execute_empty hqueue] at h
  | cons job queue =>
    simp only [executePendingJob, hqueue] at h ⊢
    split at h
    · rename_i hlimit
      simp only [hlimit, if_true] at h ⊢
      split at h
      · rename_i hthrew
        obtain ⟨exc, hexc⟩ := Option.isSome_iff_exists.mp hthrew
        simp [hexc]
      · cases h
    · rename_i hlimit
      simp only [hlimit, if_false] at h ⊢
      split at h
      · rename_i hthrew
        obtain ⟨exc, hexc⟩ := Option.isSome_iff_exists.mp hthrew
        simp [hexc]
      · cases h

theorem drainLoop_stopped (h : drainLoop b fuel n e = some (rc, n', e')) (hrc : rc < 0) :
    rc = -1 ∧ ∃ exc, e'.pending = some exc ∧ StoppedBy b n e exc := by
  induction fuel generalizing n e with
  | zero => cases h
  | succ fuel ih =>
    simp only [drainLoop] at h
    split at h
    · obtain ⟨rfl, -, rfl⟩ : -1 = rc ∧ _ ∧ _ := by simpa using h
      exact ⟨rfl, .interrupted, rfl, .interrupted ‹_›⟩
    · rename_i hstate
      have hstate' : e.interrupted = false := by simpa using hstate
      split at h
      · obtain ⟨rfl, -, rfl⟩ : (executePendingJob b n e).1 = rc ∧ _ ∧ _ := by simpa using h
        obtain ⟨hminus, exc, hexc⟩ := execute_failed hrc
        exact ⟨hminus, exc, hexc, .failed hstate' hrc hexc⟩
      · rename_i hgo
        obtain ⟨hminus, exc, hexc, hstop⟩ := ih h
        exact ⟨hminus, exc, hexc, .next hstate' (Int.not_le.mp hgo) hstop⟩

theorem drainLoop_more (h : drainLoop b fuel n e = some r) (k : ℕ) :
    drainLoop b (fuel + k) n e = some r := by
  induction fuel generalizing n e with
  | zero => cases h
  | succ fuel ih =>
    rw [Nat.succ_add]
    simp only [drainLoop] at h ⊢
    by_cases hstate : e.interrupted
    · simpa only [if_pos hstate] using h
    · simp only [if_neg hstate] at h ⊢
      by_cases hrc : (executePendingJob b n e).1 ≤ 0
      · simpa only [if_pos hrc] using h
      · simp only [if_neg hrc] at h ⊢
        exact ih h

/-- What `drain_jobs` leaves when it fails. -/
structure Emptied (b : Behaviour) (maxStackSize : ℕ) (e e' : Engine) : Prop where
  queue : e'.heap.queue = []
  rejected : e'.heap.rejected = []
  limit : e'.limit = maxStackSize
  pending : ∃ exc, e'.pending = some exc ∧ StoppedBy b 0 e exc

theorem drainJobs_ends (h : drainLoop b fuel 0 e = some (-1, n, e₁)) (k : ℕ) :
    ∃ e', drainJobs b maxStackSize (fuel + e₁.heap.load + 1 + k) e = some
      (-1, e') := by
  have hloop := drainLoop_more h (e₁.heap.load + 1 + k)
  have hends : ∃ e₂, discardJobs b maxStackSize (fuel + e₁.heap.load + 1 + k) n
      { e₁ with pending := none } = some e₂ :=
    discardJobs_ends (show e₁.heap.load < _ by omega)
  obtain ⟨e₂, hdiscard⟩ := hends
  refine ⟨{ e₂ with pending := e₁.pending }, ?_⟩
  simp only [Nat.add_assoc] at hloop hdiscard ⊢
  simp [drainJobs, hloop, hdiscard]

theorem drainJobs_empties (h : drainJobs b maxStackSize fuel e = some (-1, e')) :
    Emptied b maxStackSize e e' := by
  simp only [drainJobs, Option.bind_eq_bind, Option.bind_eq_some_iff] at h
  obtain ⟨⟨rc, n, e₁⟩, hloop, h⟩ := h
  split at h
  · rename_i hrc
    obtain ⟨e₂, hdiscard, h⟩ := Option.bind_eq_some_iff.mp h
    obtain ⟨rfl, rfl⟩ : rc = -1 ∧ _ := by simpa using h
    obtain ⟨hqueue, hrejected, hlimit⟩ := discardJobs_spec hdiscard
    exact ⟨hqueue, hrejected, hlimit, (drainLoop_stopped hloop hrc).2⟩
  · rename_i hrc
    obtain ⟨rfl, -⟩ : rc = -1 ∧ _ := by simpa using h
    exact absurd (show (-1 : ℤ) < 0 by decide) hrc

/-- Whenever the loop of `drain_jobs` stops with a failure, `drain_jobs` returns -1: its
discard ends. And whenever it returns -1, nothing is queued or tracked any more, the limit
is back, and the pending exception is the one that stopped the drain. -/
theorem failed_drain_empties (b : Behaviour) (maxStackSize : ℕ) (e : Engine) :
    (∀ fuel n e₁, drainLoop b fuel 0 e = some (-1, n, e₁) →
      ∃ enough, ∀ k, ∃ e', drainJobs b maxStackSize (enough + k) e = some (-1, e')) ∧
    ∀ fuel e', drainJobs b maxStackSize fuel e = some (-1, e') → Emptied b maxStackSize e e' :=
  ⟨fun _ _ _ hloop => ⟨_, drainJobs_ends hloop⟩, fun _ _ => drainJobs_empties⟩

/-- Each job rejects a promise, and calls a resolving function of the reserve. -/
def rejecting : Behaviour :=
  ⟨fun _ _ => ⟨⟨[], [], [], []⟩, none, none, false⟩,
    fun n _ => ⟨[.settle n true, .enqueue .thenable], none, some (.thrown n)⟩⟩

def interruptedDrain : Engine :=
  ⟨⟨[.reaction], [⟨.pending, true, [], [.reaction]⟩, ⟨.pending, false, [], []⟩], [], [.thenable]⟩,
    100, none, true⟩

/-- The reaction of the first promise and the thenable are discarded in turn, and nobody handles
the second promise. -/
theorem failed_drain_empties_interrupted :
    ∃ e', drainJobs rejecting 100 8 interruptedDrain = some (-1, e') ∧
      e'.heap.promises.map Promise.state = [.rejected, .rejected] ∧
      Emptied rejecting 100 interruptedDrain e' := by
  obtain ⟨e', hdrain, hstates⟩ : ∃ e', drainJobs rejecting 100 8 interruptedDrain = some (-1, e') ∧
      e'.heap.promises.map Promise.state = [.rejected, .rejected] := ⟨_, rfl, rfl⟩
  exact ⟨e', hdrain, hstates, (failed_drain_empties rejecting 100 interruptedDrain).2 8 e' hdrain⟩

end QuickJsKmp.Discarding
