import Mathlib.Algebra.BigOperators.Group.List.Basic
import Mathlib.Algebra.GroupWithZero.Nat

/-!
# Promises and the jobs that wait for them

A heap of promises with the jobs that are registered on them, the queue the jobs
join when their promise settles, and a reserve of jobs that may be queued or
registered without a promise that settles. The load of the heap counts the jobs
that are queued and those that may still be: it is a bound on what can be executed
as long as nothing joins the reserve.
-/

namespace Reactions

variable {J : Type} [DecidableEq J]

inductive State
  | pending
  | fulfilled
  | rejected
  deriving DecidableEq, Repr

structure Promise (J : Type) where
  state : State
  handled : Bool
  onFulfilled : List J
  onRejected : List J
  deriving DecidableEq, Repr

structure Heap (J : Type) where
  queue : List J
  promises : List (Promise J)
  /-- The promises that were rejected with nobody to handle it. -/
  rejected : List ℕ
  reserve : List J
  deriving DecidableEq, Repr

/-- The reactions of one side are what joins the queue; those of the other side are dropped. -/
def Promise.reactions (p : Promise J) (reject : Bool) : List J :=
  if reject then p.onRejected else p.onFulfilled

def Promise.settle (p : Promise J) (reject : Bool) : Promise J :=
  ⟨if reject then .rejected else .fulfilled, p.handled, [], []⟩

def track (rejected : List ℕ) (i : ℕ) : List ℕ := if i ∈ rejected then rejected else rejected ++ [i]

/-- A promise settles once. -/
def Heap.settle (h : Heap J) (i : ℕ) (reject : Bool) : Heap J :=
  match h.promises[i]? with
  | some p =>
    if p.state = .pending then
      { h with
        queue := h.queue ++ p.reactions reject
        promises := h.promises.set i (p.settle reject)
        rejected := if reject && !p.handled then track h.rejected i else h.rejected }
    else h
  | none => h

/-- A job of the reserve joins the queue. -/
def Heap.enqueue (h : Heap J) (j : J) : Heap J :=
  if j ∈ h.reserve then { h with queue := h.queue ++ [j], reserve := h.reserve.erase j } else h

/-- Somebody handles the promise from now on, with `j`. -/
def Promise.await (p : Promise J) (j : J) : Promise J :=
  if p.state = .pending then
    { p with
      handled := true, onFulfilled := p.onFulfilled ++ [j], onRejected := p.onRejected ++ [j] }
  else { p with handled := true }

/-- A job of the reserve is registered on a promise, or joins the queue if that has settled. -/
def Heap.await (h : Heap J) (i : ℕ) (j : J) : Heap J :=
  match h.promises[i]? with
  | some p =>
    if j ∈ h.reserve then
      { queue := if p.state = .pending then h.queue else h.queue ++ [j]
        promises := h.promises.set i (p.await j)
        rejected := h.rejected.erase i
        reserve := h.reserve.erase j }
    else h
  | none => h

inductive Effect (J : Type)
  | settle (i : ℕ) (reject : Bool)
  | enqueue (j : J)
  | await (i : ℕ) (j : J)
  deriving DecidableEq, Repr

def Heap.apply (h : Heap J) : Effect J → Heap J
  | .settle i reject => h.settle i reject
  | .enqueue j => h.enqueue j
  | .await i j => h.await i j

def Heap.applyAll (h : Heap J) (effects : List (Effect J)) : Heap J := effects.foldl Heap.apply h

-- ---------------------------------------------------------------------------
-- The load
-- ---------------------------------------------------------------------------

def Promise.load (p : Promise J) : ℕ := p.onFulfilled.length + p.onRejected.length

/-- A job of the reserve may be registered for both ends of a promise. -/
def Heap.load (h : Heap J) : ℕ :=
  h.queue.length + (h.promises.map Promise.load).sum + 2 * h.reserve.length

theorem sum_set {α : Type} (f : α → ℕ) {l : List α} {i : ℕ} {a : α} (hi : l[i]? = some a) (b : α) :
    ((l.set i b).map f).sum + f a = (l.map f).sum + f b := by
  induction l generalizing i with
  | nil => simp at hi
  | cons c l ih =>
    cases i with
    | zero =>
      obtain rfl : c = a := by simpa using hi
      simp [Nat.add_comm, Nat.add_left_comm]
    | succ i =>
      have hrest := ih (by simpa using hi)
      simp only [List.set_cons_succ, List.map_cons, List.sum_cons, Nat.add_assoc, hrest]

omit [DecidableEq J] in
theorem Promise.reactions_le (p : Promise J) (reject : Bool) :
    (p.reactions reject).length ≤ p.load := by
  cases reject <;> simp [reactions, load]

omit [DecidableEq J] in
/-- What joins the queue was counted before. -/
theorem Heap.settle_load_le (h : Heap J) (i : ℕ) (reject : Bool) :
    (h.settle i reject).load ≤ h.load := by
  unfold Heap.settle
  split
  · rename_i p hi
    split
    · have hsum := sum_set Promise.load hi (p.settle reject)
      have hjoin := p.reactions_le reject
      have hnone : (p.settle reject).load = 0 := rfl
      simp only [load, List.length_append]
      omega
    · exact Nat.le_refl _
  · exact Nat.le_refl _

theorem length_erase {l : List J} {j : J} (hj : j ∈ l) : (l.erase j).length + 1 = l.length := by
  rw [List.length_erase_of_mem hj]
  exact Nat.sub_add_cancel (List.length_pos_of_mem hj)

theorem Heap.enqueue_load_le (h : Heap J) (j : J) : (h.enqueue j).load ≤ h.load := by
  unfold Heap.enqueue
  split
  · rename_i hj
    have hless := length_erase hj
    simp only [load, List.length_append, List.length_singleton]
    omega
  · exact Nat.le_refl _

theorem Heap.await_load_le (h : Heap J) (i : ℕ) (j : J) : (h.await i j).load ≤ h.load := by
  unfold Heap.await
  split
  · rename_i p hi
    split
    · rename_i hj
      have hless := length_erase hj
      have hsum := sum_set Promise.load hi (p.await j)
      by_cases hstate : p.state = .pending
      · have hboth : (p.await j).load = p.load + 2 := by
          simp [Promise.await, Promise.load, hstate]
          omega
        simp only [load, hstate, if_true]
        omega
      · have hsame : (p.await j).load = p.load := by simp [Promise.await, Promise.load, hstate]
        simp only [load, hstate, if_false, List.length_append, List.length_singleton]
        omega
    · exact Nat.le_refl _
  · exact Nat.le_refl _

theorem Heap.apply_load_le (h : Heap J) (effect : Effect J) : (h.apply effect).load ≤ h.load := by
  cases effect with
  | settle i reject => exact h.settle_load_le i reject
  | enqueue j => exact h.enqueue_load_le j
  | await i j => exact h.await_load_le i j

theorem Heap.applyAll_load_le (h : Heap J) (effects : List (Effect J)) :
    (h.applyAll effects).load ≤ h.load := by
  induction effects generalizing h with
  | nil => exact Nat.le_refl _
  | cons effect effects ih => exact Nat.le_trans (ih (h.apply effect)) (h.apply_load_le effect)

end Reactions
