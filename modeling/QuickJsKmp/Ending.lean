import QuickJsKmp.Discarding

/-!
# The end of an interrupted call

`finish` of an outermost call whose state is interrupted. Script may be entered in a
job, in a report, in the conversion and in the description of an exception, and
every such entry returns or is stopped. A drain does not start another job and its discard
makes the heap lighter; `report_rejections` asks for neither.
-/

namespace QuickJsKmp.Ending

open Discarding (Heap Discarded Job forgetAll)

/-- Where `finish` is. `late` marks the drain and the report after the conversion. -/
inductive Phase
  | job (late : Bool)
  | check (late : Bool)
  | discard (late : Bool)
  | unwrap
  | report (late : Bool)
  | convert
  | describe
  | returned
  deriving DecidableEq, Repr

structure Finish where
  phase : Phase
  failed : Bool
  heap : Heap
  deriving DecidableEq, Repr

/-- What happens in a step: the heap that script leaves, what a discarded job does, and
whether a job or the conversion fails. -/
structure Reply where
  heap : Heap
  discarded : Discarded
  failed : Bool
  deriving DecidableEq, Repr

def Finish.next (s : Finish) (r : Reply) : Finish :=
  match s.phase with
  | .job late => ⟨if r.failed then .discard late else .check late, s.failed, r.heap⟩
  -- the state is interrupted
  | .check late => ⟨.discard late, s.failed, s.heap⟩
  | .discard late =>
    match s.heap.queue with
    | _ :: queue =>
      ⟨.discard late, s.failed,
        ({ s.heap with queue := queue } : Heap).applyAll r.discarded.effects⟩
    | [] => ⟨if late then .describe else .report false, true, forgetAll s.heap⟩
  | .unwrap => ⟨.report false, r.failed, r.heap⟩
  -- a round of report_rejections: the reason is described and the host is told
  | .report late =>
    if s.heap.rejected ≠ [] then ⟨.report late, s.failed, r.heap⟩
    else ⟨if late then .returned else if s.failed then .describe else .convert, s.failed, s.heap⟩
  | .convert =>
    ⟨if r.failed then .describe
      else if r.heap.queue ≠ [] || r.heap.rejected ≠ [] then .check true else .returned,
      r.failed, r.heap⟩
  | .describe => ⟨.returned, s.failed, r.heap⟩
  | .returned => s

/-- The call after so many steps. -/
def Finish.after (s : Finish) (r : ℕ → Reply) : ℕ → Finish
  | 0 => s
  | n + 1 => (s.next (r 0)).after (fun n => r (n + 1)) n

/-- Script runs in the next step. -/
def Finish.entersScript (s : Finish) : Bool :=
  match s.phase with
  | .job _ | .convert | .describe => true
  | .report _ => s.heap.rejected ≠ []
  | _ => false

def Returns (s : Finish) (r : ℕ → Reply) : Prop := ∃ n, (s.after r n).phase = .returned

/-- The call returns, and script is entered only finitely often. -/
def Ends (s : Finish) (r : ℕ → Reply) : Prop :=
  Returns s r ∧ ∃ n, ∀ k, n ≤ k → (s.after r k).entersScript = false

/-- The next step is a round of `report_rejections` that leaves as many rejections as it
found: a new promise was rejected in it. -/
def Tracks (s : Finish) (r : Reply) : Prop :=
  (∃ late, s.phase = .report late) ∧ s.heap.rejected ≠ [] ∧
    s.heap.rejected.length ≤ (s.next r).heap.rejected.length

-- ---------------------------------------------------------------------------
-- The measure
-- ---------------------------------------------------------------------------

def Phase.rank : Phase → ℕ
  | .job false => 11
  | .check false => 10
  | .discard false => 9
  | .unwrap => 8
  | .report false => 7
  | .convert => 6
  | .job true => 5
  | .check true => 4
  | .discard true => 3
  | .report true => 2
  | .describe => 1
  | .returned => 0

/-- What a loop has left to do. -/
def Finish.left (s : Finish) : ℕ :=
  match s.phase with
  | .discard _ => s.heap.load
  | .report _ => s.heap.rejected.length
  | _ => 0

/-- Every step goes on to a later place or has less left to do in a loop. -/
theorem next_decreases (s : Finish) (r : Reply) (hreturned : s.phase ≠ .returned)
    (hcalm : ¬ Tracks s r) :
    Prod.Lex (· < ·) (· < ·) ((s.next r).phase.rank, (s.next r).left) (s.phase.rank, s.left) := by
  obtain ⟨phase, failed, heap⟩ := s
  cases phase with
  | returned => exact absurd rfl hreturned
  | job late =>
    refine .left _ _ ?_
    cases late <;> cases hfailed : r.failed <;> simp [Finish.next, Phase.rank, hfailed]
  | check late =>
    refine .left _ _ ?_
    cases late <;> simp [Finish.next, Phase.rank]
  | discard late =>
    obtain ⟨queue, promises, rejected, reserve⟩ := heap
    cases queue with
    | nil =>
      refine .left _ _ ?_
      cases late <;> simp [Finish.next, Phase.rank]
    | cons job queue =>
      exact .right _ (Discarding.discarded_lighter ⟨[], promises, rejected, reserve⟩ job _)
  | unwrap => exact .left _ _ (by simp [Finish.next, Phase.rank])
  | report late =>
    by_cases hnone : heap.rejected = []
    · refine .left _ _ ?_
      cases late <;> cases failed <;> simp [Finish.next, Phase.rank, hnone]
    · have hless : r.heap.rejected.length < heap.rejected.length := by
        refine Nat.lt_of_not_le fun hmore => hcalm ⟨⟨late, rfl⟩, hnone, ?_⟩
        simpa [Finish.next, hnone] using hmore
      have hnext : Finish.next ⟨.report late, failed, heap⟩ r = ⟨.report late, failed, r.heap⟩ := by
        simp [Finish.next, hnone]
      rw [hnext]
      exact .right _ hless
  | convert =>
    refine .left _ _ ?_
    simp only [Finish.next]
    split
    · decide
    · split <;> decide
  | describe => exact .left _ _ (by simp [Finish.next, Phase.rank])

/-- A call none of whose rounds tracks anything returns. -/
theorem returns_of_calm (s : Finish) (r : ℕ → Reply) (hcalm : ∀ n, ¬ Tracks (s.after r n) (r n)) :
    Returns s r := by
  by_cases hreturned : s.phase = .returned
  · exact ⟨0, hreturned⟩
  · have hless := next_decreases s (r 0) hreturned (hcalm 0)
    obtain ⟨n, hn⟩ := returns_of_calm (s.next (r 0)) (fun n => r (n + 1)) fun n => hcalm (n + 1)
    exact ⟨n + 1, hn⟩
termination_by (s.phase.rank, s.left)
decreasing_by exact hless

theorem after_add (s : Finish) (r : ℕ → Reply) (m n : ℕ) :
    s.after r (m + n) = (s.after r m).after (fun k => r (m + k)) n := by
  induction m generalizing s r with
  | zero => simp [Finish.after]
  | succ m ih =>
    rw [Nat.succ_add]
    simp only [Finish.after, ih]
    congr 1
    funext k
    congr 1
    omega

/-- A call that has returned does nothing more. -/
theorem after_returned (s : Finish) (r : ℕ → Reply) (h : s.phase = .returned) (n : ℕ) :
    (s.after r n).phase = .returned := by
  induction n generalizing s r with
  | zero => exact h
  | succ n ih =>
    refine ih _ _ ?_
    simp [Finish.next, h]

/-- From its return on the call stays where it is. -/
theorem after_return (s : Finish) (r : ℕ → Reply) (h : (s.after r n).phase = .returned)
    (hk : n ≤ k) :
    (s.after r k).phase = .returned := by
  obtain ⟨m, rfl⟩ := Nat.exists_eq_add_of_le hk
  rw [after_add]
  exact after_returned _ _ h m

/-- An interrupted call ends exactly when, from some step on, no round of
`report_rejections` rejects a new promise. -/
theorem interrupted_call_ends_iff (s : Finish) (r : ℕ → Reply) :
    Ends s r ↔ ∃ n, ∀ k, n ≤ k → ¬ Tracks (s.after r k) (r k) := by
  constructor
  · rintro ⟨⟨n, hn⟩, -⟩
    refine ⟨n, fun k hk htracks => ?_⟩
    obtain ⟨⟨late, hphase⟩, -⟩ := htracks
    have hreturned := after_return s r hn hk
    rw [hphase] at hreturned
    cases hreturned
  · rintro ⟨n, hn⟩
    obtain ⟨m, hm⟩ := returns_of_calm (s.after r n) (fun k => r (n + k)) fun k => by
      rw [← after_add]
      exact hn (n + k) (Nat.le_add_right n k)
    rw [← after_add] at hm
    refine ⟨⟨n + m, hm⟩, n + m, fun k hk => ?_⟩
    simp [Finish.entersScript, after_return s r hm hk]

/-- The state becomes interrupted during the first report, and the reason's `toString`
rejects another promise with the same reason. -/
def reporting : Finish := ⟨.report false, false, ⟨[], [], [0], []⟩⟩

def rejectsAgain : ℕ → Reply := fun _ => ⟨⟨[], [], [0], []⟩, ⟨[], none, none⟩, false⟩

theorem reporting_again (n : ℕ) : reporting.after rejectsAgain n = reporting := by
  induction n with
  | zero => rfl
  | succ n ih => exact ih

/-- Script is entered in every step, and the call never returns. -/
theorem interrupted_call_reports_on : ¬ ∀ (s : Finish) (r : ℕ → Reply), Ends s r := by
  intro h
  obtain ⟨⟨n, hn⟩, -⟩ := h reporting rejectsAgain
  rw [reporting_again] at hn
  cases hn

end QuickJsKmp.Ending
