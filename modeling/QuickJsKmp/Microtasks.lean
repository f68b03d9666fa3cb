import QuickJsKmp.FinishLaws

/-!
# Microtasks after an outermost call

An outermost call drains the job queue after its body, and once more when the
conversion of a value has queued work. Script also runs after the last of these
drains: in the reports, in the conversion of an exception, and in the second
report. What it queues there is left when the call returns.
-/

namespace QuickJsKmp

open Recorded (Keeps)

/-- A step of the second drain or of what follows it. -/
def Point.late : Point → Bool
  | .drain late | .discard late | .report late | .message late _ | .stack late _ => late
  | _ => false

/-- A point after the first drain, or after the second. -/
def Point.afterDrain (second : Bool) : Point → Bool
  | .moduleNamespace | .convert => !second
  | .report late | .message late _ | .stack late _ => late == second
  | _ => false

/-- A point after the first report, or after the second drain where no report
follows it. -/
def Point.afterReport (second : Bool) : Point → Bool
  | .convert => !second
  | .message late _ | .stack late _ => late == second
  | _ => false

/-- The call went through the second drain. -/
def hasLate (ss : List Step) : Bool := ss.any fun s => s.point.late

def afterLastDrain (ss : List Step) : List Step :=
  ss.filter fun s => s.point.afterDrain (hasLate ss)

def afterLastReport (ss : List Step) : List Step :=
  ss.filter fun s => s.point.afterReport (hasLate ss)

/-- Nothing that runs after the last drain enqueues a job, and what runs after
the last report leaves no promise rejected and unhandled. -/
def Quiesces (ss : List Step) : Prop :=
  (∀ s ∈ afterLastDrain ss, Effect.enqueue ∉ s.effects) ∧ tracked (afterLastReport ss) [] = []

instance (ss : List Step) : Decidable (Quiesces ss) := inferInstanceAs (Decidable (_ ∧ _))

theorem enqueued_eq_zero : enqueued ss = 0 ↔ ∀ s ∈ ss, Effect.enqueue ∉ s.effects := by
  induction ss with
  | nil => simp [enqueued]
  | cons s ss ih =>
    simp only [enqueued, List.map_cons, List.sum_cons, Nat.add_eq_zero_iff] at ih ⊢
    simp [ih, List.count_eq_zero]

-- ---------------------------------------------------------------------------
-- The second drain
-- ---------------------------------------------------------------------------

/-- An exception that is not the null of a refused allocation is described. -/
theorem exceptionToOut_reads (hexc : w.pending = some exc) (hnull : exc ≠ .null)
    (h : exceptionToOut who late w ss = some (out, w', rest)) : rest.length < ss.length := by
  have hoom : decide (w.pending.getD .undefined = .null ∧ w.oom) = false := by simp [hexc, hnull]
  rw [exceptionToOut_run, hoom] at h
  exact errorToOut_reads _ _ _ _ _ h

/-- The work after a conversion that queued some: all its steps are late ones,
there is at least one, and the queue then holds what came after the drain. -/
theorem lateWork_spec (hwork : w.jobs ≠ 0 ∨ w.rejected ≠ [])
    (h : lateWork who out w ss = some (r, w', rest)) :
    ∃ u₁ u₂, ss = u₁ ++ (u₂ ++ rest) ∧ u₁ ++ u₂ ≠ [] ∧ (∀ s ∈ u₁, s.point.ofDrain true) ∧
      w'.jobs = enqueued u₂ ∧
      ((∀ s ∈ u₂, s.point.ofException true) ∧ w'.rejected = tracked u₂ [] ∨
        (∀ s ∈ u₂, s.point = .report true) ∧ w'.rejected = []) := by
  simp only [lateWork, Recorded.get_bind, Recorded.modify_bind] at h
  obtain ⟨failed, w₁, ss₁, hdrain, hthen⟩ := Recorded.bind_eq_some.mp h
  obtain ⟨u₁, rfl, hpts, hjobs, hrej, hnone⟩ := drainJobs_spec hdrain
  rw [Recorded.modify_bind] at hthen
  cases failed with
  | true =>
    obtain ⟨out', w₂, ss₂, hout, hpure⟩ := Recorded.bind_eq_some.mp hthen
    obtain ⟨-, rfl, rfl⟩ := Recorded.pure_eq_some.mp hpure
    obtain ⟨u₂, rfl, hacts⟩ :=
      (exceptionToOut_acts (p := Point.ofException true) ofException_message ofException_stack).elim hout
    refine ⟨u₁, u₂, rfl, ?_, hpts, ?_, .inl ⟨hacts.points, ?_⟩⟩
    · intro hnil
      obtain ⟨rfl, rfl⟩ := List.append_eq_nil_iff.mp hnil
      -- the drain stopped at the interrupt flag, so there is an error to describe
      obtain ⟨-, hpend⟩ | ⟨hf, -⟩ := hnone rfl
      · have hpend' : World.pending { w₁ with outStr := w.outStr } = some shimError := hpend
        have hread := exceptionToOut_reads hpend' (by decide) hout
        simp at hread
      · cases hf
    · simpa [hjobs] using hacts.jobs
    · simpa [hrej rfl] using hacts.rejected
  | false =>
    obtain ⟨_, w₂, ss₂, hreport, hpure⟩ := Recorded.bind_eq_some.mp hthen
    obtain ⟨-, rfl, rfl⟩ := Recorded.pure_eq_some.mp hpure
    obtain ⟨u₂, rfl, henq⟩ :=
      (reportRejections_keeps (enqueues_loose (· = .report true)) rfl).elim hreport
    refine ⟨u₁, u₂, rfl, ?_, hpts, ?_, .inr ⟨henq.points, reportRejections_empties hreport⟩⟩
    · intro hnil
      obtain ⟨rfl, rfl⟩ := List.append_eq_nil_iff.mp hnil
      -- no job was pending, so a rejection was
      obtain ⟨hf, -⟩ | ⟨-, rfl⟩ := hnone rfl
      · cases hf
      · have hread := reportRejections_reads hreport (hwork.resolve_left fun hne => hne hjobs)
        simp at hread
    · simpa [hjobs] using henq.jobs

/-- The points of a conversion that ends without a second drain. -/
def Point.ofConversion (pt : Point) : Prop := pt = .convert ∨ pt.ofException false

/-- What an outermost call does after its first report. -/
inductive Tail (w : World) (ss rest : List Step) (w' : World) : Prop
  | single (used : List Step) (record : ss = used ++ rest) (acts : Acts Point.ofConversion w used w')
  | second (u₀ u₁ u₂ : List Step) (record : ss = u₀ ++ (u₁ ++ (u₂ ++ rest)))
      (some' : u₁ ++ u₂ ≠ []) (converts : ∀ s ∈ u₀, s.point = .convert)
      (drains : ∀ s ∈ u₁, s.point.ofDrain true) (jobs : w'.jobs = enqueued u₂)
      (rejected : (∀ s ∈ u₂, s.point.ofException true) ∧ w'.rejected = tracked u₂ [] ∨
        (∀ s ∈ u₂, s.point = .report true) ∧ w'.rejected = [])

theorem writeOut_tail (h : writeOut who true o w ss = some (r, w', rest)) : Tail w ss rest w' := by
  have hR := acts_passive Point.ofConversion
  cases o with
  | failed exc oom =>
    have hkeeps : Keeps (Acts Point.ofConversion) (writeOut who true (.failed exc oom)) :=
      .bind hR.composes (describe_acts (.inr (ofException_message _)) (.inr (ofException_stack _))) fun _ =>
        .pure hR.composes _
    obtain ⟨used, hss, hacts⟩ := hkeeps.elim h
    exact .single used hss hacts
  | value v refObjects =>
    obtain ⟨out, w₁, ss₁, hvalue, hthen⟩ := Recorded.bind_eq_some.mp h
    cases out with
    | none =>
      obtain ⟨used, rfl, hacts⟩ := (valueToOut_acts (p := Point.ofConversion) (.inl rfl)).elim hvalue
      have hkeeps : Keeps (Acts Point.ofConversion)
          (do let out ← exceptionToOut who false; pure (true, out) : M (Bool × Out)) :=
        .bind hR.composes (exceptionToOut_acts (fun _ => .inr (ofException_message _)) fun _ => .inr (ofException_stack _)) fun _ =>
          .pure hR.composes _
      obtain ⟨used', rfl, hacts'⟩ := hkeeps.elim hthen
      exact .single (used ++ used') (by simp) (hR.composes.trans hacts hacts')
    | some out =>
      simp only [Recorded.get_bind, true_and] at hthen
      split at hthen
      · obtain ⟨u₀, rfl, hacts⟩ := (valueToOut_acts (p := (· = .convert)) rfl).elim hvalue
        obtain ⟨u₁, u₂, rfl, hsome, hdrains, hjobs, hrej⟩ := lateWork_spec ‹_› hthen
        exact .second u₀ u₁ u₂ rfl hsome hacts.points hdrains hjobs hrej
      · obtain ⟨used, rfl, hacts⟩ :=
          (valueToOut_acts (p := Point.ofConversion) (.inl rfl)).elim hvalue
        obtain ⟨-, rfl, rfl⟩ := Recorded.pure_eq_some.mp hthen
        exact .single used rfl hacts

-- ---------------------------------------------------------------------------
-- What is left
-- ---------------------------------------------------------------------------

section Points

variable {pt : Point} (second : Bool)

theorem ofDrain_points (h : pt.ofDrain late) :
    pt.late = late ∧ pt.afterDrain second = false ∧ pt.afterReport second = false := by
  rcases h with rfl | rfl <;> simp [Point.late, Point.afterDrain, Point.afterReport]

theorem ofReport_points (h : pt.ofReport) :
    pt.late = false ∧ pt.afterDrain second = !second ∧ pt.afterReport second = false := by
  rcases h with rfl | rfl <;> cases second <;> decide

theorem ofConversion_points (h : pt.ofConversion) :
    pt.late = false ∧ pt.afterDrain second = !second ∧ pt.afterReport second = !second := by
  rcases h with rfl | ⟨_, rfl⟩ | ⟨_, rfl⟩ <;> cases second <;> exact ⟨rfl, rfl, rfl⟩

theorem ofException_points (h : pt.ofException true) :
    pt.late = true ∧ pt.afterDrain true = true ∧ pt.afterReport true = true := by
  rcases h with ⟨_, rfl⟩ | ⟨_, rfl⟩ <;> exact ⟨rfl, rfl, rfl⟩

end Points

variable {ss : List Step}

/-- The call went through its first drain only. -/
theorem leaves_single (hdrain : ∀ s ∈ u₁, s.point.ofDrain false)
    (hreport : ∀ s ∈ u₂, s.point.ofReport)
    (hconv : ∀ s ∈ u₃, s.point.ofConversion) :
    afterLastDrain (u₁ ++ (u₂ ++ u₃)) = u₂ ++ u₃ ∧ afterLastReport (u₁ ++ (u₂ ++ u₃)) = u₃ := by
  have hd := fun s hs => ofDrain_points false (hdrain s hs)
  have hr := fun s hs => ofReport_points false (hreport s hs)
  have hc := fun s hs => ofConversion_points false (hconv s hs)
  have hlate : hasLate (u₁ ++ (u₂ ++ u₃)) = false := by
    simp only [hasLate, List.any_eq_false, List.mem_append]
    rintro s (hs | hs | hs)
    · simp [(hd s hs).1]
    · simp [(hr s hs).1]
    · simp [(hc s hs).1]
  simp only [afterLastDrain, afterLastReport, hlate, List.filter_append]
  rw [filter_none fun s hs => (hd s hs).2.1, filter_none fun s hs => (hd s hs).2.2,
    filter_all fun s hs => (hr s hs).2.1, filter_none fun s hs => (hr s hs).2.2,
    filter_all fun s hs => (hc s hs).2.1, filter_all fun s hs => (hc s hs).2.2]
  simp

/-- The call went through its second drain. -/
theorem leaves_second (hdrain : ∀ s ∈ u₁, s.point.ofDrain false)
    (hreport : ∀ s ∈ u₂, s.point.ofReport)
    (hconv : ∀ s ∈ u₃, s.point = .convert) (hlateDrain : ∀ s ∈ u₄, s.point.ofDrain true)
    (hlast : ∀ s ∈ u₅, s.point.ofException true ∨ s.point = .report true) (hsome : u₄ ++ u₅ ≠ []) :
    afterLastDrain (u₁ ++ (u₂ ++ (u₃ ++ (u₄ ++ u₅)))) = u₅ ∧
      afterLastReport (u₁ ++ (u₂ ++ (u₃ ++ (u₄ ++ u₅)))) =
        u₅.filter fun s => s.point.afterReport true := by
  have hd := fun s hs => ofDrain_points true (hdrain s hs)
  have hr := fun s hs => ofReport_points true (hreport s hs)
  have hc := fun (s : Step) hs =>
    ofConversion_points true (show s.point.ofConversion from .inl (hconv s hs))
  have hd' := fun s hs => ofDrain_points true (hlateDrain s hs)
  have hl : ∀ s ∈ u₅, s.point.late = true ∧ s.point.afterDrain true = true := by
    intro s hs
    rcases hlast s hs with h | h
    · exact ⟨(ofException_points h).1, (ofException_points h).2.1⟩
    · simp [h, Point.late, Point.afterDrain]
  have hlate : hasLate (u₁ ++ (u₂ ++ (u₃ ++ (u₄ ++ u₅)))) = true := by
    obtain ⟨s, hs⟩ := List.exists_mem_of_ne_nil _ hsome
    simp only [hasLate, List.any_eq_true, List.mem_append]
    rcases List.mem_append.mp hs with hs | hs
    · exact ⟨s, .inr (.inr (.inr (.inl hs))), (hd' s hs).1⟩
    · exact ⟨s, .inr (.inr (.inr (.inr hs))), (hl s hs).1⟩
  simp only [afterLastDrain, afterLastReport, hlate, List.filter_append]
  rw [filter_none fun s hs => (hd s hs).2.1, filter_none fun s hs => (hd s hs).2.2,
    filter_none fun s hs => (hr s hs).2.1, filter_none fun s hs => (hr s hs).2.2,
    filter_none fun s hs => (hc s hs).2.1, filter_none fun s hs => (hc s hs).2.2,
    filter_none fun s hs => (hd' s hs).2.1, filter_none fun s hs => (hd' s hs).2.2,
    filter_all fun s hs => (hl s hs).2]
  simp

/-- The queue and the rejections an outermost call leaves are what the record
has after the last drain and after the last report. -/
theorem finish_leaves (h : finish who true v refObjects unwrap module w ss = some (r, w', [])) :
    w'.jobs = enqueued (afterLastDrain ss) ∧ w'.rejected = tracked (afterLastReport ss) [] := by
  obtain ⟨o, w₁, w₂, u₁, u₂, ss₁, -, rfl, hdrain, hreport, hstart, hwrite, rfl⟩ := finish_cases h
  obtain ⟨hjobs, hrej⟩ := hstart rfl
  cases writeOut_tail hwrite with
  | single used record acts =>
    obtain rfl : ss₁ = used := by simpa using record
    obtain ⟨hlastDrain, hlastReport⟩ := leaves_single hdrain hreport acts.points
    rw [hlastDrain, hlastReport]
    refine ⟨?_, ?_⟩
    · simp [acts.jobs, hjobs, enqueued_append]
    · simp [acts.rejected, hrej]
  | second u₃ u₄ u₅ record hsome hconv hlateDrain hjobs' hrej' =>
    obtain rfl : ss₁ = u₃ ++ (u₄ ++ u₅) := by simpa using record
    rcases hrej' with ⟨hexc, hrej'⟩ | ⟨hrep, hrej'⟩
    · obtain ⟨hlastDrain, hlastReport⟩ :=
        leaves_second hdrain hreport hconv hlateDrain (fun s hs => .inl (hexc s hs)) hsome
      rw [hlastDrain, hlastReport, filter_all fun s hs => (ofException_points (hexc s hs)).2.2]
      exact ⟨hjobs', hrej'⟩
    · obtain ⟨hlastDrain, hlastReport⟩ :=
        leaves_second hdrain hreport hconv hlateDrain (fun s hs => .inr (hrep s hs)) hsome
      rw [hlastDrain, hlastReport,
        filter_none fun s hs => by simp [hrep s hs, Point.afterReport]]
      exact ⟨hjobs', hrej'⟩

theorem quiesces_body (h : s.point = .body) : Quiesces (s :: ss) ↔ Quiesces ss := by
  simp [Quiesces, afterLastDrain, afterLastReport, hasLate, h, Point.late, Point.afterDrain,
    Point.afterReport]

/-- An outermost call returns with an empty queue and no unreported rejection
exactly when the script after its last drain and its last report leaves none. -/
theorem microtasks_drained_iff (hidle : w.state = .idle)
    (h : kmpjsCall who c w ss = some (r, w', [])) :
    (w'.jobs = 0 ∧ w'.rejected = []) ↔ Quiesces ss := by
  obtain ⟨s, ss₁, v, w₁, out, rfl, hbody, -, hfinish, -⟩ := kmpjsCall_cases h
  rw [hidle] at hfinish
  obtain ⟨hjobs, hrej⟩ := finish_leaves hfinish
  rw [quiesces_body hbody, hjobs, hrej, enqueued_eq_zero, Quiesces]

/-- The result's `toJSON` queues a job: it runs before the call returns. -/
def jobFromToJson : List Step :=
  [⟨.body, [], .value (.object 5 .plain)⟩, ⟨.convert, [.enqueue], .value (.string [49])⟩,
    ⟨.convert, [], .text [49]⟩, ⟨.drain true, [], .value .undefined⟩]

theorem microtasks_drained_iff_toJson :
    ∃ r w', kmpjsCall .own ⟨.eval, false, false⟩ .init jobFromToJson = some (r, w', []) ∧
      ((w'.jobs = 0 ∧ w'.rejected = []) ↔ Quiesces jobFromToJson) := by
  have hrun : ∃ r w', kmpjsCall .own ⟨.eval, false, false⟩ .init jobFromToJson = some (r, w', []) :=
    ⟨_, _, rfl⟩
  obtain ⟨r, w', h⟩ := hrun
  exact ⟨r, w', h, microtasks_drained_iff rfl h⟩

/-- The thrown value's `toString` queues a job: it is still queued when the
call returns. -/
def jobFromToString : List Step :=
  [⟨.body, [], .threw (.object 5 .plain)⟩,
    ⟨.message false (.object 5 .plain), [.enqueue], .value (.string [120])⟩,
    ⟨.message false (.object 5 .plain), [], .text [120]⟩]

theorem thrown_value_leaves_a_job :
    ¬ ∀ c w ss r w', Entry.finishes (Call.entry c) → World.state w = .idle →
      kmpjsCall .own c w ss = some (r, w', []) → w'.jobs = 0 ∧ w'.rejected = [] := by
  intro h
  have hjobs := (h ⟨.eval, false, false⟩ .init jobFromToString _ _ rfl rfl rfl).1
  exact absurd hjobs (by decide)

end QuickJsKmp
