import Mathlib.Data.Int.Cast.Lemmas
import QuickJsKmp.Lifetime

/-!
# What a call does to `live_refs`

The notes say which counts host code has come to hold or has given back. A call
changes `live_refs` by those and by the ref it hands out, but for two ways of
losing a count. A drain can fail after the result became a ref; then `*out` is
overwritten and nobody knows the ref any more. And the ref of an argument can be
gone when `js_kmp_host` gives it back.
-/

namespace QuickJsKmp.Ledger

/-- Retains, effective releases and the refs that calls handed out. -/
def Note.net : Note → ℤ
  | .retained _ _ | .handed _ => 1
  | .released _ => -1
  | _ => 0

def net (log : List Moment) : ℤ := ((notes log).map Note.net).sum

def Note.loses : Note → Bool
  | .argumentLost _ | .resultLost _ => true
  | _ => false

def lost (log : List Moment) : ℕ := (notes log).countP Note.loses

/-- For a call, and a host function called by script: how many notes there were
when it began. -/
def Note.began : Note → Option ℕ
  | .returned start _ _ _ _ | .hostReturned start _ _ => some start
  | _ => none

/-- What `live_refs` should be when a call or a host function returns. -/
def Note.Accounted (before : List Moment) : Note → Prop
  | .returned start live live' failed tag =>
    live' = live + resultCount failed tag + BitVec.ofInt 32 (Ledger.net (before.drop start))
  | .hostReturned start live live' => live' = live + BitVec.ofInt 32 (Ledger.net (before.drop start))
  | _ => True

theorem Note.weight_eq (n : Note) :
    n.weight = BitVec.ofInt 32 n.net + BitVec.ofNat 32 (if n.loses then 1 else 0) := by
  cases n <;> rfl

/-- What the notes add, told apart from what they lose. -/
theorem credit_split {gain : Note → ℤ} {loses : Note → Bool}
    (hweight : ∀ n : Note, n.weight =
      BitVec.ofInt 32 (gain n) + BitVec.ofNat 32 (if loses n then 1 else 0))
    (log : List Moment) :
    credit log = BitVec.ofInt 32 ((notes log).map gain).sum +
      BitVec.ofNat 32 ((notes log).countP loses) := by
  unfold credit
  induction notes log with
  | nil => rfl
  | cons n ns ih =>
    have hcount : (n :: ns).countP loses = (if loses n then 1 else 0) + ns.countP loses := by
      rw [List.countP_cons, add_comm]
    rw [List.map_cons, List.sum_cons, ih, hweight, List.map_cons, List.sum_cons, hcount,
      BitVec.ofInt_add, BitVec.ofNat_add]
    abel

theorem credit_eq (log : List Moment) :
    credit log = BitVec.ofInt 32 (net log) + BitVec.ofNat 32 (lost log) :=
  credit_split Note.weight_eq log

theorem ofNat_eq_zero_iff (n : ℕ) : BitVec.ofNat 32 n = 0 ↔ 2 ^ 32 ∣ n := by
  rw [← BitVec.toNat_inj, BitVec.toNat_ofNat, Nat.dvd_iff_mod_eq_zero]
  rfl

/-- Exactly if no count is lost while it runs, a call changes `live_refs` by its
result and by what host code retained, released and was handed, and the
arguments of a host function leave nothing behind. Calls inside calls are calls. -/
theorem refs_accounted (h : Reachable callbacks s) (hlog : s.log = pre ++ m :: post) :
    m.note.Accounted pre ↔ ∀ start, m.note.began = some start → 2 ^ 32 ∣ lost (pre.drop start) := by
  obtain ⟨ctor, hs⟩ := h.balanced
  have horder := (hs.tracks.history pre m post hlog).order
  cases hm : m.note with
  | returned start live live' failed tag =>
    rw [hm] at horder
    simp only [Note.Fits, credit_eq, ← add_assoc] at horder
    simp only [Note.Accounted, Note.began, Option.some.injEq, forall_eq', ← ofNat_eq_zero_iff]
    rw [horder]
    exact add_eq_left
  | hostReturned start live live' =>
    rw [hm] at horder
    simp only [Note.Fits, credit_eq, ← add_assoc] at horder
    simp only [Note.Accounted, Note.began, Option.some.injEq, forall_eq', ← ofNat_eq_zero_iff]
    rw [horder]
    exact add_eq_left
  | _ => simp [Note.Accounted, Note.began]

/-- A host function keeps its argument. -/
def keepingCall : Call × List Event :=
  (.eval true,
    [.hostFunction true [.object 7 .plain], .call (.refRetain 1), .answer (.host false .undefined),
      .answer (.value .undefined)])

theorem refs_accounted_kept :
    ∃ s l, Reachable everyCallback s ∧
      s.log = [⟨.retained 1 1, []⟩, ⟨.returned 0 1 2 false .undefined, []⟩,
        ⟨.hostReturned 0 0 1, []⟩, ⟨.returned 0 0 1 false .undefined, l⟩] ∧
      (Note.returned 0 0 1 false .undefined).Accounted
        [⟨.retained 1 1, []⟩, ⟨.returned 0 1 2 false .undefined, []⟩, ⟨.hostReturned 0 0 1, []⟩] := by
  have hrun : (Machine.exec step Machine.always fresh [keepingCall]).map Shim.log =
      some [⟨.retained 1 1, []⟩, ⟨.returned 0 1 2 false .undefined, []⟩, ⟨.hostReturned 0 0 1, []⟩,
        ⟨.returned 0 0 1 false .undefined, []⟩] := by decide +kernel
  obtain ⟨s, hexec, hlog⟩ := Option.map_eq_some_iff.mp hrun
  have hreach := reachable_of_exec _ hexec
  have hsplit : s.log = [⟨.retained 1 1, []⟩, ⟨.returned 0 1 2 false .undefined, []⟩,
      ⟨.hostReturned 0 0 1, []⟩] ++ ⟨.returned 0 0 1 false .undefined, []⟩ :: [] := hlog
  refine ⟨s, [], hreach, hlog, (refs_accounted hreach hsplit).mpr ?_⟩
  intro start hstart
  obtain rfl : 0 = start := by simpa [Note.began] using hstart
  decide

/-- A reason's `toString` leaves a job, and the rejection handler interrupts. The
result has become a ref when the drain after it is stopped. -/
def interruptedLate : Call × List Event :=
  (.eval true,
    [.act (.reject 5 (.object 8 .plain)), .answer (.value (.object 7 .plain)),
      .act .enqueue, .answer (.value (.string [])), .answer .done,
      .call .interrupt, .answer .done,
      .answer (.threw (.object 9 .error)),
      .answer (.value (.string [])), .answer .done, .answer (.value (.string [])), .answer .done])

/-- The call ends with an exception, and `live_refs` has grown. -/
theorem failed_call_leaves_ref :
    ∃ s pre l, Reachable everyCallback s ∧
      s.log = pre ++ [⟨.returned 0 0 1 true .exception, l⟩] ∧
      ¬ (Note.returned 0 0 1 true .exception).Accounted pre := by
  have hrun : (Machine.exec step Machine.always fresh [interruptedLate]).map Shim.log =
      some ([⟨.rejected 5, [5]⟩, ⟨.taken 5, []⟩, ⟨.reported 5 false, []⟩,
        ⟨.returned 3 0 0 false .undefined, []⟩, ⟨.drainFailed, []⟩, ⟨.resultLost 1, []⟩] ++
        [⟨.returned 0 0 1 true .exception, []⟩]) := by decide +kernel
  obtain ⟨s, hexec, hlog⟩ := Option.map_eq_some_iff.mp hrun
  refine ⟨s, _, [], reachable_of_exec _ hexec, hlog, ?_⟩
  show ¬ (1 : BitVec 32) = 0 + resultCount true .exception + BitVec.ofInt 32 (net (List.drop 0 _))
  decide

end QuickJsKmp.Ledger
