import Mathlib.Data.BitVec
import QuickJsKmp.Lib.Parties

/-!
# `JsEngine.interrupt` against `JsEngine.close`

The two flags of `JsEngine`, read and written by any number of threads. A step
is one atomic access, or the beginning or the end of a call into the native
engine. `inFlightInterrupts` is an `AtomicInt`: it counts modulo `2 ^ 32`.
-/

namespace QuickJsKmp.Handshake

open Parties (System Action countP_stay countP_come countP_leave countP_enter countP_le countP_pos)

structure Flags where
  closed : Bool
  inFlightInterrupts : BitVec 32
  /-- How often `native.close` began. -/
  closes : ℕ
  deriving DecidableEq, Repr

/-- What a thread does next. -/
inductive Pc
  -- interrupt()
  | increment
  | load
  | nativeInterrupt
  | inNativeInterrupt
  | decrement
  -- close()
  | swap
  | spin
  | nativeClose
  | inNativeClose
  | returned
  deriving DecidableEq, Repr

def Pc.starts : Pc → Bool
  | .increment | .swap => true
  | _ => false

/-- Counted by `inFlightInterrupts`. -/
def Pc.inFlight : Pc → Bool
  | .load | .nativeInterrupt | .inNativeInterrupt | .decrement => true
  | _ => false

/-- Found the engine open. -/
def Pc.admitted : Pc → Bool
  | .nativeInterrupt | .inNativeInterrupt => true
  | _ => false

/-- Has swapped the flag, and not begun to close. -/
def Pc.closing : Pc → Bool
  | .spin | .nativeClose => true
  | _ => false

/-- Found no interrupt in flight. -/
def Pc.closes : Pc → Bool
  | .nativeClose => true
  | _ => false

def act (_ : ℕ) (s : Flags) : Pc → Unit → Option (Flags × Pc)
  | .increment, _ => some ({ s with inFlightInterrupts := s.inFlightInterrupts + 1 }, .load)
  | .load, _ => some (s, if s.closed then .decrement else .nativeInterrupt)
  | .nativeInterrupt, _ => some (s, .inNativeInterrupt)
  | .inNativeInterrupt, _ => some (s, .decrement)
  | .decrement, _ => some ({ s with inFlightInterrupts := s.inFlightInterrupts - 1 }, .returned)
  | .swap, _ => some ({ s with closed := true }, if s.closed then .returned else .spin)
  | .spin, _ => some (s, if s.inFlightInterrupts = 0 then .nativeClose else .spin)
  | .nativeClose, _ => some ({ s with closes := s.closes + 1 }, .inNativeClose)
  | .inNativeClose, _ => some (s, .returned)
  | .returned, _ => none

abbrev Threads := System Flags Pc

def step : Threads → Action Pc Unit → Option Threads := System.step Pc.starts act

def init : Threads := ⟨⟨false, 0, 0⟩, []⟩

/-- The two halves: `native.close` begins once at most, and from then on
no `native.interrupt` is executing. -/
structure Apart (s : Threads) : Prop where
  once : s.shared.closes ≤ 1
  apart : 0 < s.shared.closes → ∀ i : ℕ, s.parties[i]? ≠ some Pc.inNativeInterrupt

/-- The counter has room for one more. -/
def Room (s : Threads) : Action Pc Unit → Prop
  | .move i _ => s.parties[i]? = some .increment → s.parties.countP Pc.inFlight + 1 < 2 ^ 32
  | .enter _ => True

instance (s : Threads) (a : Action Pc Unit) : Decidable (Room s a) :=
  match a with
  | .enter _ => .isTrue trivial
  | .move i _ => inferInstanceAs (Decidable
      (s.parties[i]? = some Pc.increment → s.parties.countP Pc.inFlight + 1 < 2 ^ 32))

-- ---------------------------------------------------------------------------
-- The invariant
-- ---------------------------------------------------------------------------

/-- Who is in flight is counted, one thread closes, and once it has found nobody
in flight nobody is admitted. -/
structure Inv (s : Threads) : Prop where
  room : s.parties.countP Pc.inFlight < 2 ^ 32
  counter : s.shared.inFlightInterrupts = BitVec.ofNat 32 (s.parties.countP Pc.inFlight)
  once : s.parties.countP Pc.closing + s.shared.closes ≤ if s.shared.closed then 1 else 0
  drained : 0 < s.parties.countP Pc.closes + s.shared.closes → s.parties.countP Pc.admitted = 0

theorem init_inv : Inv init := ⟨by decide, rfl, by decide, by decide⟩

theorem starts_uncounted {p : Pc} (hp : p.starts) :
    p.inFlight = false ∧ p.closing = false ∧ p.closes = false ∧ p.admitted = false := by
  cases p with
  | increment | swap => exact ⟨rfl, rfl, rfl, rfl⟩
  | _ => cases hp

theorem enter_inv (h : Inv s) (hp : p.starts) : Inv ⟨s.shared, s.parties ++ [p]⟩ := by
  obtain ⟨hroom, hcounter, honce, hdrained⟩ := h
  obtain ⟨hflight, hclosing, hcloses, hadmitted⟩ := starts_uncounted hp
  constructor <;>
    simpa only [countP_enter _ hflight, countP_enter _ hclosing, countP_enter _ hcloses,
      countP_enter _ hadmitted]

/-- Nobody is admitted while nobody is in flight. -/
theorem Inv.none_admitted (h : Inv s) (hzero : s.shared.inFlightInterrupts = 0) :
    s.parties.countP Pc.admitted = 0 := by
  have hnone : s.parties.countP Pc.inFlight = 0 := by
    have hcount := congrArg BitVec.toNat (h.counter.symm.trans hzero)
    rwa [BitVec.toNat_ofNat, Nat.mod_eq_of_lt h.room] at hcount
  have hle : s.parties.countP Pc.admitted ≤ s.parties.countP Pc.inFlight :=
    countP_le (fun p hp => by cases p <;> simp_all [Pc.admitted, Pc.inFlight]) s.parties
  omega

/-- An open engine is not being closed. -/
theorem Inv.not_closing (h : Inv s) (hopen : s.shared.closed = false) :
    s.parties.countP Pc.closing = 0 ∧ s.parties.countP Pc.closes = 0 ∧ s.shared.closes = 0 := by
  have hle : s.parties.countP Pc.closes ≤ s.parties.countP Pc.closing :=
    countP_le (fun p hp => by cases p <;> simp_all [Pc.closes, Pc.closing]) s.parties
  have honce := h.once
  simp only [hopen, Bool.false_eq_true, if_false] at honce
  omega

/-- A step between two places that nothing tells apart. -/
theorem Inv.stay (h : Inv s) (hi : s.parties[i]? = some p) (hflight : p'.inFlight = p.inFlight)
    (hclosing : p'.closing = p.closing) (hcloses : p'.closes = p.closes)
    (hadmitted : p'.admitted = p.admitted) : Inv ⟨s.shared, s.parties.set i p'⟩ := by
  obtain ⟨hroom, hcounter, honce, hdrained⟩ := h
  constructor <;>
    simpa only [countP_stay _ hi hflight, countP_stay _ hi hclosing, countP_stay _ hi hcloses,
      countP_stay _ hi hadmitted]

/-- A step of `interrupt` that admits nobody: only the counter may be another. -/
theorem Inv.pass {n : BitVec 32} (h : Inv s) (hi : s.parties[i]? = some p)
    (hroom : (s.parties.set i p').countP Pc.inFlight < 2 ^ 32)
    (hcounter : n = BitVec.ofNat 32 ((s.parties.set i p').countP Pc.inFlight))
    (hclosing : p'.closing = p.closing) (hcloses : p'.closes = p.closes)
    (hadmitted : (s.parties.set i p').countP Pc.admitted ≤ s.parties.countP Pc.admitted) :
    Inv ⟨{ s.shared with inFlightInterrupts := n }, s.parties.set i p'⟩ where
  room := hroom
  counter := hcounter
  once := by simpa [countP_stay _ hi hclosing] using h.once
  drained := by
    intro hpos
    have hnone := h.drained (by simpa [countP_stay _ hi hcloses] using hpos)
    exact Nat.le_zero.mp (hnone ▸ hadmitted)

theorem Inv.increment (h : Inv s) (hi : s.parties[i]? = some .increment)
    (hroom : s.parties.countP Pc.inFlight + 1 < 2 ^ 32) :
    Inv ⟨{ s.shared with inFlightInterrupts := s.shared.inFlightInterrupts + 1 },
      s.parties.set i .load⟩ := by
  have hflight : (s.parties.set i .load).countP Pc.inFlight = _ := countP_come _ hi rfl rfl
  refine h.pass hi ?_ ?_ rfl rfl ?_
  · rwa [hflight]
  · rw [hflight, h.counter, BitVec.ofNat_add]
    rfl
  · exact Nat.le_of_eq (countP_stay _ hi rfl)

/-- The thread has found the engine open, so nobody is closing it yet. -/
theorem Inv.admit (h : Inv s) (hi : s.parties[i]? = some .load)
    (hopen : s.shared.closed = false) : Inv ⟨s.shared, s.parties.set i .nativeInterrupt⟩ := by
  have hflight : (s.parties.set i .nativeInterrupt).countP Pc.inFlight = _ := countP_stay _ hi rfl
  have hclosing : (s.parties.set i .nativeInterrupt).countP Pc.closing = _ := countP_stay _ hi rfl
  have hcloses : (s.parties.set i .nativeInterrupt).countP Pc.closes = _ := countP_stay _ hi rfl
  refine ⟨?_, ?_, ?_, ?_⟩
  · simpa [hflight] using h.room
  · simpa [hflight] using h.counter
  · simpa [hclosing] using h.once
  · simp [hcloses, h.not_closing hopen]

theorem Inv.interrupted (h : Inv s) (hi : s.parties[i]? = some .inNativeInterrupt) :
    Inv ⟨s.shared, s.parties.set i .decrement⟩ := by
  have hflight : (s.parties.set i .decrement).countP Pc.inFlight = _ := countP_stay _ hi rfl
  have hadmitted : (s.parties.set i .decrement).countP Pc.admitted + 1 = _ :=
    countP_leave _ hi rfl rfl
  refine h.pass hi ?_ ?_ rfl rfl ?_
  · rw [hflight]
    exact h.room
  · rw [hflight]
    exact h.counter
  · exact Nat.le_of_lt (Nat.lt_of_succ_le (Nat.le_of_eq hadmitted))

theorem Inv.decrement (h : Inv s) (hi : s.parties[i]? = some .decrement) :
    Inv ⟨{ s.shared with inFlightInterrupts := s.shared.inFlightInterrupts - 1 },
      s.parties.set i .returned⟩ := by
  have hflight : (s.parties.set i .returned).countP Pc.inFlight + 1 = _ :=
    countP_leave _ hi rfl rfl
  refine h.pass hi ?_ ?_ rfl rfl ?_
  · exact Nat.lt_of_succ_lt (show _ + 1 < 2 ^ 32 from hflight ▸ h.room)
  · rw [h.counter, ← hflight, BitVec.ofNat_add]
    exact BitVec.add_sub_cancel _ _
  · exact Nat.le_of_eq (countP_stay _ hi rfl)

/-- The thread is the first to set the flag. -/
theorem Inv.swap (h : Inv s) (hi : s.parties[i]? = some .swap) (hopen : s.shared.closed = false) :
    Inv ⟨{ s.shared with closed := true }, s.parties.set i .spin⟩ := by
  have hflight : (s.parties.set i .spin).countP Pc.inFlight = _ := countP_stay _ hi rfl
  have hclosing : (s.parties.set i .spin).countP Pc.closing = _ := countP_come _ hi rfl rfl
  have hcloses : (s.parties.set i .spin).countP Pc.closes = _ := countP_stay _ hi rfl
  have hadmitted : (s.parties.set i .spin).countP Pc.admitted = _ := countP_stay _ hi rfl
  obtain ⟨hnone, -, hzero⟩ := h.not_closing hopen
  refine ⟨?_, ?_, ?_, ?_⟩
  · simpa [hflight] using h.room
  · simpa [hflight] using h.counter
  · simp [hclosing, hnone, hzero]
  · simpa [hcloses, hadmitted] using h.drained

/-- The thread has found nobody in flight. -/
theorem Inv.drain (h : Inv s) (hi : s.parties[i]? = some .spin)
    (hzero : s.shared.inFlightInterrupts = 0) : Inv ⟨s.shared, s.parties.set i .nativeClose⟩ := by
  have hflight : (s.parties.set i .nativeClose).countP Pc.inFlight = _ := countP_stay _ hi rfl
  have hclosing : (s.parties.set i .nativeClose).countP Pc.closing = _ := countP_stay _ hi rfl
  have hadmitted : (s.parties.set i .nativeClose).countP Pc.admitted = _ := countP_stay _ hi rfl
  refine ⟨?_, ?_, ?_, ?_⟩
  · simpa [hflight] using h.room
  · simpa [hflight] using h.counter
  · simpa [hclosing] using h.once
  · simp [hadmitted, h.none_admitted hzero]

theorem Inv.close (h : Inv s) (hi : s.parties[i]? = some .nativeClose) :
    Inv ⟨{ s.shared with closes := s.shared.closes + 1 }, s.parties.set i .inNativeClose⟩ := by
  have hflight : (s.parties.set i .inNativeClose).countP Pc.inFlight = _ := countP_stay _ hi rfl
  have hclosing : (s.parties.set i .inNativeClose).countP Pc.closing + 1 = _ :=
    countP_leave _ hi rfl rfl
  have hadmitted : (s.parties.set i .inNativeClose).countP Pc.admitted = _ := countP_stay _ hi rfl
  have hhere : 0 < s.parties.countP Pc.closes := countP_pos _ hi rfl
  refine ⟨?_, ?_, ?_, ?_⟩
  · simpa [hflight] using h.room
  · simpa [hflight] using h.counter
  · have honce := h.once
    rw [← hclosing, Nat.add_right_comm, Nat.add_assoc] at honce
    exact honce
  · simp [hadmitted, h.drained (Nat.add_pos_left hhere _)]

theorem move_inv (h : Inv s) (hi : s.parties[i]? = some p)
    (hact : act i s.shared p () = some (t, p'))
    (hroom : Room s (.move i ())) : Inv ⟨t, s.parties.set i p'⟩ := by
  cases p
  case returned => cases hact
  all_goals obtain ⟨rfl, rfl⟩ := Prod.mk.inj (Option.some.inj hact)
  case increment => exact h.increment hi (hroom hi)
  case load =>
    cases hclosed : s.shared.closed with
    | true => exact h.stay hi rfl rfl rfl rfl
    | false => exact h.admit hi hclosed
  case nativeInterrupt => exact h.stay hi rfl rfl rfl rfl
  case inNativeInterrupt => exact h.interrupted hi
  case decrement => exact h.decrement hi
  case swap =>
    cases hclosed : s.shared.closed with
    | true =>
      have hsame : ({ s.shared with closed := true } : Flags) = s.shared := by
        rw [← hclosed]
      rw [hsame]
      exact h.stay hi rfl rfl rfl rfl
    | false => exact h.swap hi hclosed
  case spin =>
    by_cases hzero : s.shared.inFlightInterrupts = 0
    · rw [if_pos hzero]
      exact h.drain hi hzero
    · rw [if_neg hzero]
      exact h.stay hi rfl rfl rfl rfl
  case nativeClose => exact h.close hi
  case inNativeClose => exact h.stay hi rfl rfl rfl rfl

theorem Inv.apart (h : Inv s) : Apart s where
  once := by
    have honce := h.once
    split at honce <;> omega
  apart := by
    intro hpos i hi
    have hnone := h.drained (Nat.add_pos_right _ hpos)
    have hsome : 0 < s.parties.countP Pc.admitted := countP_pos _ hi rfl
    omega

/-- Whatever the interleaving, as long as fewer than `2 ^ 32` calls of
`interrupt` are in progress at once. -/
theorem interrupt_close_apart (h : Machine.Reaches step Room init s) : Apart s := by
  refine Inv.apart (h.invariant (I := Inv) init_inv ?_)
  intro s a s' hs hroom hstep
  cases System.moved_of_step hstep with
  | enter p hp => exact enter_inv hs hp
  | move i a p p' shared hi hact => exact move_inv hs hi hact hroom

/-- One thread interrupts while another closes. -/
theorem interrupt_close_apart_both :
    Apart ⟨⟨true, 0, 1⟩, [.returned, .inNativeClose]⟩ := by
  let moves : List ℕ := [0, 0, 1, 1, 0, 0, 0, 1, 1]
  refine interrupt_close_apart (Machine.reaches_of_exec
    (l := [.enter .increment, .enter .swap] ++ moves.map fun i => .move i ()) ?_)
  decide +kernel

/-- So many threads are executing `native.interrupt`. -/
def crowd (n : ℕ) : Threads := ⟨⟨false, BitVec.ofNat 32 n, 0⟩, List.replicate n .inNativeInterrupt⟩

theorem crowd_last {n : ℕ} {fl fl' : Flags} {p p' : Pc} (h : act n fl p () = some (fl', p')) :
    step ⟨fl, List.replicate n .inNativeInterrupt ++ [p]⟩ (.move n ()) =
      some ⟨fl', List.replicate n .inNativeInterrupt ++ [p']⟩ := by
  have hlen : (List.replicate n Pc.inNativeInterrupt).length = n := List.length_replicate
  have hstep : System.step Pc.starts act _ _ = some _ :=
    System.step_last (l := List.replicate n Pc.inNativeInterrupt) (hlen ▸ h)
  rw [hlen] at hstep
  exact hstep

/-- One thread after the other comes as far as that. -/
theorem crowd_reached (n : ℕ) : Machine.Reaches step Machine.always init (crowd n) := by
  induction n with
  | zero => exact .refl _
  | succ n ih =>
    have henter : step (crowd n) (.enter .increment) =
        some ⟨(crowd n).shared, List.replicate n .inNativeInterrupt ++ [.increment]⟩ := rfl
    have hone := ih.tail trivial henter
    have htwo := hone.tail trivial (crowd_last rfl)
    have hthree := htwo.tail trivial (crowd_last rfl)
    have hfour := hthree.tail trivial (crowd_last rfl)
    simpa [crowd, List.replicate_succ', BitVec.ofNat_add] using hfour

/-- The thread that finds the counter at zero goes on to close. -/
theorem spin_passes {i : ℕ} {s : Flags} (hzero : s.inFlightInterrupts = 0) :
    act i s .spin () = some (s, .nativeClose) := by
  simp [act, hzero]

/-- With `2 ^ 32` threads the counter is zero again, and `close` goes ahead. -/
theorem crowd_overrun : ∃ s, Machine.Reaches step Machine.always init s ∧ ¬ Apart s := by
  have hzero : (crowd (2 ^ 32)).shared.inFlightInterrupts = 0 := by decide +kernel
  have hsome : 0 < 2 ^ 32 := by decide
  generalize (2 ^ 32 : ℕ) = n at hzero hsome
  have henter : step (crowd n) (.enter .swap) =
      some ⟨(crowd n).shared, List.replicate n .inNativeInterrupt ++ [.swap]⟩ := rfl
  have hone := (crowd_reached n).tail trivial henter
  have htwo := hone.tail trivial (crowd_last rfl)
  have hthree := htwo.tail trivial (crowd_last (spin_passes hzero))
  have hfour := hthree.tail trivial (crowd_last rfl)
  refine ⟨_, hfour, fun hapart => hapart.apart Nat.one_pos 0 ?_⟩
  simp [hsome]

end QuickJsKmp.Handshake
