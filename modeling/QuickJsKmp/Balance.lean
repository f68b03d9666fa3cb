import Mathlib.Algebra.Group.Prod
import Mathlib.Algebra.Order.Group.Multiset
import Mathlib.Data.List.Perm.Basic
import Mathlib.Algebra.BigOperators.Group.List.Basic
import QuickJsKmp.Entries

/-!
# What balances at every point of a run

The code that is running, with all its callers, holds a `Hand`: references to
values, counts of slots, the run itself, and rejections that the host is about
to hear of. `Balanced` ties the hand to the state. What the shim owns is what
is in hand and what it has stored; the counts of the slots are those in hand
and those that the notes account for; the list of rejections is what the notes
leave of it.
-/

namespace QuickJsKmp.Ledger

open Recorded (Prog Hands)
open Lookups (getElem?_getLast)

-- ---------------------------------------------------------------------------
-- Lists
-- ---------------------------------------------------------------------------

/-- One entry is exchanged for another. -/
theorem set_perm {l : List α} (h : l[i]? = some b) (a : α) :
    ∃ rest, l.Perm (b :: rest) ∧ (l.set i a).Perm (a :: rest) := by
  obtain ⟨hlt, rfl⟩ := List.getElem?_eq_some_iff.mp h
  exact ⟨l.eraseIdx i, (List.getElem_cons_eraseIdx_perm hlt).symm,
    List.set_perm_cons_eraseIdx hlt a⟩

theorem forgetRejected_perm {l : List (ℕ × JSValue)} (h : l[i]? = some x) :
    l.Perm (x :: QuickJsKmp.forgetRejected l i) := by
  have hlt := (List.getElem?_eq_some_iff.mp h).1
  obtain ⟨front, last, rfl⟩ := List.eq_nil_or_concat l |>.resolve_left (by rintro rfl; simp at hlt)
  rw [List.concat_eq_append] at *
  have hforget : QuickJsKmp.forgetRejected (front ++ [last]) i = ((front ++ [last]).set i last).dropLast := by
    simp [QuickJsKmp.forgetRejected]
  rw [hforget]
  by_cases hi : i < front.length
  · rw [List.set_append_left _ _ hi, List.dropLast_concat]
    rw [List.getElem?_append_left hi] at h
    obtain ⟨rest, hfront, hset⟩ := set_perm h last
    calc front ++ [last] |>.Perm (last :: front) := List.perm_append_singleton _ _
      _ |>.Perm (last :: x :: rest) := hfront.cons _
      _ |>.Perm (x :: last :: rest) := List.Perm.swap _ _ _
      _ |>.Perm (x :: front.set i last) := hset.symm.cons _
  · obtain rfl : i = front.length := by simp at hlt; omega
    rw [List.set_append_right _ _ le_rfl]
    simp only [List.getElem?_concat_length, Option.some.injEq] at h
    simp only [Nat.sub_self, List.set_cons_zero, List.dropLast_concat]
    rw [← h]
    exact List.perm_append_singleton _ _

theorem findRejected_eq_some {l : List (ℕ × JSValue)} (h : findRejected l p = some i) :
    ∃ reason, l[i]? = some (p, reason) := by
  obtain ⟨hlt, hp, -⟩ := List.findIdx?_eq_some_iff_getElem.mp h
  refine ⟨(l[i]).2, ?_⟩
  rw [List.getElem?_eq_getElem hlt, ← of_decide_eq_true hp]

theorem findRejected_eq_none {l : List (ℕ × JSValue)} :
    findRejected l p = none ↔ p ∉ l.map Prod.fst := by
  simp only [findRejected, List.findIdx?_eq_none_iff, List.mem_map, not_exists, not_and]
  constructor
  · intro h x hx he
    simpa [he] using h x hx
  · intro h x hx
    simpa using h x hx

-- ---------------------------------------------------------------------------
-- The hand
-- ---------------------------------------------------------------------------

/-- The outermost run, or its clean-up after a drain that failed. -/
inductive Token
  | running
  | discarding
  deriving DecidableEq, Repr

/-- References, counts of slots, the run, and promises on their way to the host. -/
abbrev Hand := Multiset Held × BitVec 32 × Multiset Token × Multiset ℕ

/-- One reference, if the engine counts it. -/
def refs (o : Held) : Multiset Held := if o.counted then {o} else 0

def holds (o : Held) : Hand := (refs o, 0, 0, 0)

def holdsAny : Option JSValue → Hand
  | some v => holds (.value v)
  | none => 0

def holdsCode : Option Code → Hand
  | some c => holds (.code c)
  | none => 0

/-- One count of a slot. -/
def aRef : Hand := (0, 1, 0, 0)

def tagRef : Tag → Hand
  | .ref _ _ => aRef
  | _ => 0

def tagRefAny : Option Tag → Hand
  | some tag => tagRef tag
  | none => 0

/-- The ref that a call hands out. -/
def resultRef (r : Bool × Tag) : Hand := if r.1 then 0 else tagRef r.2

def holdsRun : Hand := (0, 0, {.running}, 0)

def cleansUp : Hand := (0, 0, {.discarding}, 0)

/-- Only an outermost call has the run. -/
def runOf (outermost : Bool) : Hand := if outermost then holdsRun else 0

def telling (p : ℕ) : Hand := (0, 0, 0, {p})

-- ---------------------------------------------------------------------------
-- References
-- ---------------------------------------------------------------------------

def slotRefs (slot : Slot) : Multiset Held := if slot.refcount = 0 then 0 else refs (.value slot.val)

def entryRefs (x : ℕ × JSValue) : Multiset Held := refs (Shim.promiseValue x.1) + refs (.value x.2)

/-- What the engine's fields keep. -/
def Shim.stores (s : Shim) : Multiset Held :=
  (s.slots.slots.map slotRefs).sum + (s.rejected.map entryRefs).sum + refs (.value s.bigintCtor)

structure Owns (s : Shim) (held : Multiset Held) : Prop where
  fault : s.fault = false
  owned : s.owned = held + s.stores

-- ---------------------------------------------------------------------------
-- Counts
-- ---------------------------------------------------------------------------

def notes (log : List Moment) : List Note := log.map Moment.note

/-- What a note adds to the counts that nobody in the shim holds any more. -/
def Note.weight : Note → BitVec 32
  | .retained _ _ | .handed _ | .argumentLost _ | .resultLost _ => 1
  | .released _ => -1
  | _ => 0

def credit (log : List Moment) : BitVec 32 := ((notes log).map Note.weight).sum

/-- A count went past `INT32_MAX`. -/
def Wraps (log : List Moment) : Prop := ∃ ref, .retained ref (BitVec.intMax 32) ∈ notes log

structure Counts (s : Shim) (n : BitVec 32) : Prop where
  inv : ∃ free, s.slots.Inv free
  live : s.liveRefs = n + credit s.log
  counted : ∀ slot ∈ s.slots.slots, slot.refcount ≠ 0 → (Held.value slot.val).counted = true
  wraps : (∃ slot ∈ s.slots.slots, slot.refcount.toInt < 0) ↔ Wraps s.log

-- ---------------------------------------------------------------------------
-- Rejections
-- ---------------------------------------------------------------------------

/-- The promise whose entry the note removes. -/
def Note.removes : Note → Option ℕ
  | .handled p | .unwrapped p | .taken p | .discarded p => some p
  | _ => none

/-- Rejected, and not yet handled, reported, unwrapped or discarded. -/
def Outstanding (ns : List Note) (p : ℕ) : Prop :=
  .rejected p ∈ ns ∧ ∀ n ∈ ns, n.removes ≠ some p

/-- The entry was there when a drain failed. -/
def Doomed (log : List Moment) (p : ℕ) : Prop := ∃ m ∈ log, m.note = .drainFailed ∧ p ∈ m.rejected

/-- One if the call hands out a ref. -/
def resultCount (failed : Bool) : Tag → BitVec 32
  | .ref _ _ => if failed then 0 else 1
  | _ => 0

/-- When a note can come, after these. -/
def Note.Fits (before : List Moment) : Note → Prop
  | .rejected p => .rejected p ∉ notes before ∧ ∀ n ∈ notes before, n.removes ≠ some p
  | .taken p => Outstanding (notes before) p ∧ ¬ Doomed before p
  | .reported p isHandled =>
    .taken p ∈ notes before ∧ (∀ h, .reported p h ∉ notes before) ∧
      (isHandled = true ↔ .handled p ∈ notes before)
  | .returned start live live' failed tag =>
    live' = live + resultCount failed tag + credit (before.drop start)
  | .hostReturned start live live' => live' = live + credit (before.drop start)
  | _ => True

/-- The list holds no promise twice, and is what the notes leave of it. -/
structure Lists (log : List Moment) (l : List ℕ) : Prop where
  nodup : l.Nodup
  exact : ∀ p, p ∈ l ↔ Outstanding (notes log) p

structure Moment.Fits (before : List Moment) (m : Moment) : Prop where
  lists : Lists (before ++ [m]) m.rejected
  order : m.note.Fits before

def History (log : List Moment) : Prop := ∀ pre m post, log = pre ++ m :: post → m.Fits pre

/-- The reports of a promise. -/
def told (ns : List Note) (p : ℕ) : ℕ := ns.count (.reported p true) + ns.count (.reported p false)

structure Tracks (s : Shim) (telling : Multiset ℕ) : Prop where
  history : History s.log
  lists : Lists s.log (s.rejected.map Prod.fst)
  settled : ∀ p n, n ∈ notes s.log → n = .rejected p ∨ n.removes = some p →
    ∃ reason, (s.promise p).state = .rejected reason
  handlers : ∀ p, .rejected p ∈ notes s.log →
    ((s.promise p).isHandled = true ↔ .handled p ∈ notes s.log)
  taken : ∀ p, (notes s.log).count (.taken p) ≤ 1
  told : ∀ p, told (notes s.log) p + telling.count p ≤ (notes s.log).count (.taken p)

/-- There is one outermost run. Entries that were there when its drain failed are
only met while it cleans up. -/
structure Runs (s : Shim) (tokens : Multiset Token) : Prop where
  one : tokens = 0 ∨ ∃ t, tokens = {t} ∧ s.state ≠ .idle
  doom : ∀ p ∈ s.rejected.map Prod.fst, Doomed s.log p → .discarding ∈ tokens

/-- The log at some earlier time, and the constructor that no call replaces. -/
structure Base where
  log : List Moment
  ctor : JSValue

def Since (base : Base) (s : Shim) : Prop := base.log <+: s.log ∧ s.bigintCtor = base.ctor

structure Balanced (base : Base) (s : Shim) (h : Hand) : Prop where
  since : Since base s
  owns : Owns s h.1
  counts : Counts s h.2.1
  runs : Runs s h.2.2.1
  tracks : Tracks s h.2.2.2

-- ---------------------------------------------------------------------------
-- Taking and giving references
-- ---------------------------------------------------------------------------

section Refs

variable {s : Shim} {h : Hand}

theorem own_eq (s : Shim) (o : Held) : s.own o = { s with owned := refs o + s.owned } := by
  unfold Shim.own refs
  split
  · rw [Multiset.singleton_add]
  · rw [zero_add]

theorem give_eq (h : s.owned = refs o + rest) : s.give o = { s with owned := rest } := by
  unfold Shim.give
  unfold refs at h
  split
  · rename_i hc
    rw [if_pos hc, Multiset.singleton_add] at h
    rw [if_pos (h ▸ Multiset.mem_cons_self o rest), h, Multiset.erase_cons_head]
  · rename_i hc
    rw [if_neg hc, zero_add] at h
    rw [← h]

theorem Balanced.own (hs : Balanced base s h) (o : Held) :
    Balanced base (s.own o) (holds o + h) := by
  rw [own_eq]
  refine ⟨hs.since, ⟨hs.owns.fault, ?_⟩, ?_, ?_, ?_⟩
  · show refs o + s.owned = refs o + h.1 + s.stores
    rw [hs.owns.owned, add_assoc]
  all_goals simp only [holds, Prod.fst_add, Prod.snd_add, zero_add]
  · exact ⟨hs.counts.inv, hs.counts.live, hs.counts.counted, hs.counts.wraps⟩
  · exact ⟨hs.runs.one, hs.runs.doom⟩
  · exact ⟨hs.tracks.history, hs.tracks.lists, hs.tracks.settled, hs.tracks.handlers,
      hs.tracks.taken, hs.tracks.told⟩

theorem Balanced.give (hs : Balanced base s (holds o + h)) : Balanced base (s.give o) h := by
  have howned : s.owned = refs o + (h.1 + s.stores) := by
    rw [hs.owns.owned, ← add_assoc]
    rfl
  rw [give_eq howned]
  have hcounts := hs.counts
  have hruns := hs.runs
  have htracks := hs.tracks
  simp only [holds, Prod.fst_add, Prod.snd_add, zero_add] at hcounts hruns htracks
  exact ⟨hs.since, ⟨hs.owns.fault, rfl⟩,
    ⟨hcounts.inv, hcounts.live, hcounts.counted, hcounts.wraps⟩, ⟨hruns.one, hruns.doom⟩,
    ⟨htracks.history, htracks.lists, htracks.settled, htracks.handlers, htracks.taken,
      htracks.told⟩⟩

/-- No part of the balance is about these. -/
theorem Balanced.side (hs : Balanced base s h) (j : ℕ) (o : Bool) (e : Option JSValue)
    (r : List (Name × ModuleKind)) :
    Balanced base { s with jobs := j, oom := o, pending := e, rows := r } h :=
  ⟨hs.since, ⟨hs.owns.fault, hs.owns.owned⟩,
    ⟨hs.counts.inv, hs.counts.live, hs.counts.counted, hs.counts.wraps⟩,
    ⟨hs.runs.one, hs.runs.doom⟩,
    ⟨hs.tracks.history, hs.tracks.lists, hs.tracks.settled, hs.tracks.handlers, hs.tracks.taken,
      hs.tracks.told⟩⟩

end Refs

-- ---------------------------------------------------------------------------
-- One more note
-- ---------------------------------------------------------------------------

section Notes

variable {log : List Moment} {m : Moment} {l : List ℕ}

@[simp] theorem notes_snoc (log : List Moment) (m : Moment) :
    notes (log ++ [m]) = notes log ++ [m.note] := by
  simp [notes]

theorem outstanding_snoc :
    Outstanding (ns ++ [n]) p ↔
      (.rejected p ∈ ns ∨ n = .rejected p) ∧
      (∀ x ∈ ns, x.removes ≠ some p) ∧ n.removes ≠ some p := by
  simp only [Outstanding, List.mem_append, List.mem_singleton, or_imp, forall_and, forall_eq',
    eq_comm (b := n)]

theorem History.snoc (h : History log) (hm : m.Fits log) : History (log ++ [m]) := by
  intro pre x post heq
  rcases List.eq_nil_or_concat post with rfl | ⟨front, last, rfl⟩
  · obtain ⟨rfl, hlast⟩ := List.append_inj' heq rfl
    obtain rfl : m = x := by simpa using hlast
    exact hm
  · rw [List.concat_eq_append, ← List.cons_append, ← List.append_assoc] at heq
    obtain ⟨hlog, -⟩ := List.append_inj' heq rfl
    exact h pre x front hlog

/-- The note removes an entry, and it goes. -/
theorem Lists.remove (h : Lists log l) (hperm : l.Perm (p :: l')) (hm : m.note.removes = some p) :
    Lists (log ++ [m]) l' := by
  have hnodup : (p :: l').Nodup := hperm.nodup_iff.mp h.nodup
  obtain ⟨hp, hl'⟩ := List.nodup_cons.mp hnodup
  refine ⟨hl', fun q => ?_⟩
  rw [notes_snoc, outstanding_snoc, hm]
  have hne : m.note ≠ .rejected q := by
    intro he
    rw [he] at hm
    cases hm
  have hmem : q ∈ l ↔ q = p ∨ q ∈ l' := by rw [hperm.mem_iff, List.mem_cons]
  constructor
  · intro hq
    obtain ⟨hrej, hrem⟩ := (h.exact q).mp (hmem.mpr (.inr hq))
    refine ⟨.inl hrej, hrem, ?_⟩
    rintro ⟨⟩
    exact hp hq
  · rintro ⟨hrej, hrem, hqp⟩
    have hq : q ∈ l := (h.exact q).mpr ⟨hrej.resolve_right hne, hrem⟩
    exact (hmem.mp hq).resolve_left fun he => hqp (he ▸ rfl)

/-- The note removes an entry that is not there. -/
theorem Lists.skip (h : Lists log l) (hp : p ∉ l) (hm : m.note.removes = some p) :
    Lists (log ++ [m]) l := by
  refine ⟨h.nodup, fun q => ?_⟩
  rw [notes_snoc, outstanding_snoc, hm, h.exact q]
  have hne : m.note ≠ .rejected q := by
    intro he
    rw [he] at hm
    cases hm
  constructor
  · intro hq
    refine ⟨.inl hq.1, hq.2, ?_⟩
    rintro ⟨⟩
    exact hp ((h.exact _).mpr hq)
  · rintro ⟨hrej, hrem, -⟩
    exact ⟨hrej.resolve_right hne, hrem⟩

theorem Lists.add (h : Lists log l) (hm : m.note = .rejected p) (hfit : m.note.Fits log) :
    Lists (log ++ [m]) (l ++ [p]) := by
  rw [hm] at hfit
  obtain ⟨hnot, hrem⟩ := hfit
  have hp : p ∉ l := fun hp => hnot ((h.exact p).mp hp).1
  refine ⟨List.nodup_append.mpr ⟨h.nodup, List.nodup_singleton p, ?_⟩, fun q => ?_⟩
  · rintro a ha b hb rfl
    exact hp (List.mem_singleton.mp hb ▸ ha)
  · rw [notes_snoc, outstanding_snoc, hm, List.mem_append, List.mem_singleton, h.exact q]
    constructor
    · rintro (hq | rfl)
      · exact ⟨.inl hq.1, hq.2, nofun⟩
      · exact ⟨.inr rfl, hrem, nofun⟩
    · rintro ⟨hrej | hrej, hq, -⟩
      · exact .inl ⟨hrej, hq⟩
      · cases hrej
        exact .inr rfl

/-- A note that is not about an entry. -/
def Note.Aside (n : Note) : Prop := n.removes = none ∧ ∀ p, n ≠ .rejected p

theorem Lists.aside (h : Lists log l) (hm : m.note.Aside) : Lists (log ++ [m]) l := by
  refine ⟨h.nodup, fun q => ?_⟩
  rw [notes_snoc, outstanding_snoc, hm.1, h.exact q]
  constructor
  · intro hq
    exact ⟨.inl hq.1, hq.2, nofun⟩
  · rintro ⟨hrej, hrem, -⟩
    exact ⟨hrej.resolve_right (hm.2 q), hrem⟩

/-- What holds of the promises before and after the note. -/
structure Follows (s s' : Shim) (n : Note) : Prop where
  keeps : ∀ p reason, (s.promise p).state = .rejected reason →
    ∃ r, (s'.promise p).state = .rejected r
  settles : ∀ p, n = .rejected p ∨ n.removes = some p → ∃ r, (s'.promise p).state = .rejected r
  handles : ∀ p, .rejected p ∈ notes s.log ∨ n = .rejected p →
    ((s'.promise p).isHandled = true ↔ .handled p ∈ notes s.log ∨ n = .handled p)

/-- The parts of `Tracks` that every note changes in the same way. -/
theorem Tracks.step {s s' : Shim} (ht : Tracks s t) (hlog : s'.log = s.log ++ [⟨n, l⟩])
    (hrejected : s'.rejected.map Prod.fst = l) (hlists : Lists (s.log ++ [⟨n, l⟩]) l)
    (hfit : n.Fits s.log) (hf : Follows s s' n)
    (htaken : ∀ p, (notes s.log ++ [n]).count (.taken p) ≤ 1)
    (htold : ∀ p, Ledger.told (notes s.log ++ [n]) p + t'.count p ≤
      (notes s.log ++ [n]).count (.taken p)) : Tracks s' t' := by
  refine ⟨?_, ?_, ?_, ?_, ?_, ?_⟩
  · rw [hlog]
    exact ht.history.snoc ⟨hlists, hfit⟩
  · rw [hlog, hrejected]
    exact hlists
  · intro p x hx hcase
    rw [hlog, notes_snoc, List.mem_append, List.mem_singleton] at hx
    rcases hx with hx | rfl
    · obtain ⟨reason, hr⟩ := ht.settled p x hx hcase
      exact hf.keeps p reason hr
    · exact hf.settles p hcase
  · intro p hp
    rw [hlog, notes_snoc, List.mem_append, List.mem_singleton] at hp ⊢
    rw [hf.handles p (hp.imp_right Eq.symm), eq_comm (b := n)]
  · intro p
    rw [hlog, notes_snoc]
    exact htaken p
  · intro p
    rw [hlog, notes_snoc]
    exact htold p

theorem doomed_snoc (hm : m.note ≠ .drainFailed) : Doomed (log ++ [m]) p ↔ Doomed log p := by
  simp only [Doomed, List.mem_append, List.mem_singleton]
  constructor
  · rintro ⟨x, hx | rfl, hnote, hp⟩
    · exact ⟨x, hx, hnote, hp⟩
    · exact absurd hnote hm
  · rintro ⟨x, hx, hnote, hp⟩
    exact ⟨x, .inl hx, hnote, hp⟩

theorem History.rejected_of_doomed (h : History log) (hp : Doomed log p) :
    .rejected p ∈ notes log := by
  obtain ⟨x, hx, -, hmem⟩ := hp
  obtain ⟨pre, post, rfl⟩ := List.append_of_mem hx
  have hrej := (((h pre x post rfl).lists.exact p).mp hmem).1
  rw [notes, ← List.singleton_append, ← List.append_assoc, List.map_append]
  exact List.mem_append_left _ hrej

theorem credit_snoc : credit (log ++ [m]) = credit log + m.note.weight := by
  simp [credit]

theorem wraps_snoc (hm : ∀ ref count, m.note ≠ .retained ref count) :
    Wraps (log ++ [m]) ↔ Wraps log := by
  simp only [Wraps, notes_snoc, List.mem_append, List.mem_singleton]
  constructor
  · rintro ⟨ref, href | href⟩
    · exact ⟨ref, href⟩
    · exact absurd href.symm (hm ref _)
  · rintro ⟨ref, href⟩
    exact ⟨ref, .inl href⟩

theorem count_snoc (ns : List Note) (n x : Note) :
    (ns ++ [n]).count x = ns.count x + if n = x then 1 else 0 := by
  simp [List.count_append, List.count_singleton]

end Notes

section Slots

variable {s : Shim} {t : Multiset ℕ}

/-- A note that is neither about an entry nor a report. -/
structure Note.Quiet (n : Note) : Prop where
  aside : n.Aside
  told : ∀ p h, n ≠ .reported p h

theorem Tracks.quiet {n : Note} (ht : Tracks s t) (hn : n.Quiet) (hfit : n.Fits s.log) :
    Tracks (s.note n) t := by
  have hhandled : ∀ p, n ≠ .handled p := by
    rintro p rfl
    cases hn.aside.1
  have htaken : ∀ p, n ≠ .taken p := by
    rintro p rfl
    cases hn.aside.1
  refine ht.step rfl rfl (ht.lists.aside hn.aside) hfit ⟨fun p r hr => ⟨r, hr⟩, ?_, ?_⟩ ?_ ?_
  · rintro p (rfl | hp)
    · exact absurd rfl (hn.aside.2 p)
    · rw [hn.aside.1] at hp
      cases hp
  · intro p hp
    rw [or_iff_left (hhandled p)]
    exact ht.handlers p (hp.resolve_right (hn.aside.2 p))
  · intro p
    rw [count_snoc, if_neg (htaken p)]
    exact ht.taken p
  · intro p
    simp only [Ledger.told, count_snoc, if_neg (htaken p), if_neg (hn.told p _)]
    exact ht.told p

theorem Runs.note (hr : Runs s tokens) (hn : n ≠ .drainFailed) : Runs (s.note n) tokens :=
  ⟨hr.one, fun p hp hd => hr.doom p hp ((doomed_snoc hn).mp hd)⟩

/-- Another table, and a note on it. -/
theorem Tracks.slots (ht : Tracks s t) (slots : SlotTable) : Tracks { s with slots := slots } t :=
  ⟨ht.history, ht.lists, ht.settled, ht.handlers, ht.taken, ht.told⟩

/-- One slot is exchanged for another. -/
structure Exchange (l l' : List Slot) (old new : Slot) : Prop where
  mem : old ∈ l
  perm : ∃ rest, l.Perm (old :: rest) ∧ l'.Perm (new :: rest)

theorem Exchange.set {l : List Slot} (h : l[i]? = some old) (new : Slot) :
    Exchange l (l.set i new) old new :=
  ⟨List.mem_of_getElem? h, set_perm h new⟩

variable {l l' : List Slot} {old new : Slot}

theorem Exchange.refs (h : Exchange l l' old new) :
    (l'.map slotRefs).sum + slotRefs old = (l.map slotRefs).sum + slotRefs new := by
  obtain ⟨rest, hl, hl'⟩ := h.perm
  rw [(hl.map slotRefs).sum_eq, (hl'.map slotRefs).sum_eq]
  simp only [List.map_cons, List.sum_cons]
  abel

theorem Exchange.count (h : Exchange l l' old new) :
    (l'.map Slot.refcount).sum = (l.map Slot.refcount).sum + new.refcount - old.refcount := by
  obtain ⟨rest, hl, hl'⟩ := h.perm
  rw [(hl.map Slot.refcount).sum_eq, (hl'.map Slot.refcount).sum_eq]
  simp only [List.map_cons, List.sum_cons]
  abel

theorem Exchange.forall (h : Exchange l l' old new) (P : Slot → Prop) (hold : P old → P new)
    (hl : ∀ slot ∈ l, P slot) : ∀ slot ∈ l', P slot := by
  obtain ⟨rest, hperm, hperm'⟩ := h.perm
  intro slot hslot
  rcases List.mem_cons.mp (hperm'.mem_iff.mp hslot) with rfl | hrest
  · exact hold (hl old h.mem)
  · exact hl slot (hperm.mem_iff.mpr (List.mem_cons_of_mem _ hrest))

theorem Exchange.exists (h : Exchange l l' old new) {P : Slot → Prop} (hold : ¬ P old) :
    (∃ slot ∈ l', P slot) ↔ P new ∨ ∃ slot ∈ l, P slot := by
  obtain ⟨rest, hperm, hperm'⟩ := h.perm
  simp only [hperm.mem_iff, hperm'.mem_iff, List.mem_cons, exists_eq_or_imp]
  rw [or_iff_right hold]

/-- What an operation on the table does to the stored references and to the
counts; `wrap` says that a count passed `INT32_MAX`. -/
structure TableStep (t t' : SlotTable) (gain loss : Multiset Held) (d : BitVec 32) (wrap : Prop) :
    Prop where
  inv : ∃ free, t'.Inv free
  refs : (t'.slots.map slotRefs).sum + loss = (t.slots.map slotRefs).sum + gain
  count : (t'.slots.map Slot.refcount).sum = (t.slots.map Slot.refcount).sum + d
  counted : (∀ slot ∈ t.slots, slot.refcount ≠ 0 → (Held.value slot.val).counted = true) →
    ∀ slot ∈ t'.slots, slot.refcount ≠ 0 → (Held.value slot.val).counted = true
  wraps : (∃ slot ∈ t'.slots, slot.refcount.toInt < 0) ↔
    wrap ∨ ∃ slot ∈ t.slots, slot.refcount.toInt < 0

theorem TableStep.of_exchange {t t' : SlotTable} (hinv : t'.Inv chain)
    (h : Exchange t.slots t'.slots old new) (hnonneg : 0 ≤ old.refcount.toInt)
    (hcounted : ((Held.value old.val).counted = true ∨ old.refcount = 0) →
      new.refcount ≠ 0 → (Held.value new.val).counted = true) :
    TableStep t t' (slotRefs new) (slotRefs old) (new.refcount - old.refcount)
      (new.refcount.toInt < 0) where
  inv := ⟨chain, hinv⟩
  refs := h.refs
  count := by rw [h.count, add_sub_assoc]
  counted := by
    refine h.forall (fun slot => slot.refcount ≠ 0 → (Held.value slot.val).counted = true) ?_
    intro hold
    refine hcounted ?_
    by_cases hz : old.refcount = 0
    · exact .inr hz
    · exact .inl (hold hz)
  wraps := h.exists (not_lt.mpr hnonneg)

theorem slotRefs_fresh (v : JSValue) (gen : BitVec 32) :
    slotRefs (SlotTable.fresh v gen) = refs (.value v) := by
  simp [slotRefs, SlotTable.fresh]

theorem slotNew_tableStep {t : SlotTable} (hinv : t.Inv chain) (hv : (Held.value v).counted = true)
    (hne : (t.slotNew v true).2 ≠ 0) :
    TableStep t (t.slotNew v true).1 (Ledger.refs (.value v)) 0 1 False := by
  rcases t.slotNew_cases v true with he | ⟨i, slot, hhead, hslot, he⟩ | ⟨cap, -, hfull, he⟩
  · rw [he] at hne
    exact absurd rfl hne
  · obtain ⟨hzero, chain', hinv'⟩ := hinv.take hhead hslot v
    rw [he]
    have hstep : TableStep t _ _ _ _ _ :=
      .of_exchange hinv' (.set hslot (SlotTable.fresh v slot.gen)) (by rw [hzero]; decide)
        fun _ _ => hv
    rw [slotRefs_fresh, slotRefs, if_pos hzero, hzero, sub_zero] at hstep
    have hpos : (SlotTable.fresh v slot.gen).refcount.toInt < 0 ↔ False := by
      simp [SlotTable.fresh]
    exact ⟨hstep.inv, hstep.refs, hstep.count, hstep.counted, hstep.wraps.trans (by rw [hpos])⟩
  · rw [he]
    refine ⟨⟨chain, hinv.grow hfull v cap⟩, ?_, ?_, ?_, ?_⟩
    · simp [slotRefs_fresh]
    · simp [SlotTable.fresh]
    · intro hall slot hslot hcount
      rcases List.mem_append.mp hslot with hslot | hslot
      · exact hall slot hslot hcount
      · rw [List.mem_singleton.mp hslot]
        exact hv
    · simp [SlotTable.fresh, or_and_right, exists_or]

theorem retain_tableStep {t : SlotTable} (hinv : t.Inv chain) (hg : t.slotGet ref = some slot) :
    TableStep t (t.kmpjsRefRetain ref) 0 0 1 (slot.refcount = BitVec.intMax 32) := by
  obtain ⟨-, hs, hr, -⟩ := SlotTable.slotGet_eq_some hg
  have hne := SlotTable.toInt_pos_ne_zero hr
  have hne' := SlotTable.succ_ne_zero_of_pos hr
  have hinv' : (t.kmpjsRefRetain ref).Inv chain := (SlotTable.kmpjsRefRetain_spec hinv).1
  rw [SlotTable.kmpjsRefRetain_of_some hg] at hinv' ⊢
  have hstep : TableStep t _ _ _ _ _ :=
    .of_exchange hinv' (.set hs { slot with refcount := slot.refcount + 1 }) hr.le
      fun hold _ => hold.resolve_right hne
  have hrefs := hstep.refs
  simp only [slotRefs, if_neg hne, if_neg hne'] at hrefs
  refine ⟨hstep.inv, ?_, ?_, hstep.counted, hstep.wraps.trans (or_congr_left ?_)⟩
  · rw [add_zero, add_zero]
    exact add_right_cancel hrefs
  · rw [hstep.count, add_sub_cancel_left]
  · rw [SlotTable.toInt_succ hr]
    obtain ⟨hc, -, hlt⟩ := SlotTable.toInt_of_pos hr
    rw [← BitVec.toNat_inj]
    have hmax : (BitVec.intMax 32).toNat = 2 ^ 31 - 1 := by decide
    split <;> omega

/-- The last count gives the value back. -/
theorem release_tableStep {t : SlotTable} (hinv : t.Inv chain) (hg : t.slotGet ref = some slot) :
    TableStep t (t.kmpjsRefRelease ref) 0
      (if slot.refcount - 1 = 0 then Ledger.refs (.value slot.val) else 0) (-1) False := by
  obtain ⟨-, hs, hr, -⟩ := SlotTable.slotGet_eq_some hg
  obtain ⟨chain', hinv', -⟩ : ∃ chain', SlotTable.Inv (t.kmpjsRefRelease ref) chain' ∧ _ :=
    SlotTable.kmpjsRefRelease_spec hinv
  have hne := SlotTable.toInt_pos_ne_zero hr
  by_cases hone : slot.refcount = 1
  · rw [if_pos (by rw [hone, sub_self])]
    rw [SlotTable.kmpjsRefRelease_of_last hg hone] at hinv' ⊢
    have hstep : TableStep t _ _ _ _ _ :=
      .of_exchange hinv' (.set hs { val := .undefined, refcount := 0, gen := _, nextFree := _ }) hr.le
        fun _ hz => absurd rfl hz
    have hrefs := hstep.refs
    simp only [slotRefs, if_neg hne] at hrefs
    refine ⟨hstep.inv, ?_, ?_, hstep.counted, hstep.wraps.trans (by simp)⟩
    · simpa using hrefs
    · rw [hstep.count, hone]
      rfl
  · have hne' := SlotTable.pred_ne_zero hone
    rw [if_neg hne']
    rw [SlotTable.kmpjsRefRelease_of_more hg hone] at hinv' ⊢
    have hstep : TableStep t _ _ _ _ _ :=
      .of_exchange hinv' (.set hs { slot with refcount := slot.refcount - 1 }) hr.le
        fun hold _ => hold.resolve_right hne
    have hrefs := hstep.refs
    simp only [slotRefs, if_neg hne, if_neg hne'] at hrefs
    refine ⟨hstep.inv, ?_, ?_, hstep.counted, hstep.wraps.trans (or_congr_left ?_)⟩
    · rw [add_zero, add_zero]
      exact add_right_cancel hrefs
    · rw [hstep.count]
      congr 1
      show slot.refcount - 1 - slot.refcount = -1
      abel
    · rw [SlotTable.toInt_pred hr, iff_false]
      omega

theorem Owns.slots (ho : Owns s held) (hstep : TableStep s.slots t' gain loss d wrap)
    (h : held + loss = held' + gain) : Owns { s with slots := t' } held' := by
  refine ⟨ho.fault, ?_⟩
  have hrefs := hstep.refs
  have heq : s.owned + (loss + gain) = held' + Shim.stores { s with slots := t' } + (loss + gain) := by
    rw [ho.owned]
    simp only [Shim.stores]
    calc held + ((s.slots.slots.map slotRefs).sum + _ + _) + (loss + gain)
        = (held + loss) + ((s.slots.slots.map slotRefs).sum + gain) +
          ((s.rejected.map entryRefs).sum + Ledger.refs (.value s.bigintCtor)) := by abel
      _ = (held' + gain) + ((t'.slots.map slotRefs).sum + loss) +
          ((s.rejected.map entryRefs).sum + Ledger.refs (.value s.bigintCtor)) := by rw [h, hrefs]
      _ = _ := by abel
  exact add_right_cancel heq

theorem Counts.slots (hc : Counts s n) (hstep : TableStep s.slots t' gain loss d False)
    (h : n' = n + d) : Counts { s with slots := t' } n' := by
  refine ⟨hstep.inv, ?_, hstep.counted hc.counted, ?_⟩
  · show (t'.slots.map Slot.refcount).sum = n' + credit s.log
    have hlive : (s.slots.slots.map Slot.refcount).sum = n + credit s.log := hc.live
    rw [hstep.count, hlive, h]
    abel
  · rw [hstep.wraps, false_or]
    exact hc.wraps

/-- A note that accounts for a count in hand. -/
theorem Balanced.note {h : Hand} {n : Note} (hs : Balanced base s ((0, n.weight, 0, 0) + h))
    (hn : n.Quiet) (hfit : n.Fits s.log) (hdrain : n ≠ .drainFailed)
    (hret : ∀ ref count, n ≠ .retained ref count) : Balanced base (s.note n) h := by
  have howns := hs.owns
  have hcounts := hs.counts
  have hruns := hs.runs
  have htracks := hs.tracks
  simp only [Prod.fst_add, Prod.snd_add, zero_add] at howns hcounts hruns htracks
  refine ⟨⟨hs.since.1.trans (List.prefix_append _ _), hs.since.2⟩, ⟨howns.fault, howns.owned⟩, ?_,
    hruns.note hdrain, htracks.quiet hn hfit⟩
  refine ⟨hcounts.inv, ?_, hcounts.counted, ?_⟩
  · show s.liveRefs = h.2.1 + credit (s.log ++ [_])
    rw [hcounts.live, credit_snoc]
    abel
  · show _ ↔ Wraps (s.log ++ [_])
    rw [wraps_snoc hret]
    exact hcounts.wraps

theorem Balanced.slotNew {h : Hand} (hs : Balanced base s (holds (.value v) + h))
    (hv : (Held.value v).counted = true) :
    Balanced base (s.slotNew v).1 ((if (s.slotNew v).2 = 0 then 0 else aRef) + h) := by
  unfold Shim.slotNew
  by_cases hne : (s.slots.slotNew v true).2 = 0
  · simp only [hne, ↓reduceIte, zero_add]
    exact hs.give
  · simp only [hne, ↓reduceIte]
    obtain ⟨chain, hinv⟩ := hs.counts.inv
    have hstep := slotNew_tableStep hinv hv hne
    have hruns := hs.runs
    have htracks := hs.tracks
    simp only [holds, Prod.fst_add, Prod.snd_add, zero_add] at hruns htracks
    refine ⟨hs.since, hs.owns.slots hstep ?_, hs.counts.slots hstep ?_, ?_, ?_⟩
    · simp only [holds, aRef, Prod.fst_add, zero_add, add_zero]
      abel
    · simp only [holds, aRef, Prod.fst_add, Prod.snd_add, zero_add]
      abel
    all_goals simp only [aRef, Prod.snd_add, zero_add, Prod.fst_add]
    · exact ⟨hruns.one, hruns.doom⟩
    · exact htracks.slots _

theorem Balanced.unref {h : Hand} (hs : Balanced base s (aRef + h))
    (hg : s.slots.slotGet ref = some slot) : Balanced base (s.unref ref slot) h := by
  obtain ⟨chain, hinv⟩ := hs.counts.inv
  have hstep := release_tableStep hinv hg
  have howns := hs.owns
  have hruns := hs.runs
  have htracks := hs.tracks
  simp only [aRef, Prod.fst_add, Prod.snd_add, zero_add] at howns hruns htracks
  have hcounts : Counts { s with slots := s.slots.kmpjsRefRelease ref } h.2.1 := by
    refine hs.counts.slots hstep ?_
    simp only [aRef, Prod.fst_add, Prod.snd_add]
    abel
  have hown := howns.slots hstep (add_zero _).symm
  unfold Shim.unref
  by_cases hlast : slot.refcount - 1 = 0
  · simp only [hlast, ↓reduceIte] at hown ⊢
    have howned : s.owned = Ledger.refs (.value slot.val) +
        (h.1 + Shim.stores { s with slots := s.slots.kmpjsRefRelease ref }) := by
      rw [← add_assoc, add_comm (Ledger.refs _)]
      exact hown.owned
    rw [give_eq howned]
    exact ⟨hs.since, ⟨howns.fault, rfl⟩,
      ⟨hcounts.inv, hcounts.live, hcounts.counted, hcounts.wraps⟩,
      ⟨hruns.one, hruns.doom⟩, ⟨htracks.history, htracks.lists, htracks.settled, htracks.handlers,
        htracks.taken, htracks.told⟩⟩
  · simp only [hlast, ↓reduceIte, add_zero] at hown ⊢
    exact ⟨hs.since, hown, hcounts, ⟨hruns.one, hruns.doom⟩, htracks.slots _⟩

theorem Balanced.refRetain {h : Hand} (hs : Balanced base s h) (ref : Handle) :
    Balanced base (s.refRetain ref) h := by
  unfold Shim.refRetain
  split
  · rename_i slot hg
    obtain ⟨chain, hinv⟩ := hs.counts.inv
    have hstep := retain_tableStep hinv hg
    have hquiet : (Note.retained ref slot.refcount).Quiet := ⟨⟨rfl, nofun⟩, nofun⟩
    have hown : Owns { s with slots := s.slots.kmpjsRefRetain ref } h.1 := hs.owns.slots hstep rfl
    have hruns : Runs { s with slots := s.slots.kmpjsRefRetain ref } h.2.2.1 :=
      ⟨hs.runs.one, hs.runs.doom⟩
    refine ⟨⟨hs.since.1.trans (List.prefix_append _ _), hs.since.2⟩, ⟨hown.fault, hown.owned⟩, ?_,
      hruns.note nofun, (hs.tracks.slots _).quiet hquiet trivial⟩
    refine ⟨hstep.inv, ?_, hstep.counted hs.counts.counted, ?_⟩
    · show ((s.slots.kmpjsRefRetain ref).slots.map Slot.refcount).sum = h.2.1 + credit (s.log ++ [_])
      have hlive : (s.slots.slots.map Slot.refcount).sum = h.2.1 + credit s.log := hs.counts.live
      rw [hstep.count, hlive, credit_snoc, add_assoc]
      rfl
    · refine hstep.wraps.trans ?_
      show _ ↔ Wraps (s.log ++ [_])
      rw [hs.counts.wraps]
      simp only [Wraps, notes_snoc, List.mem_append, List.mem_singleton, Note.retained.injEq]
      constructor
      · rintro (hmax | ⟨r, hr⟩)
        · exact ⟨ref, .inr ⟨rfl, hmax.symm⟩⟩
        · exact ⟨r, .inl hr⟩
      · rintro ⟨r, hr | ⟨-, hmax⟩⟩
        · exact .inr ⟨r, hr⟩
        · exact .inl hmax.symm
  · exact hs

/-- A count that nobody in the shim holds is given back: the note accounts for it. -/
theorem Balanced.refRelease {h : Hand} (hs : Balanced base s h) (ref : Handle) :
    Balanced base (s.refRelease ref) h := by
  unfold Shim.refRelease
  split
  · rename_i slot hg
    have hback : Balanced base s (aRef + ((0, -1, 0, 0) + h)) := by
      have hzero : aRef + ((0, -1, 0, 0) + h) = h := by
        rw [← add_assoc]
        simp [aRef]
      rwa [hzero]
    exact (hback.unref hg).note ⟨⟨rfl, nofun⟩, nofun⟩ trivial nofun nofun
  · exact hs

theorem Balanced.refGiveBack {h : Hand} (hs : Balanced base s (aRef + h)) (ref : Handle) :
    Balanced base (s.refGiveBack ref) h := by
  unfold Shim.refGiveBack
  split
  · rename_i slot hg
    exact hs.unref hg
  · exact Balanced.note (n := .argumentLost ref) hs ⟨⟨rfl, nofun⟩, nofun⟩ trivial nofun nofun

end Slots

-- ---------------------------------------------------------------------------
-- Entries come and go
-- ---------------------------------------------------------------------------

section Entries

variable {s : Shim} {h : Hand} {t : Multiset ℕ} {l : List (ℕ × JSValue)}

theorem Tracks.rejected_of_mem (ht : Tracks s t) (hp : p ∈ s.rejected.map Prod.fst) :
    ∃ reason, (s.promise p).state = .rejected reason :=
  ht.settled p _ ((ht.lists.exact p).mp hp).1 (.inl rfl)

/-- The promises are as before, and the note removes an entry. -/
theorem Tracks.follows {n : Note} (ht : Tracks s t) (hpromise : s'.promise = s.promise)
    (hn : n.removes = some p) (hne : n ≠ .handled p)
    (hp : ∃ reason, (s.promise p).state = .rejected reason) : Follows s s' n := by
  have hrej : ∀ q, n ≠ .rejected q := by
    rintro q rfl
    cases hn
  have hhandled : ∀ q, n ≠ .handled q := by
    rintro q rfl
    cases hn
    exact hne rfl
  refine ⟨?_, ?_, ?_⟩
  · intro q reason hq
    exact ⟨reason, hpromise ▸ hq⟩
  · rintro q (hq | hq)
    · exact absurd hq (hrej q)
    · obtain rfl : p = q := Option.some.inj (hn.symm.trans hq)
      exact hpromise ▸ hp
  · intro q hq
    rw [or_iff_left (hhandled q), hpromise]
    exact ht.handlers q (hq.resolve_right (hrej q))

theorem told_snoc {ns : List Note} {n : Note} (hn : ∀ p h, n ≠ .reported p h) (p : ℕ) :
    told (ns ++ [n]) p = told ns p := by
  simp only [told, count_snoc, if_neg (hn p _), add_zero]

theorem Tracks.discard (ht : Tracks s t)
    (hperm : (s.rejected.map Prod.fst).Perm (p :: l.map Prod.fst)) :
    Tracks ({ s with rejected := l }.note (.discarded p)) t := by
  have hp : p ∈ s.rejected.map Prod.fst := hperm.mem_iff.mpr List.mem_cons_self
  refine ht.step rfl rfl (ht.lists.remove hperm rfl) trivial
    (ht.follows rfl rfl nofun (ht.rejected_of_mem hp)) ?_ ?_
  · intro q
    rw [count_snoc, if_neg nofun]
    exact ht.taken q
  · intro q
    rw [count_snoc, if_neg nofun, told_snoc (n := .discarded p) nofun]
    exact ht.told q

theorem Tracks.unwrap (ht : Tracks s t) (hp : ∃ reason, (s.promise p).state = .rejected reason)
    (hl : (s.rejected.map Prod.fst).Perm (p :: l.map Prod.fst) ∨
      p ∉ s.rejected.map Prod.fst ∧ l = s.rejected) :
    Tracks ({ s with rejected := l }.note (.unwrapped p)) t := by
  have hlists : Lists (s.log ++ [⟨.unwrapped p, l.map Prod.fst⟩]) (l.map Prod.fst) := by
    rcases hl with hperm | ⟨hnot, rfl⟩
    · exact ht.lists.remove hperm rfl
    · exact ht.lists.skip hnot rfl
  refine ht.step rfl rfl hlists trivial (ht.follows rfl rfl nofun hp) ?_ ?_
  · intro q
    rw [count_snoc, if_neg nofun]
    exact ht.taken q
  · intro q
    rw [count_snoc, if_neg nofun, told_snoc (n := .unwrapped p) nofun]
    exact ht.told q

/-- The host is about to hear of it. -/
theorem Tracks.take (ht : Tracks s t)
    (hperm : (s.rejected.map Prod.fst).Perm (p :: l.map Prod.fst)) (hp : ¬ Doomed s.log p) :
    Tracks ({ s with rejected := l }.note (.taken p)) ({p} + t) := by
  have hmem : p ∈ s.rejected.map Prod.fst := hperm.mem_iff.mpr List.mem_cons_self
  have hout := (ht.lists.exact p).mp hmem
  have hfirst : (notes s.log).count (.taken p) = 0 := by
    refine List.count_eq_zero.mpr fun hin => ?_
    exact hout.2 _ hin rfl
  refine ht.step rfl rfl (ht.lists.remove hperm rfl) ⟨hout, hp⟩
    (ht.follows rfl rfl nofun (ht.rejected_of_mem hmem)) ?_ ?_
  · intro q
    rw [count_snoc]
    split
    · rename_i he
      cases he
      omega
    · exact ht.taken q
  · intro q
    have htold := ht.told q
    rw [count_snoc, told_snoc (n := .taken p) nofun, Multiset.count_add, Multiset.count_singleton]
    by_cases hq : q = p
    · subst hq
      rw [if_pos rfl, if_pos rfl]
      omega
    · have hne : Note.taken p ≠ .taken q := by
        rintro ⟨⟩
        exact hq rfl
      rw [if_neg hq, if_neg hne]
      omega

/-- The host hears of a promise that was taken for it. -/
theorem Tracks.report (ht : Tracks s ({p} + t)) :
    Tracks (s.note (.reported p (s.promise p).isHandled)) t := by
  have htold := ht.told p
  have htaken := ht.taken p
  rw [Multiset.count_add, Multiset.count_singleton_self] at htold
  have hnone : Ledger.told (notes s.log) p = 0 := by omega
  have hmem : .taken p ∈ notes s.log := List.one_le_count_iff.mp (by omega)
  have hnot : ∀ b, Note.reported p b ∉ notes s.log := by
    intro b hb
    have hpos := List.one_le_count_iff.mpr hb
    cases b <;> simp only [Ledger.told] at hnone <;> omega
  have hrej : .rejected p ∈ notes s.log := by
    -- the note was preceded by the rejection
    obtain ⟨m, hm, hnote⟩ := List.mem_map.mp hmem
    obtain ⟨pre, post, hlog⟩ := List.append_of_mem hm
    have hfits := (ht.history pre m post hlog).order
    rw [hnote] at hfits
    rw [hlog, notes, List.map_append]
    exact List.mem_append_left _ hfits.1.1
  refine ht.step rfl rfl (ht.lists.aside ⟨rfl, nofun⟩) ⟨hmem, hnot, ht.handlers p hrej⟩
    ⟨fun q r hr => ⟨r, hr⟩, nofun, ?_⟩ ?_ ?_
  · intro q hq
    rw [or_iff_left nofun]
    exact ht.handlers q (hq.resolve_right nofun)
  · intro q
    rw [count_snoc, if_neg nofun]
    exact ht.taken q
  · intro q
    have hq := ht.told q
    rw [Multiset.count_add, Multiset.count_singleton] at hq
    have htake : Note.reported p (s.promise p).isHandled ≠ .taken q := nofun
    simp only [Ledger.told, count_snoc, if_neg htake] at hq ⊢
    by_cases hpq : q = p
    · subst hpq
      cases (s.promise q).isHandled <;> simp at hq ⊢ <;> omega
    · have hne : ∀ b c, Note.reported p b ≠ .reported q c := by
        rintro b c ⟨⟩
        exact hpq rfl
      rw [if_neg (hne _ _), if_neg (hne _ _)]
      omega

theorem promise_setPromise (s : Shim) (p : ℕ) (x : Promise) (q : ℕ) :
    (s.setPromise p x).promise q = if q = p then x else s.promise q := by
  simp only [Shim.promise, Shim.setPromise, List.lookup_cons]
  by_cases hq : q = p
  · simp [hq]
  · simp [hq, beq_false_of_ne hq]

/-- Promises change, and no note is due. -/
theorem Tracks.promises (ht : Tracks s t) (ps : List (ℕ × Promise))
    (hkeeps : ∀ q reason, (s.promise q).state = .rejected reason →
      ({ s with promises := ps }.promise q).state = .rejected reason)
    (hhandles : ∀ q, .rejected q ∈ notes s.log →
      ({ s with promises := ps }.promise q).isHandled = (s.promise q).isHandled) :
    Tracks { s with promises := ps } t := by
  refine ⟨ht.history, ht.lists, ?_, ?_, ht.taken, ht.told⟩
  · intro q n hn hcase
    obtain ⟨reason, hq⟩ := ht.settled q n hn hcase
    exact ⟨reason, hkeeps q reason hq⟩
  · intro q hq
    rw [hhandles q hq]
    exact ht.handlers q hq

/-- A promise that is pending has no note. -/
theorem Tracks.fresh (ht : Tracks s t) (hp : (s.promise p).state = .pending) :
    .rejected p ∉ notes s.log ∧ ∀ n ∈ notes s.log, n.removes ≠ some p := by
  have hnot : ∀ n ∈ notes s.log, ¬ (n = .rejected p ∨ n.removes = some p) := by
    intro n hn hcase
    obtain ⟨reason, hr⟩ := ht.settled p n hn hcase
    rw [hp] at hr
    cases hr
  exact ⟨fun hin => hnot _ hin (.inl rfl), fun n hn hrem => hnot n hn (.inr hrem)⟩

/-- A pending promise is settled, and the tracker does not hear of it. -/
theorem Tracks.settle (ht : Tracks s t) (hp : (s.promise p).state = .pending) (x : Promise) :
    Tracks (s.setPromise p x) t := by
  refine ht.promises _ ?_ ?_
  · intro q reason hq
    show ((s.setPromise p x).promise q).state = _
    rw [promise_setPromise, if_neg]
    · exact hq
    · rintro rfl
      rw [hp] at hq
      cases hq
  · intro q hq
    show ((s.setPromise p x).promise q).isHandled = _
    rw [promise_setPromise, if_neg]
    rintro rfl
    exact (ht.fresh hp).1 hq

theorem Tracks.reject (ht : Tracks s t) (hp : (s.promise p).state = .pending) (reason : JSValue) :
    Tracks ({ s.setPromise p ⟨.rejected reason, false⟩ with
      rejected := s.rejected ++ [(p, reason)] }.note (.rejected p)) t := by
  have hpromise := promise_setPromise s p ⟨.rejected reason, false⟩
  have hfresh := ht.fresh hp
  have hlists : Lists (s.log ++ [⟨.rejected p, (s.rejected ++ [(p, reason)]).map Prod.fst⟩])
      ((s.rejected ++ [(p, reason)]).map Prod.fst) := by
    rw [List.map_append]
    exact ht.lists.add rfl hfresh
  refine ht.step rfl rfl hlists hfresh ⟨?_, ?_, ?_⟩ ?_ ?_
  · intro q r hq
    refine ⟨r, ?_⟩
    show ((s.setPromise p _).promise q).state = _
    rw [hpromise, if_neg]
    · exact hq
    · rintro rfl
      rw [hp] at hq
      cases hq
  · rintro q (hq | hq)
    · cases hq
      refine ⟨reason, ?_⟩
      show ((s.setPromise p _).promise p).state = _
      rw [hpromise, if_pos rfl]
    · cases hq
  · intro q hq
    show ((s.setPromise p _).promise q).isHandled = true ↔ _
    rw [hpromise, or_iff_left nofun]
    by_cases hpq : q = p
    · subst hpq
      rw [if_pos rfl]
      exact iff_of_false nofun fun hin => hfresh.2 _ hin rfl
    · rw [if_neg hpq]
      refine ht.handlers q (hq.resolve_right ?_)
      rintro ⟨⟩
      exact hpq rfl
  · intro q
    rw [count_snoc, if_neg nofun]
    exact ht.taken q
  · intro q
    rw [count_snoc, if_neg nofun, told_snoc (n := .rejected p) nofun]
    exact ht.told q

/-- The first handler of a rejected promise. -/
theorem Tracks.handle (ht : Tracks s t) (hp : (s.promise p).state = .rejected reason)
    (hl : (s.rejected.map Prod.fst).Perm (p :: l.map Prod.fst) ∨
      p ∉ s.rejected.map Prod.fst ∧ l = s.rejected) :
    Tracks ({ s.setPromise p ⟨.rejected reason, true⟩ with rejected := l }.note (.handled p)) t := by
  have hpromise := promise_setPromise s p ⟨.rejected reason, true⟩
  have hlists : Lists (s.log ++ [⟨.handled p, l.map Prod.fst⟩]) (l.map Prod.fst) := by
    rcases hl with hperm | ⟨hnot, rfl⟩
    · exact ht.lists.remove hperm rfl
    · exact ht.lists.skip hnot rfl
  have hstate : ((s.setPromise p ⟨.rejected reason, true⟩).promise p).state = .rejected reason := by
    rw [hpromise, if_pos rfl]
  refine ht.step rfl rfl hlists trivial ⟨?_, ?_, ?_⟩ ?_ ?_
  · intro q r hq
    show ∃ r, ((s.setPromise p _).promise q).state = _
    by_cases hpq : q = p
    · subst hpq
      exact ⟨reason, hstate⟩
    · rw [hpromise, if_neg hpq]
      exact ⟨r, hq⟩
  · rintro q (hq | hq)
    · cases hq
    · cases hq
      exact ⟨reason, hstate⟩
  · intro q hq
    show ((s.setPromise p _).promise q).isHandled = true ↔ _
    rw [hpromise]
    by_cases hpq : q = p
    · subst hpq
      simp
    · have hne : Note.handled p ≠ .handled q := by
        rintro ⟨⟩
        exact hpq rfl
      rw [if_neg hpq, or_iff_left hne]
      exact ht.handlers q (hq.resolve_right nofun)
  · intro q
    rw [count_snoc, if_neg nofun]
    exact ht.taken q
  · intro q
    rw [count_snoc, if_neg nofun, told_snoc (n := .handled p) nofun]
    exact ht.told q

/-- An entry gives back its two references. -/
theorem forget_eq (hi : s.rejected[i]? = some x)
    (howned : s.owned = (s.rejected.map entryRefs).sum + rest) :
    s.forgetRejected i = { s with
      owned := ((QuickJsKmp.forgetRejected s.rejected i).map entryRefs).sum + rest
      rejected := QuickJsKmp.forgetRejected s.rejected i } := by
  obtain ⟨p, reason⟩ := x
  have hsum := ((forgetRejected_perm hi).map entryRefs).sum_eq
  simp only [List.map_cons, List.sum_cons] at hsum
  have hfirst : s.owned = refs (Shim.promiseValue p) + (refs (.value reason) +
      (((QuickJsKmp.forgetRejected s.rejected i).map entryRefs).sum + rest)) := by
    rw [howned, hsum, entryRefs]
    abel
  simp only [Shim.forgetRejected, hi]
  rw [give_eq hfirst]
  exact congrArg (fun u : Shim => { u with rejected := QuickJsKmp.forgetRejected s.rejected i })
    (give_eq (s := { s with owned := _ }) rfl)

theorem Owns.forget (ho : Owns s held) (hi : s.rejected[i]? = some x) :
    ∃ owned, s.forgetRejected i =
        { s with owned := owned, rejected := QuickJsKmp.forgetRejected s.rejected i } ∧
      Owns (s.forgetRejected i) held := by
  have howned : s.owned = (s.rejected.map entryRefs).sum +
      (held + ((s.slots.slots.map slotRefs).sum + refs (.value s.bigintCtor))) := by
    rw [ho.owned, Shim.stores]
    abel
  have heq := forget_eq hi howned
  refine ⟨_, heq, ?_⟩
  rw [heq]
  refine ⟨ho.fault, ?_⟩
  simp only [Shim.stores]
  abel

theorem Runs.shrink (hr : Runs s tokens) (hl : ∀ p ∈ l.map Prod.fst, p ∈ s.rejected.map Prod.fst)
    (hlog : s'.log = s.log ++ [⟨n, l.map Prod.fst⟩]) (hn : n ≠ .drainFailed)
    (hrejected : s'.rejected = l) (hstate : s'.state = s.state) : Runs s' tokens := by
  refine ⟨hstate ▸ hr.one, ?_⟩
  intro p hp hd
  rw [hrejected] at hp
  rw [hlog, doomed_snoc hn] at hd
  exact hr.doom p (hl p hp) hd

/-- A note on an entry leaves the counts alone. -/
theorem Counts.note {n : Note} {c : BitVec 32} (hc : Counts s c)
    (hlog : s'.log = s.log ++ [⟨n, l.map Prod.fst⟩])
    (hslots : s'.slots = s.slots) (hn : n.weight = 0)
    (hret : ∀ ref count, n ≠ .retained ref count) :
    Counts s' c := by
  refine ⟨hslots ▸ hc.inv, ?_, hslots ▸ hc.counted, ?_⟩
  · rw [Shim.liveRefs, hslots, hlog, credit_snoc, hn, add_zero]
    exact hc.live
  · rw [hslots, hlog, wraps_snoc hret]
    exact hc.wraps

/-- An entry goes, with its two references. -/
theorem Balanced.unlist {n : Note} (hs : Balanced base s h) (hi : s.rejected[i]? = some (p, reason))
    (ps : List (ℕ × Promise)) (hn : n.removes = some p)
    (ht : Tracks ({ s with
      promises := ps
      rejected := QuickJsKmp.forgetRejected s.rejected i }.note n) t') :
    Balanced base (({ s with promises := ps }.forgetRejected i).note n) (h.1, h.2.1,
      h.2.2.1, t') := by
  have ho : Owns { s with promises := ps } h.1 := ⟨hs.owns.fault, hs.owns.owned⟩
  obtain ⟨owned, heq, howns⟩ := ho.forget hi
  have hperm := (forgetRejected_perm hi).map Prod.fst
  have hdrain : n ≠ .drainFailed := by
    rintro rfl
    cases hn
  have hweight : n.weight = 0 ∧ ∀ ref count, n ≠ .retained ref count := by
    cases n <;> first | exact ⟨rfl, nofun⟩ | cases hn
  rw [heq] at howns ⊢
  refine ⟨⟨hs.since.1.trans (List.prefix_append _ _), hs.since.2⟩, ⟨howns.fault, howns.owned⟩,
    hs.counts.note rfl rfl hweight.1 hweight.2,
    hs.runs.shrink ?_ rfl hdrain rfl rfl,
    ⟨ht.history, ht.lists, ht.settled, ht.handlers, ht.taken, ht.told⟩⟩
  intro q hq
  exact hperm.mem_iff.mpr (List.mem_cons_of_mem _ hq)

/-- The note removes an entry that is not there. -/
theorem Balanced.skip {n : Note} (hs : Balanced base s h) (ps : List (ℕ × Promise))
    (hn : n.removes = some p) (ht : Tracks ({ s with promises := ps }.note n) h.2.2.2) :
    Balanced base ({ s with promises := ps }.note n) h := by
  have hdrain : n ≠ .drainFailed := by
    rintro rfl
    cases hn
  have hweight : n.weight = 0 ∧ ∀ ref count, n ≠ .retained ref count := by
    cases n <;> first | exact ⟨rfl, nofun⟩ | cases hn
  exact ⟨⟨hs.since.1.trans (List.prefix_append _ _), hs.since.2⟩, ⟨hs.owns.fault, hs.owns.owned⟩,
    hs.counts.note rfl rfl hweight.1 hweight.2,
      hs.runs.shrink (fun _ hq => hq) rfl hdrain rfl rfl, ht⟩

theorem Balanced.promises (hs : Balanced base s h) (ps : List (ℕ × Promise))
    (ht : Tracks { s with promises := ps } h.2.2.2) : Balanced base { s with promises := ps } h :=
  ⟨hs.since, ⟨hs.owns.fault, hs.owns.owned⟩,
    ⟨hs.counts.inv, hs.counts.live, hs.counts.counted, hs.counts.wraps⟩,
    ⟨hs.runs.one, hs.runs.doom⟩, ht⟩

-- ---------------------------------------------------------------------------
-- What script does
-- ---------------------------------------------------------------------------

/-- The entry of a promise, if it has one. -/
theorem unlisted_or (s : Shim) (p : ℕ) :
    (∃ i reason, findRejected s.rejected p = some i ∧ s.rejected[i]? = some (p, reason) ∧
      (s.rejected.map Prod.fst).Perm
        (p :: (QuickJsKmp.forgetRejected s.rejected i).map Prod.fst)) ∨
    findRejected s.rejected p = none ∧ p ∉ s.rejected.map Prod.fst := by
  cases hfind : findRejected s.rejected p with
  | none => exact .inr ⟨rfl, findRejected_eq_none.mp hfind⟩
  | some i =>
    obtain ⟨reason, hi⟩ := findRejected_eq_some hfind
    exact .inl ⟨i, reason, rfl, hi, (forgetRejected_perm hi).map Prod.fst⟩

theorem Balanced.attach (hs : Balanced base s h) (p : ℕ) : Balanced base (s.attach p) h := by
  unfold Shim.attach
  split
  · rename_i reason hp
    have hstate : (s.promise p).state = .rejected reason := by rw [hp]
    unfold Shim.kmpRejectionTracker
    rcases unlisted_or s p with ⟨i, r, hfind, hi, hperm⟩ | ⟨hfind, hnot⟩
    · have hfind' : findRejected (s.setPromise p ⟨.rejected reason, true⟩).rejected p = some i := hfind
      simp only [hfind']
      exact hs.unlist hi _ rfl (hs.tracks.handle hstate (.inl hperm))
    · have hfind' : findRejected (s.setPromise p ⟨.rejected reason, true⟩).rejected p = none := hfind
      simp only [hfind']
      exact hs.skip _ rfl (hs.tracks.handle hstate (.inr ⟨hnot, rfl⟩))
  · rename_i st b hcase hp
    refine hs.promises _ (hs.tracks.promises _ ?_ ?_)
    · intro q reason hq
      show ((s.setPromise p _).promise q).state = _
      rw [promise_setPromise]
      split
      · rename_i hqp
        rw [hqp, hp] at hq
        exact hq
      · exact hq
    · intro q hq
      show ((s.setPromise p _).promise q).isHandled = _
      rw [promise_setPromise]
      split
      · rename_i hqp
        subst hqp
        obtain ⟨reason, hr⟩ := hs.tracks.settled q _ hq (.inl rfl)
        rw [hp] at hr ⊢
        cases b with
        | true => rfl
        | false =>
          simp only at hr
          subst hr
          exact absurd rfl (hcase reason rfl)
      · rfl

theorem Balanced.fulfill (hs : Balanced base s h) (hf : s.fulfill p v = some s') :
    Balanced base s' h := by
  unfold Shim.fulfill at hf
  split at hf
  · rename_i hp
    cases hf
    exact hs.promises _ (hs.tracks.settle hp _)
  · cases hf

/-- A new entry, with its two references. -/
theorem Balanced.enlist (hs : Balanced base s h) (hp : (s.promise p).state = .pending)
    (reason : JSValue) :
    Balanced base (((s.setPromise p ⟨.rejected reason, false⟩).kmpRejectionTracker p reason false).note
      (.rejected p)) h := by
  have hfresh := hs.tracks.fresh hp
  have hnot : p ∉ s.rejected.map Prod.fst := fun hin =>
    hfresh.1 ((hs.tracks.lists.exact p).mp hin).1
  have hfind : findRejected (s.setPromise p ⟨.rejected reason, false⟩).rejected p = none :=
    findRejected_eq_none.mpr hnot
  have ht := hs.tracks.reject hp reason
  unfold Shim.kmpRejectionTracker
  simp only [hfind, own_eq]
  refine ⟨⟨hs.since.1.trans (List.prefix_append _ _), hs.since.2⟩, ⟨hs.owns.fault, ?_⟩,
    hs.counts.note (l := s.rejected ++ [(p, reason)]) rfl rfl rfl nofun, ⟨hs.runs.one, ?_⟩,
    ⟨ht.history, ht.lists, ht.settled, ht.handlers, ht.taken, ht.told⟩⟩
  · show refs (.value reason) + (refs (Shim.promiseValue p) + s.owned) = _
    rw [hs.owns.owned]
    simp only [Shim.stores, Shim.note, Shim.setPromise, List.map_append,
      List.map_cons, List.map_nil,
      List.sum_append, List.sum_cons, List.sum_nil, entryRefs]
    abel
  · intro q hq hd
    have hd' : Doomed s.log q := (doomed_snoc (m := ⟨.rejected p, _⟩) nofun).mp hd
    refine hs.runs.doom q ?_ hd'
    have hq' : q ∈ (s.rejected ++ [(p, reason)]).map Prod.fst := hq
    rw [List.map_append, List.mem_append] at hq'
    refine hq'.resolve_right fun hqp => ?_
    obtain rfl : q = p := by simpa using hqp
    exact hfresh.1 (hs.tracks.history.rejected_of_doomed hd')

theorem Balanced.reject (hs : Balanced base s h) (hr : s.reject p reason = some s') :
    Balanced base s' h := by
  unfold Shim.reject at hr
  split at hr
  · rename_i hp
    cases hr
    exact hs.promises _ (hs.tracks.settle (by rw [hp]) _)
  · rename_i hp
    cases hr
    exact hs.enlist (by rw [hp]) reason
  · cases hr

theorem Balanced.interrupt (hs : Balanced base s h) :
    Balanced base { s with state := kmpjsInterrupt s.state } h := by
  refine ⟨hs.since, ⟨hs.owns.fault, hs.owns.owned⟩,
    ⟨hs.counts.inv, hs.counts.live, hs.counts.counted, hs.counts.wraps⟩, ⟨?_, hs.runs.doom⟩,
    ⟨hs.tracks.history, hs.tracks.lists, hs.tracks.settled, hs.tracks.handlers, hs.tracks.taken,
      hs.tracks.told⟩⟩
  refine hs.runs.one.imp_right ?_
  rintro ⟨t, ht, hne⟩
  refine ⟨t, ht, ?_⟩
  show kmpjsInterrupt s.state ≠ .idle
  cases hst : s.state with
  | idle => exact absurd hst hne
  | _ => simp [kmpjsInterrupt]

theorem Balanced.act (hs : Balanced base s h) (ha : s.act a = some s') : Balanced base s' h := by
  cases a with
  | enqueue =>
    cases ha
    exact hs.side _ _ _ _
  | interrupt =>
    cases ha
    exact hs.interrupt
  | oom refused =>
    cases ha
    exact hs.side _ _ _ _
  | pend exc =>
    cases ha
    exact hs.side _ _ _ _
  | fulfill p v => exact hs.fulfill ha
  | reject p reason => exact hs.reject ha
  | attach p =>
    cases ha
    exact hs.attach p

-- ---------------------------------------------------------------------------
-- What the outermost run does
-- ---------------------------------------------------------------------------

/-- There is no room for a second token. -/
theorem Runs.alone {tok : Token} (hr : Runs s ({tok} + tokens)) : tokens = 0 ∧ s.state ≠ .idle := by
  rcases hr.one with hzero | ⟨u, hu, hne⟩
  · exact absurd (congrArg Multiset.card hzero) (by simp)
  · have hcard := congrArg Multiset.card hu
    simp only [Multiset.card_add, Multiset.card_singleton] at hcard
    exact ⟨Multiset.card_eq_zero.mp (by omega), hne⟩

theorem Balanced.runBegin (hs : Balanced base s h) (hidle : s.state = .idle) :
    Balanced base { s with state := .running, oom := false } (holdsRun + h) := by
  have htokens : h.2.2.1 = 0 := hs.runs.one.resolve_right fun ⟨_, _, hne⟩ => hne hidle
  refine ⟨hs.since, ⟨hs.owns.fault, ?_⟩, ?_, ⟨.inr ⟨.running, ?_, nofun⟩, ?_⟩, ?_⟩
  all_goals simp only [holdsRun, Prod.fst_add, Prod.snd_add, zero_add]
  · exact hs.owns.owned
  · exact ⟨hs.counts.inv, hs.counts.live, hs.counts.counted, hs.counts.wraps⟩
  · rw [htokens, add_zero]
  · intro p hp hd
    exact Multiset.mem_add.mpr (.inr (hs.runs.doom p hp hd))
  · exact ⟨hs.tracks.history, hs.tracks.lists, hs.tracks.settled, hs.tracks.handlers,
      hs.tracks.taken, hs.tracks.told⟩

theorem Balanced.runEnd (hs : Balanced base s (holdsRun + h)) :
    Balanced base { s with state := .idle } h := by
  have howns := hs.owns
  have hcounts := hs.counts
  have hruns := hs.runs
  have htracks := hs.tracks
  simp only [holdsRun, Prod.fst_add, Prod.snd_add, zero_add] at howns hcounts hruns htracks
  have htokens := hruns.alone.1
  refine ⟨hs.since, ⟨howns.fault, howns.owned⟩,
    ⟨hcounts.inv, hcounts.live, hcounts.counted, hcounts.wraps⟩, ⟨.inl htokens, ?_⟩,
    ⟨htracks.history, htracks.lists, htracks.settled, htracks.handlers, htracks.taken,
      htracks.told⟩⟩
  intro p hp hd
  have hin := hruns.doom p hp hd
  rw [htokens] at hin
  exact absurd hin (by decide)

/-- The entries that are there now are met by the clean-up only. -/
theorem Balanced.drainFailed (hs : Balanced base s (holdsRun + h)) :
    Balanced base (s.note .drainFailed) (cleansUp + h) := by
  have howns := hs.owns
  have hcounts := hs.counts
  have hruns := hs.runs
  have htracks := hs.tracks
  simp only [holdsRun, Prod.fst_add, Prod.snd_add, zero_add] at howns hcounts hruns htracks
  obtain ⟨htokens, hne⟩ := hruns.alone
  refine ⟨⟨hs.since.1.trans (List.prefix_append _ _), hs.since.2⟩, ⟨howns.fault, ?_⟩, ?_,
    ⟨.inr ⟨.discarding, ?_, hne⟩, ?_⟩, ?_⟩
  all_goals simp only [cleansUp, Prod.fst_add, Prod.snd_add, zero_add]
  · exact howns.owned
  · exact hcounts.note rfl rfl rfl nofun
  · rw [htokens, add_zero]
  · intro p _ _
    exact Multiset.mem_add.mpr (.inl (Multiset.mem_singleton_self _))
  · exact htracks.quiet ⟨⟨rfl, nofun⟩, nofun⟩ trivial

theorem forgetRejected_length {l : List (ℕ × JSValue)} (h : l[i]? = some x) :
    (QuickJsKmp.forgetRejected l i).length + 1 = l.length := by
  rw [(forgetRejected_perm h).length_eq, List.length_cons]

/-- The loop that empties the list. -/
theorem Balanced.forgetAll (hs : Balanced base s h) (hn : s.rejected.length = n) :
    Balanced base (s.forgetAll n) h ∧ (s.forgetAll n).rejected = [] := by
  induction n generalizing s with
  | zero => exact ⟨hs, List.length_eq_zero_iff.mp hn⟩
  | succ n ih =>
    rw [Shim.forgetAll]
    split
    · rename_i p reason hlast
      have hi := getElem?_getLast hlast
      have hperm := (forgetRejected_perm hi).map Prod.fst
      have hone := hs.unlist hi s.promises rfl (hs.tracks.discard hperm)
      refine ih hone ?_
      obtain ⟨owned, heq, -⟩ := hs.owns.forget hi
      have hlen := forgetRejected_length hi
      rw [heq]
      show (QuickJsKmp.forgetRejected s.rejected _).length = n
      omega
    · rename_i hlast
      have hnil := List.getLast?_eq_none_iff.mp hlast
      rw [hnil] at hn
      cases hn

/-- The clean-up ends with an empty list. -/
theorem Balanced.cleanedUp (hs : Balanced base s (cleansUp + h)) :
    Balanced base (s.forgetAll s.rejected.length) (holdsRun + h) := by
  obtain ⟨hall, hempty⟩ := hs.forgetAll rfl
  have howns := hall.owns
  have hcounts := hall.counts
  have hruns := hall.runs
  have htracks := hall.tracks
  simp only [cleansUp, Prod.fst_add, Prod.snd_add, zero_add] at howns hcounts hruns htracks
  obtain ⟨htokens, hne⟩ := hruns.alone
  refine ⟨hall.since, ?_, ?_, ⟨.inr ⟨.running, ?_, hne⟩, ?_⟩, ?_⟩
  all_goals simp only [holdsRun, Prod.fst_add, Prod.snd_add, zero_add]
  · exact howns
  · exact hcounts
  · rw [htokens, add_zero]
  · intro p hp
    rw [hempty] at hp
    cases hp
  · exact htracks

/-- A report takes the last entry. -/
theorem Balanced.takeLast (hs : Balanced base s (holdsRun + h))
    (hlast : s.rejected.getLast? = some (p, reason)) :
    Balanced base (((s.own (.value reason)).forgetRejected (s.rejected.length - 1)).note (.taken p))
      (holds (.value reason) + telling p + holdsRun + h) := by
  have hi := getElem?_getLast hlast
  have hperm := (forgetRejected_perm hi).map Prod.fst
  have hmem : p ∈ s.rejected.map Prod.fst := hperm.mem_iff.mpr List.mem_cons_self
  have hnot : ¬ Doomed s.log p := by
    intro hd
    have hruns := hs.runs
    have hin := hruns.doom p hmem hd
    simp only [holdsRun, Prod.fst_add, Prod.snd_add] at hruns hin
    rw [hruns.alone.1] at hin
    exact absurd hin (by decide)
  have hown := hs.own (.value reason)
  have htake : Tracks ({ s.own (.value reason) with
      rejected := QuickJsKmp.forgetRejected s.rejected (s.rejected.length - 1) }.note (.taken p))
      ({p} + (holds (.value reason) + (holdsRun + h)).2.2.2) := by
    have ht := hown.tracks
    rw [own_eq] at ht ⊢
    exact ht.take hperm hnot
  have hi' : (s.own (.value reason)).rejected[s.rejected.length - 1]? = some (p, reason) := by
    rw [own_eq]
    exact hi
  have hrej : (s.own (.value reason)).rejected = s.rejected := by rw [own_eq]
  have hend := hown.unlist hi' (s.own (.value reason)).promises rfl (by rw [hrej]; exact htake)
  have hhand : ((holds (.value reason) + (holdsRun + h)).1,
    (holds (.value reason) + (holdsRun + h)).2.1,
      (holds (.value reason) + (holdsRun + h)).2.2.1,
      {p} + (holds (.value reason) + (holdsRun + h)).2.2.2) =
      holds (.value reason) + telling p + holdsRun + h := by
    simp [holds, telling, holdsRun, Prod.ext_iff]
  rwa [hhand] at hend

/-- The host hears of a rejection. -/
theorem Balanced.report (hs : Balanced base s (telling p + h)) :
    Balanced base (s.note (.reported p (s.promise p).isHandled)) h := by
  have howns := hs.owns
  have hcounts := hs.counts
  have hruns := hs.runs
  have htracks := hs.tracks
  simp only [telling, Prod.fst_add, Prod.snd_add, zero_add] at howns hcounts hruns htracks
  exact ⟨⟨hs.since.1.trans (List.prefix_append _ _), hs.since.2⟩, ⟨howns.fault, howns.owned⟩,
    hcounts.note rfl rfl rfl nofun, hruns.note nofun, htracks.report⟩

/-- There is nobody to tell. -/
theorem Balanced.untold (hs : Balanced base s (telling p + h)) : Balanced base s h := by
  have howns := hs.owns
  have hcounts := hs.counts
  have hruns := hs.runs
  have htracks := hs.tracks
  simp only [telling, Prod.fst_add, Prod.snd_add, zero_add] at howns hcounts hruns htracks
  refine ⟨hs.since, howns, hcounts, hruns, htracks.history, htracks.lists, htracks.settled,
    htracks.handlers, htracks.taken, ?_⟩
  intro q
  have hq := htracks.told q
  rw [Multiset.count_add] at hq
  omega

/-- A call turns a rejected promise into its own exception. -/
theorem Balanced.unwrap (hs : Balanced base s h) (hp : (s.promise p).state = .rejected reason) :
    Balanced base (((s.own (.value reason)).forgetPromise p).note (.unwrapped p))
      (holds (.value reason) + h) := by
  have hown := hs.own (.value reason)
  have ht := hown.tracks
  rw [own_eq] at hown ht ⊢
  unfold Shim.forgetPromise
  rcases unlisted_or s p with ⟨i, r, hfind, hi, hperm⟩ | ⟨hfind, hnot⟩
  · simp only [hfind]
    exact hown.unlist hi _ rfl (ht.unwrap ⟨reason, hp⟩ (.inl hperm))
  · simp only [hfind]
    exact hown.skip _ rfl (ht.unwrap ⟨reason, hp⟩ (.inr ⟨hnot, rfl⟩))

end Entries

end QuickJsKmp.Ledger
