import Mathlib.Algebra.Order.BigOperators.Group.List
import Mathlib.Algebra.Order.Group.Nat
import QuickJsKmp.Collection

/-!
# Runs of the collector

Whatever the engine does with references it has, in any order and with collections at any time,
nothing is freed too early, nothing is freed twice, and a collection leaves exactly what can be
reached, as long as no object has more references at one time than its count can say.
-/

namespace QuickJsKmp.Collector

open Incidence

-- ---------------------------------------------------------------------------
-- One operation
-- ---------------------------------------------------------------------------

/-- The references an object of the type may be given, of objects that were not freed. -/
def Ref.fits (rt : Runtime) (t : GcObjType) : Ref → Bool
  | .strong c => c ∈ rt.gcObjList ∧ (rt.objects c).any fun o => t.refersTo o.gcObjType
  | .weak c => c ∈ rt.gcObjList ∧ (rt.objects c).any fun o => o.gcObjType = .jsObject

/-- The engine uses objects that were not freed, gives back what it holds, and reads a weak
reference where it finds it. -/
def Op.proper (s : State) : Op → Bool
  | .new t refs => refs.all (Ref.fits s.rt t)
  | .dup p => p ∈ s.rt.gcObjList
  | .free p => p ∈ s.held
  | .put p r => p ∈ s.rt.gcObjList ∧ (s.rt.objects p).any fun o => r.fits s.rt o.gcObjType
  | .remove p r => p ∈ s.rt.gcObjList ∧ r ∈ s.rt.refsOf p
  | .deref p => s.rt.gcObjList.any fun q => .weak p ∈ s.rt.refsOf q
  | .runGc => true

/-- How many references `r` there are, of objects and held. -/
def State.count (s : State) (r : Ref) : ℕ :=
  incoming s.rt.gcObjList s.rt.refsOf r + (s.held.map .strong).count r

def Op.takes : Op → List Ref
  | .new _ refs => refs
  | .dup p | .deref p => [.strong p]
  | .put _ r => [r]
  | .free _ | .remove .. | .runGc => []

/-- There are as yet fewer references than an `int`, or a `uint32_t`, can count. -/
def Op.room (op : Op) (s : State) : Bool :=
  op.takes.all fun r => s.count r + op.takes.count r ≤ r.most

def Op.allowed (s : State) (op : Op) : Bool :=
  op.proper s && op.room s

/-- The same of a type that is known. -/
def Ref.Fits (types : ℕ → GcObjType) (gcObjList : List ℕ) (t : GcObjType) : Ref → Prop
  | .strong c => c ∈ gcObjList ∧ t.refersTo (types c) = true
  | .weak c => c ∈ gcObjList ∧ types c = .jsObject

/-- Only counts changed. -/
structure Recounts (rt rt' : Runtime) : Prop where
  list : rt'.gcObjList = rt.gcObjList
  refs : rt'.refsOf = rt.refsOf
  next : rt'.next = rt.next

theorem Recounts.refl (rt : Runtime) : Recounts rt rt := ⟨rfl, rfl, rfl⟩

theorem Recounts.trans (h : Recounts rt rt') (h' : Recounts rt' rt'') : Recounts rt rt'' :=
  ⟨h'.list.trans h.list, h'.refs.trans h.refs, h'.next.trans h.next⟩

theorem Recounts.of_set (ho : rt.objects p = some o) (hrefs : o'.refs = o.refs) :
    Recounts rt (rt.set p o') := by
  refine ⟨rfl, ?_, rfl⟩
  rw [Runtime.set_refsOf, hrefs, ← Runtime.refsOf_of ho, Function.update_eq_self]

theorem Recounts.counts (h : Recounts rt rt') (r : Ref) :
    incoming rt'.gcObjList rt'.refsOf r = incoming rt.gcObjList rt.refsOf r := by
  rw [h.list, h.refs]

/-- What is left of the references that were there. -/
theorem Within.of_le (h : Within rt loose) (hnodup : rt'.gcObjList.Nodup)
    (hstays : ∀ q ∈ rt'.gcObjList, q ∈ rt.gcObjList ∧
      ∀ r, (rt'.refsOf q).count r ≤ (rt.refsOf q).count r)
    (hloose : ∀ r, loose'.count r ≤ loose.count r) : Within rt' loose' := by
  intro r
  have hle : incoming rt'.gcObjList rt'.refsOf r ≤ incoming rt.gcObjList rt.refsOf r :=
    incoming_le hnodup fun q hq => (hstays q hq).imp_right fun hcount => hcount r
  exact Nat.le_trans (Nat.add_le_add hle (hloose r)) (h r)

theorem Within.survives (h : Within rt loose) (hresting : Resting types rt' loose' [])
    (hsurvives : Survives rt rt') (hloose : ∀ r, loose'.count r ≤ loose.count r) :
    Within rt' loose' := by
  refine h.of_le (hresting.owners ▸ hresting.counted.nodup) (fun q hq => ?_) hloose
  obtain ⟨hq, hrefs⟩ := hsurvives.stays hq
  exact ⟨hq, fun r => Nat.le_of_eq (congrArg (List.count r) hrefs)⟩

theorem Within.remove (h : Within rt loose) (hresting : Resting types rt' loose [])
    (hstays : ∀ {q}, q ∈ rt'.gcObjList → q ∈ rt.gcObjList ∧
      rt'.refsOf q = Function.update rt.refsOf p ((rt.refsOf p).erase r) q) : Within rt' loose := by
  refine h.of_le (hresting.owners ▸ hresting.counted.nodup) (fun q hq => ?_) fun _ => Nat.le_refl _
  obtain ⟨hq, hrefs⟩ := hstays hq
  refine ⟨hq, fun c => ?_⟩
  rw [hrefs]
  by_cases hqp : q = p
  · subst hqp
    rw [Function.update_self]
    exact List.erase_sublist.count_le c
  · rw [Function.update_of_ne hqp]

theorem Recounts.within (h : Recounts rt rt')
    (hcount : ∀ r, incoming rt.gcObjList rt.refsOf r + loose.count r + [taken].count r ≤ r.most) :
    Within rt' (taken :: loose) := by
  intro r
  have := hcount r
  rw [h.counts, ← List.singleton_append, List.count_append]
  omega

theorem Within.room {s : State} {op : Op} (h : Within s.rt (s.held.map .strong))
    (hop : op.room s = true) (r : Ref) : s.count r + op.takes.count r ≤ r.most := by
  by_cases hr : r ∈ op.takes
  · simp only [Op.room, List.all_eq_true, decide_eq_true_eq] at hop
    exact hop r hr
  · rw [List.count_eq_zero_of_not_mem hr]
    exact h r

namespace Resting

variable {types : ℕ → GcObjType} {rt : Runtime} {loose loose' : List Ref} {r : Ref}

theorem perm (h : Resting types rt loose busy) (hperm : loose.Perm loose') :
    Resting types rt loose' busy := by
  have hr := h.releasing
  refine ⟨⟨hr.counted.perm hperm, hr.phase, hr.emptied, hr.alive, hr.unmarked, hr.marked,
    hr.queued, ?_⟩, h.phase, h.queue⟩
  intro hcycles
  cases hcycles

theorem pos (h : Resting types rt loose []) (hp : p ∈ rt.gcObjList) (ho : rt.objects p = some o) :
    0 < o.refCount :=
  h.releasing.alive (.inl hp) List.not_mem_nil ho

theorem present (h : Resting types rt loose busy) (hp : p ∈ rt.gcObjList) :
    ∃ o, rt.objects p = some o ∧ o.gcObjType = types p := by
  obtain ⟨o, ho⟩ := h.counted.present (h.owners ▸ hp)
  exact ⟨o, ho, h.counted.type ho⟩

theorem fits_of (h : Resting types rt loose busy) (hr : r.fits rt t = true) :
    r.Fits types rt.gcObjList t := by
  cases r <;> simp only [Ref.fits, decide_eq_true_eq, Option.any_eq_true] at hr <;>
    obtain ⟨hc, o, ho, ht⟩ := hr <;> have htype := h.counted.type ho
  · exact ⟨hc, htype ▸ ht⟩
  · exact ⟨hc, htype ▸ ht⟩

/-- One object changes that was not freed and still has a count. -/
theorem set {o' : GcObject} (h : Resting types rt loose [])
    (hcounted : Counted types (rt.set p o') loose') (ho : rt.objects p = some o)
    (hmark : o'.mark = o.mark) (hpos : 0 < o'.refCount) : Resting types (rt.set p o') loose' [] := by
  have hr := h.releasing
  have htmp : rt.tmpObjList = [] := (hr.queued rfl).1
  refine ⟨⟨hcounted.lists rfl rfl (.refl _), GcPhase.noConfusion,
    fun hp => absurd hp List.not_mem_nil, ?_, ?_, ?_, fun _ => ⟨htmp, ?_⟩, ?_⟩, h.phase, h.queue⟩
  · intro q oq hq hidle hoq
    obtain ⟨rfl, rfl⟩ | ⟨-, hoq⟩ := Runtime.of_set hoq
    · exact hpos
    · exact hr.alive hq hidle hoq
  · intro q oq hq hoq
    obtain ⟨rfl, rfl⟩ | ⟨-, hoq⟩ := Runtime.of_set hoq
    · exact hmark.trans (hr.unmarked hq ho)
    · exact hr.unmarked hq hoq
  · intro q oq hq
    simp [Runtime.atPhase, h.queue, htmp] at hq
  · simp [Runtime.atPhase, h.queue]
  · intro hcycles
    cases hcycles

theorem dupValue (h : Resting types rt loose []) (hp : p ∈ rt.gcObjList)
    (hroom : incoming rt.gcObjList rt.refsOf (.strong p) + loose.count (.strong p) + 1 ≤
      maxRefCount) :
    ∃ rt', Collector.dupValue rt p = some rt' ∧ Resting types rt' (.strong p :: loose) [] ∧
      Recounts rt rt' := by
  obtain ⟨o, ho, -⟩ := h.present hp
  have hincref : o.incref = some { o with refCount := o.refCount + 1 } := by
    refine GcObject.incref_of ?_
    rwa [h.counted.strong ho, h.owners]
  refine ⟨rt.set p { o with refCount := o.refCount + 1 }, by simp [Collector.dupValue, ho, hincref],
    ?_, .of_set ho rfl⟩
  exact h.set (h.counted.dup ho (h.owners ▸ hp)) ho rfl (Nat.succ_pos _)

theorem dupRef (h : Resting types rt loose []) (hr : r.Fits types rt.gcObjList t)
    (hroom : incoming rt.gcObjList rt.refsOf r + loose.count r + 1 ≤ r.most) :
    ∃ rt', Collector.dupRef rt r = some rt' ∧ Resting types rt' (r :: loose) [] ∧
      Recounts rt rt' := by
  cases r with
  | strong p => exact h.dupValue hr.1 hroom
  | weak p =>
    obtain ⟨hp, htype⟩ := hr
    obtain ⟨o, ho, -⟩ := h.present hp
    have hpos := h.pos hp ho
    have hcount : (o.weakrefCount + 1) % 0x100000000 = o.weakrefCount + 1 := by
      rw [← h.owners, ← h.counted.weak ho] at hroom
      exact Nat.mod_eq_of_lt (Nat.lt_succ_of_le hroom)
    refine ⟨rt.set p { o with weakrefCount := o.weakrefCount + 1 },
      by simp only [Collector.dupRef, jsWeakrefNew, ho, Option.bind_eq_bind, Option.bind_some,
        hcount]; rfl, ?_, .of_set ho rfl⟩
    exact h.set (h.counted.dupWeak ho (h.owners ▸ hp) htype) ho rfl hpos

theorem dupRefs {refs : List Ref} (h : Resting types rt loose [])
    (hrefs : ∀ r ∈ refs, r.Fits types rt.gcObjList t)
    (hroom : ∀ r, incoming rt.gcObjList rt.refsOf r + (refs ++ loose).count r ≤ r.most) :
    ∃ rt', refs.foldlM Collector.dupRef rt = some rt' ∧ Resting types rt' (refs ++ loose) [] ∧
      Recounts rt rt' := by
  induction refs generalizing rt loose with
  | nil => exact ⟨rt, rfl, h, .refl rt⟩
  | cons r refs ih =>
    have hone : incoming rt.gcObjList rt.refsOf r + loose.count r + 1 ≤ r.most := by
      have := hroom r
      rw [List.cons_append, List.count_cons_self, List.count_append] at this
      omega
    obtain ⟨rt₁, hdup, h₁, hsame⟩ := h.dupRef (hrefs r (by simp)) hone
    have hroom₁ : ∀ c, incoming rt₁.gcObjList rt₁.refsOf c + (refs ++ r :: loose).count c ≤
        c.most := by
      intro c
      rw [hsame.counts, List.perm_middle.count_eq]
      exact hroom c
    obtain ⟨rt', hrest, h', hsame'⟩ :=
      ih h₁ (fun r hr => hsame.list ▸ hrefs r (List.mem_cons_of_mem _ hr)) hroom₁
    refine ⟨rt', ?_, h'.perm List.perm_middle, hsame.trans hsame'⟩
    rw [List.foldlM_cons, hdup]
    exact hrest

/-- What a reference that is given back frees, and what stays. -/
theorem freeRef (h : Resting types rt (r :: loose) []) :
    ∃ rt', Collector.freeRef rt r = some rt' ∧ Resting types rt' loose [] ∧ Survives rt rt' := by
  cases r with
  | strong p => exact h.release (GcObjType.depth_le _)
  | weak p => exact h.jsWeakrefFree

/-- What `put` does before the object keeps the reference. -/
theorem putRef (h : Resting types rt loose []) (hp : p ∈ rt.gcObjList)
    (hr : r.Fits types rt.gcObjList (types p))
    (hroom : incoming rt.gcObjList rt.refsOf r + loose.count r + 1 ≤ r.most) :
    ∃ rt', Collector.putRef rt p r = some rt' ∧ Resting types rt' loose [] ∧
      rt'.gcObjList = rt.gcObjList ∧ rt'.next = rt.next ∧
      rt'.refsOf = Function.update rt.refsOf p (rt.refsOf p ++ [r]) := by
  obtain ⟨rt₁, hdup, h₁, hsame⟩ := h.dupRef hr hroom
  have hp₁ : p ∈ rt₁.gcObjList := hsame.list ▸ hp
  obtain ⟨o, ho, htype⟩ := h₁.present hp₁
  have hrefs : rt₁.refsOf p = o.refs := Runtime.refsOf_of ho
  have hkept : ∀ c, .strong c ∈ o.refs ++ [r] → (types p).refersTo (types c) = true := by
    intro c hc
    rcases List.mem_append.mp hc with hc | hc
    · exact (h₁.counted.refs_owned ho hc).2
    · cases List.mem_singleton.mp hc
      exact hr.2
  have hperm : (o.refs ++ [r] ++ loose).Perm (o.refs ++ r :: loose) := by simp
  have hmoved := h₁.counted.move ho (h₁.owners ▸ hp₁) hperm hkept o.mark
  have hpos := h₁.pos hp₁ ho
  refine ⟨rt₁.set p { o with refs := o.refs ++ [r] }, by simp [Collector.putRef, hdup, ho],
    h₁.set hmoved ho rfl hpos, hsame.list, hsame.next, ?_⟩
  rw [Runtime.set_refsOf, ← hrefs, hsame.refs]

theorem removeRef (h : Resting types rt loose []) (hp : p ∈ rt.gcObjList) (hr : r ∈ rt.refsOf p) :
    ∃ rt', Collector.removeRef rt p r = some rt' ∧ Resting types rt' loose [] ∧
      rt'.next = rt.next ∧ ∀ {q}, q ∈ rt'.gcObjList → q ∈ rt.gcObjList ∧
        rt'.refsOf q = Function.update rt.refsOf p ((rt.refsOf p).erase r) q := by
  obtain ⟨o, ho, -⟩ := h.present hp
  have hrefs : rt.refsOf p = o.refs := Runtime.refsOf_of ho
  have hperm : (o.refs.erase r ++ r :: loose).Perm (o.refs ++ loose) :=
    List.perm_middle.trans ((List.perm_cons_erase (hrefs ▸ hr)).symm.append_right _)
  have hmoved := h.counted.move ho (h.owners ▸ hp) hperm
    (fun c hc => (h.counted.refs_owned ho (List.mem_of_mem_erase hc)).2) o.mark
  have hpos := h.pos hp ho
  obtain ⟨rt', hfree, h', hsurvives⟩ := (h.set hmoved ho rfl hpos).freeRef
  refine ⟨rt', by simpa [Collector.removeRef, ho] using hfree, h', hsurvives.next, fun hq => ?_⟩
  obtain ⟨hq, hrefs'⟩ := hsurvives.stays hq
  exact ⟨hq, by rw [hrefs', Runtime.set_refsOf, hrefs]⟩

/-- A new object takes over the references that were taken for it. -/
theorem newObject {refs : List Ref} (h : Resting types rt loose [])
    (hrefs : ∀ r ∈ refs, r.Fits types rt.gcObjList t)
    (hroom : ∀ r, incoming rt.gcObjList rt.refsOf r + (refs ++ loose).count r ≤ r.most) :
    ∃ rt', Collector.newObject rt t refs = some rt' ∧
      Resting (Function.update types rt.next t) rt' (.strong rt.next :: loose) [] ∧
      rt'.objects rt.next = some ⟨t, 1, false, 0, refs⟩ ∧
      rt'.gcObjList = rt.gcObjList ++ [rt.next] ∧ rt'.next = rt.next + 1 ∧
      rt'.refsOf = Function.update rt.refsOf rt.next refs := by
  obtain ⟨rt₁, hdup, h₁, hsame⟩ := h.dupRefs hrefs hroom
  have hr := h₁.releasing
  have htmp : rt₁.tmpObjList = [] := (hr.queued rfl).1
  let rt' : Runtime := { rt₁.set rt₁.next ⟨t, 1, false, 0, refs⟩ with
    next := rt₁.next + 1, gcObjList := rt₁.gcObjList ++ [rt₁.next] }
  have howners : rt'.owners.Perm (rt₁.next :: rt₁.owners) := by
    simp [rt', Runtime.owners, h₁.queue, htmp]
  have hcounted : Counted (Function.update types rt₁.next t) rt' (.strong rt₁.next :: loose) := by
    refine h₁.counted.new (fun c hc => ?_) rfl rfl howners
    have := hrefs _ hc
    exact this.2
  have hold : ∀ {q o}, rt'.objects q = some o →
      o = ⟨t, 1, false, 0, refs⟩ ∨ (q ≠ rt₁.next ∧ rt₁.objects q = some o) := fun ho =>
    (Runtime.of_set ho).imp_left And.right
  have hnext := hsame.next
  refine ⟨rt', by simp [Collector.newObject, hdup, rt'], ?_, by simp [rt', hnext], ?_, ?_, ?_⟩
  · rw [← hnext]
    refine ⟨⟨hcounted.lists rfl rfl (.refl _), GcPhase.noConfusion,
      fun hp => absurd hp List.not_mem_nil, ?_, ?_, ?_, fun _ => ⟨htmp, ?_⟩, ?_⟩, h₁.phase,
      h₁.queue⟩
    · intro q o hq _ ho
      obtain rfl | ⟨hqn, ho⟩ := hold ho
      · exact Nat.one_pos
      · rw [Function.update_of_ne hqn] at hq
        refine hr.alive (hq.imp_left fun hq => ?_) List.not_mem_nil ho
        simpa [Runtime.atPhase, rt', hqn] using hq
    · intro q o hq ho
      obtain rfl | ⟨hqn, ho⟩ := hold ho
      · rfl
      · refine hr.unmarked ?_ ho
        simpa [Runtime.atPhase, rt', hqn] using hq
    · intro q o hq
      simp [Runtime.atPhase, rt', h₁.queue, htmp] at hq
    · simp [Runtime.atPhase, rt', h₁.queue]
    · intro hcycles
      cases hcycles
  · simp [rt', hnext, hsame.list]
  · simp [rt', hnext]
  · have hset : rt'.refsOf = (rt₁.set rt₁.next ⟨t, 1, false, 0, refs⟩).refsOf := rfl
    rw [hset, Runtime.set_refsOf, hsame.refs, hnext]

theorem within_new {refs : List Ref} (h : Resting types rt loose [])
    (h' : Resting types' rt' (.strong rt.next :: loose) [])
    (hmade : rt'.objects rt.next = some ⟨t, 1, false, 0, refs⟩)
    (hlist : rt'.gcObjList = rt.gcObjList ++ [rt.next])
    (hrefs : rt'.refsOf = Function.update rt.refsOf rt.next refs)
    (hcount : ∀ r, incoming rt.gcObjList rt.refsOf r + (refs ++ loose).count r ≤ r.most) :
    Within rt' (.strong rt.next :: loose) := by
  intro r
  by_cases hr : r = .strong rt.next
  · have hone := h'.counted.strong hmade
    rw [h'.owners] at hone
    subst hr
    exact Nat.le_trans (Nat.le_of_eq hone.symm) (by decide : 1 ≤ maxRefCount)
  · have hnew : rt.next ∉ rt.gcObjList := fun hp => by
      obtain ⟨o, ho, -⟩ := h.present hp
      exact Nat.lt_irrefl _ (h.counted.fresh ho)
    have := hcount r
    rw [List.count_append] at this
    rw [hlist, hrefs, incoming_append, incoming_update_of_notMem hnew, incoming_cons,
      incoming_nil, Function.update_self, List.count_cons_of_ne (Ne.symm hr)]
    omega

theorem within_put (h : Resting types rt loose []) (hp : p ∈ rt.gcObjList)
    (hlist : rt'.gcObjList = rt.gcObjList)
    (hrefs : rt'.refsOf = Function.update rt.refsOf p (rt.refsOf p ++ [r]))
    (hcount : ∀ c, incoming rt.gcObjList rt.refsOf c + loose.count c + [r].count c ≤ c.most) :
    Within rt' loose := by
  intro c
  have hall := hcount c
  have hput : incoming rt.gcObjList (Function.update rt.refsOf p (rt.refsOf p ++ [r])) c +
      (rt.refsOf p).count c = incoming rt.gcObjList rt.refsOf c + (rt.refsOf p ++ [r]).count c :=
    incoming_update (h.owners ▸ h.counted.nodup) hp _
  rw [List.count_append] at hput
  rw [hlist, hrefs]
  omega

/-- A weak reference tells whether its target was freed. -/
theorem live_iff (h : Resting types rt loose []) (ho : rt.objects p = some o) :
    o.refCount ≠ 0 ↔ p ∈ rt.gcObjList := by
  constructor
  · intro hcount
    by_contra hp
    exact hcount (h.counted.left ho (h.owners ▸ hp)).2.1
  · intro hp
    exact Nat.ne_of_gt (h.pos hp ho)

end Resting

-- ---------------------------------------------------------------------------
-- A heap from which nothing is freed
-- ---------------------------------------------------------------------------

/-- What the engine would work with if memory had no end. -/
structure Heap where
  types : ℕ → GcObjType
  refs : ℕ → List Ref
  next : ℕ
  held : List ℕ

namespace Heap

def loose (h : Heap) : List Ref := h.held.map .strong

def Reachable (h : Heap) (p : ℕ) : Prop := Reached h.refs h.loose p

def Keeps (h : Heap) (t : GcObjType) : Ref → Prop
  | .strong c => h.Reachable c ∧ t.refersTo (h.types c) = true
  | .weak c => h.Reachable c ∧ h.types c = .jsObject

/-- A program uses what it can reach. What a weak reference finds depends on when collections
run, so that this heap does not say it. -/
def Uses (h : Heap) : Op → Prop
  | .new t refs => ∀ r ∈ refs, h.Keeps t r
  | .dup p => h.Reachable p
  | .free p => p ∈ h.held
  | .put p r => h.Reachable p ∧ h.Keeps (h.types p) r
  | .remove p r => h.Reachable p ∧ r ∈ h.refs p
  | .deref _ => False
  | .runGc => True

def after (h : Heap) : Op → Heap
  | .new t refs =>
    { types := Function.update h.types h.next t
      refs := Function.update h.refs h.next refs
      next := h.next + 1
      held := h.next :: h.held }
  | .dup p => { h with held := p :: h.held }
  | .free p => { h with held := h.held.erase p }
  | .put p r => { h with refs := Function.update h.refs p (h.refs p ++ [r]) }
  | .remove p r => { h with refs := Function.update h.refs p ((h.refs p).erase r) }
  | .deref _ => h
  | .runGc => h

open Classical in
noncomputable def step (h : Heap) (op : Op) : Option Heap :=
  if h.Uses op then some (h.after op) else none

def init : Heap := ⟨fun _ => .jsObject, fun _ => [], 0, []⟩

theorem step_of_uses {h : Heap} (hop : h.Uses op) : h.step op = some (h.after op) :=
  if_pos hop

end Heap

/-- What the collector has not freed is as in the heap that frees nothing. -/
structure Follows (h : Heap) (s : State) : Prop where
  held : s.held = h.held
  next : s.rt.next = h.next
  resting : Resting h.types s.rt h.loose []
  within : Within s.rt h.loose
  same : p ∈ s.rt.gcObjList → s.rt.refsOf p = h.refs p

namespace Follows

variable {h : Heap} {s : State}

theorem init : Follows Heap.init State.init := by
  refine ⟨rfl, rfl, ⟨⟨⟨?_, ?_, ?_, ?_, ?_, ?_, ?_, ?_, ?_, ?_, ?_⟩, ?_, ?_, ?_, ?_, ?_, ?_, ?_⟩,
    rfl, rfl⟩, ?_, ?_⟩ <;>
    simp [State.init, Heap.init, Heap.loose, Runtime.atPhase, Runtime.owners, Within]

/-- Nothing that can be reached was freed. -/
theorem kept (hs : Follows h s) (hp : h.Reachable p) : p ∈ s.rt.gcObjList := by
  induction hp with
  | held hp => exact hs.resting.owners ▸ hs.resting.counted.held hp
  | step _ hp ih =>
    rw [← hs.same ih] at hp
    exact hs.resting.closed ih (mem_strong.mpr hp)

theorem fits (hs : Follows h s) (hr : h.Keeps t r) : r.fits s.rt t = true := by
  cases r with
  | strong c =>
    have hc := hs.kept hr.1
    obtain ⟨o, ho, htype⟩ := hs.resting.present hc
    simp [Ref.fits, hc, ho, htype, hr.2]
  | weak c =>
    have hc := hs.kept hr.1
    obtain ⟨o, ho, htype⟩ := hs.resting.present hc
    simp [Ref.fits, hc, ho, htype, hr.2]

theorem proper (hs : Follows h s) (hop : h.Uses op) : op.proper s = true := by
  cases op with
  | new t refs =>
    simp only [Op.proper, List.all_eq_true]
    exact fun r hr => hs.fits (hop r hr)
  | dup p => simpa [Op.proper] using hs.kept hop
  | free p =>
    have hp : p ∈ h.held := hop
    simp [Op.proper, hs.held, hp]
  | put p r =>
    have hp := hs.kept hop.1
    obtain ⟨o, ho, htype⟩ := hs.resting.present hp
    simp [Op.proper, hp, ho, htype, hs.fits hop.2]
  | remove p r =>
    have hp := hs.kept hop.1
    simp [Op.proper, hp, hs.same hp, hop.2]
  | deref p => exact hop.elim
  | runGc => rfl

/-- What stays of a heap that an operation changed alike. -/
theorem of_stays {h' : Heap} {rt' : Runtime} (hs : Follows h s) (hnext : rt'.next = h'.next)
    (hresting : Resting h'.types rt' h'.loose []) (hwithin : Within rt' h'.loose)
    (hstays : ∀ p ∈ rt'.gcObjList, p ∈ s.rt.gcObjList ∧
      ((s.rt.refsOf p = h.refs p) → rt'.refsOf p = h'.refs p)) :
    Follows h' ⟨rt', h'.held⟩ :=
  ⟨rfl, hnext, hresting, hwithin, fun hp =>
    let ⟨hp, hrefs⟩ := hstays _ hp
    hrefs (hs.same hp)⟩

/-- Every allowed operation succeeds, and changes the two heaps alike. -/
theorem step (hs : Follows h s) (hop : op.allowed s = true) :
    ∃ s' h', s.step op = some s' ∧ Follows h' s' ∧ ((∀ p, op ≠ .deref p) → h' = h.after op) := by
  obtain ⟨rt, held⟩ := s
  have hheld : held = h.held := hs.held
  have hnext : rt.next = h.next := hs.next
  have hresting : Resting h.types rt h.loose [] := hs.resting
  have hsame : ∀ {q}, q ∈ rt.gcObjList → rt.refsOf q = h.refs q := hs.same
  have hwithin : Within rt h.loose := hs.within
  obtain ⟨hop, hroom⟩ := Bool.and_eq_true_iff.mp hop
  have hcount : ∀ r, incoming rt.gcObjList rt.refsOf r + h.loose.count r + op.takes.count r ≤
      r.most := by
    subst hheld
    exact hwithin.room hroom
  cases op with
  | new t refs =>
    simp only [Op.proper, List.all_eq_true] at hop
    have hcount : ∀ r, incoming rt.gcObjList rt.refsOf r + (refs ++ h.loose).count r ≤ r.most := by
      intro r
      have := hcount r
      rw [Op.takes] at this
      rw [List.count_append]
      omega
    obtain ⟨rt', heval, h', hmade, hlist, hnext', hrefs⟩ :=
      hresting.newObject (fun r hr => hresting.fits_of (hop r hr)) hcount
    refine ⟨⟨rt', rt.next :: held⟩, h.after (.new t refs), by simp [State.step, heval], ?_,
      fun _ => rfl⟩
    subst hheld
    have hwithin' := hresting.within_new h' hmade hlist hrefs hcount
    refine ⟨by rw [hnext]; rfl, by rw [hnext', hnext]; rfl, by rw [hnext] at h'; exact h',
      by rw [hnext] at hwithin'; exact hwithin', ?_⟩
    intro p hp
    rw [hrefs, hnext]
    by_cases hpn : p = h.next
    · simp [hpn, Heap.after]
    · rw [Function.update_of_ne hpn, hsame (by simpa [hlist, hnext, hpn] using hp)]
      simp [Heap.after, Function.update_of_ne hpn]
  | dup p =>
    have hone := hcount (.strong p)
    simp only [Op.takes, List.count_singleton_self] at hone
    obtain ⟨rt', heval, h', hrecounts⟩ := hresting.dupValue (of_decide_eq_true hop) hone
    refine ⟨⟨rt', p :: held⟩, h.after (.dup p), by simp [State.step, heval], ?_, fun _ => rfl⟩
    subst hheld
    refine hs.of_stays (hrecounts.next.trans hnext) h' (hrecounts.within hcount)
      fun q hq => ⟨hrecounts.list ▸ hq, ?_⟩
    exact fun hrefs => (congrFun hrecounts.refs q).trans hrefs
  | free p =>
    have hp : p ∈ held := of_decide_eq_true hop
    subst hheld
    have hperm : h.loose.Perm (.strong p :: (h.after (.free p)).loose) := by
      simpa [Heap.loose, Heap.after] using (List.perm_cons_erase hp).map Ref.strong
    obtain ⟨rt', heval, h', hsurvives⟩ := (hresting.perm hperm).freeRef
    refine ⟨⟨rt', h.held.erase p⟩, h.after (.free p), ?_, ?_, fun _ => rfl⟩
    · have heval : freeValue rt p = some rt' := heval
      simp [State.step, heval]
    · have hloose : ∀ r, (h.after (.free p)).loose.count r ≤ h.loose.count r := fun r =>
        (hperm.count_eq r).symm ▸ List.count_le_count_cons
      refine hs.of_stays (hsurvives.next.trans hnext) h' (hwithin.survives h' hsurvives hloose)
        fun q hq => ?_
      obtain ⟨hq, hrefs⟩ := hsurvives.stays hq
      exact ⟨hq, hrefs.trans⟩
  | put p r =>
    simp only [Op.proper, decide_eq_true_eq] at hop
    obtain ⟨hp, hfits⟩ := hop
    obtain ⟨o, ho, htype⟩ := hresting.present hp
    have hr : r.Fits h.types rt.gcObjList (h.types p) :=
      hresting.fits_of (by simpa [ho, htype] using hfits)
    have hone := hcount r
    simp only [Op.takes, List.count_singleton_self] at hone
    obtain ⟨rt', heval, h', hlist, hnext', hrefs⟩ := hresting.putRef hp hr hone
    refine ⟨⟨rt', held⟩, h.after (.put p r), by simp [State.step, heval], ?_, fun _ => rfl⟩
    subst hheld
    have hwithin' := hresting.within_put hp hlist hrefs hcount
    refine hs.of_stays (hnext'.trans hnext) h' hwithin' fun q hq => ⟨hlist ▸ hq, fun hsame' => ?_⟩
    rw [hrefs, hsame hp]
    by_cases hqp : q = p
    · simp [hqp, Heap.after]
    · simpa [Heap.after, Function.update_of_ne hqp] using hsame'
  | remove p r =>
    simp only [Op.proper, decide_eq_true_eq] at hop
    obtain ⟨hp, hr⟩ := hop
    obtain ⟨rt', heval, h', hnext', hstays⟩ := hresting.removeRef hp hr
    refine ⟨⟨rt', held⟩, h.after (.remove p r), by simp [State.step, heval], ?_, fun _ => rfl⟩
    subst hheld
    have hwithin' := hwithin.remove h' hstays
    refine hs.of_stays (hnext'.trans hnext) h' hwithin' fun q hq => ?_
    obtain ⟨hq, hrefs⟩ := hstays hq
    refine ⟨hq, fun hsame' => ?_⟩
    rw [hrefs, hsame hp]
    by_cases hqp : q = p
    · simp [hqp, Heap.after]
    · simpa [Heap.after, Function.update_of_ne hqp] using hsame'
  | deref p =>
    simp only [Op.proper, List.any_eq_true, decide_eq_true_eq] at hop
    obtain ⟨q, hq, hweak⟩ := hop
    obtain ⟨-, o, ho⟩ := hresting.counted.refersWeakly (hresting.owners ▸ hq) hweak
    by_cases hlive : p ∈ rt.gcObjList
    · have hone := hcount (.strong p)
      simp only [Op.takes, List.count_singleton_self] at hone
      obtain ⟨rt', heval, h', hrecounts⟩ := hresting.dupValue hlive hone
      have hlives := (hresting.live_iff ho).mpr hlive
      refine ⟨⟨rt', p :: held⟩, { h with held := p :: h.held }, ?_, ?_, fun hno => absurd rfl (hno p)⟩
      · simp [State.step, jsWeakrefIsLive, ho, hlives, heval]
      · subst hheld
        refine hs.of_stays (hrecounts.next.trans hnext) h' (hrecounts.within hcount)
          fun q hq => ⟨hrecounts.list ▸ hq, ?_⟩
        exact fun hrefs => (congrFun hrecounts.refs q).trans hrefs
    · have hcount : o.refCount = 0 := by
        by_contra hcount
        exact hlive ((hresting.live_iff ho).mp hcount)
      exact ⟨⟨rt, held⟩, h, by simp [State.step, jsWeakrefIsLive, ho, hcount], hs,
        fun hno => absurd rfl (hno p)⟩
  | runGc =>
    obtain ⟨rt', heval, h', hsurvives, -⟩ := jsRunGc_ok hresting hwithin
    refine ⟨⟨rt', held⟩, h.after .runGc, by simp [State.step, heval], ?_, fun _ => rfl⟩
    subst hheld
    refine hs.of_stays (hsurvives.next.trans hnext) h'
      (hwithin.survives h' hsurvives fun _ => Nat.le_refl _) fun q hq => ?_
    obtain ⟨hq, hrefs⟩ := hsurvives.stays hq
    exact ⟨hq, hrefs.trans⟩

end Follows

-- ---------------------------------------------------------------------------
-- Runs
-- ---------------------------------------------------------------------------

/-- A list of operations is followed as long as there is room for what it refers to. -/
theorem Follows.exec (hs : Follows h s)
    (hrun : Machine.exec Heap.step Machine.always h l = some h') :
    (∃ s', Machine.exec State.step Machine.always s l = some s' ∧ Follows h' s') ∨
      ∃ l₁ op s', l₁ ++ [op] <+: l ∧ Machine.exec State.step Machine.always s l₁ = some s' ∧
        op.room s' = false := by
  induction l generalizing h s with
  | nil =>
    cases hrun
    exact .inl ⟨s, rfl, hs⟩
  | cons op l ih =>
    simp only [Machine.exec, Machine.always] at hrun
    obtain ⟨h₁, hstep, hrest⟩ := Option.bind_eq_some_iff.mp hrun
    have huses : h.Uses op := by
      by_contra huses
      rw [Heap.step, if_neg huses] at hstep
      cases hstep
    rw [Heap.step_of_uses huses, Option.some.injEq] at hstep
    subst hstep
    by_cases hroom : op.room s = true
    · have hop : op.allowed s = true := Bool.and_eq_true_iff.mpr ⟨hs.proper huses, hroom⟩
      obtain ⟨s₁, h₁, heval, hs₁, hafter⟩ := hs.step hop
      have hsame : h₁ = h.after op := hafter fun p hp => by
        subst hp
        exact huses
      subst hsame
      obtain ⟨s', hrun', hs'⟩ | ⟨l₁, op', s', hl, hrun', hfull⟩ := ih hs₁ hrest
      · refine .inl ⟨s', ?_, hs'⟩
        simpa [Machine.exec, Machine.always, heval] using hrun'
      · refine .inr ⟨op :: l₁, op', s', List.cons_prefix_cons.mpr ⟨rfl, hl⟩, ?_, hfull⟩
        simpa [Machine.exec, Machine.always, heval] using hrun'
    · exact .inr ⟨[], op, s, by simp, rfl, Bool.eq_false_iff.mpr hroom⟩

/-- A program that uses only what it can reach finds it as it left it, however the collector and
the counts work in between, unless it comes to take a reference that is there as often as its
count can say. -/
theorem exec_follows (hrun : Machine.exec Heap.step Machine.always Heap.init l = some h) :
    (∃ s, Machine.exec State.step Machine.always State.init l = some s ∧ s.held = h.held ∧
      ∀ p, h.Reachable p → p ∈ s.rt.gcObjList ∧ s.rt.refsOf p = h.refs p ∧
        ∃ o, s.rt.objects p = some o ∧ o.gcObjType = h.types p) ∨
      ∃ l₁ op s, l₁ ++ [op] <+: l ∧
        Machine.exec State.step Machine.always State.init l₁ = some s ∧ op.room s = false := by
  refine (Follows.init.exec hrun).imp_left ?_
  rintro ⟨s, heval, hs⟩
  refine ⟨s, heval, hs.held, fun p hp => ?_⟩
  have hkept := hs.kept hp
  exact ⟨hkept, hs.same hkept, hs.resting.present hkept⟩

/-- Two objects that refer to each other, the second of which is held. -/
theorem exec_follows_cycle :
    ∃ s, Machine.exec State.step Machine.always State.init
      [.new .jsObject [], .new .jsObject [.strong 0], .put 0 (.strong 1), .free 0, .runGc] =
        some s ∧ s.held = [1] ∧ 0 ∈ s.rt.gcObjList ∧ s.rt.refsOf 0 = [.strong 1] := by
  let made := (Heap.init.after (.new .jsObject [])).after (.new .jsObject [.strong 0])
  let tied := made.after (.put 0 (.strong 1))
  have h0 : (Heap.init.after (.new .jsObject [])).Reachable 0 := .held (by decide)
  have h1 : made.Reachable 0 ∧ made.Reachable 1 := ⟨.held (by decide), .held (by decide)⟩
  have hrun : Machine.exec Heap.step Machine.always Heap.init
      [.new .jsObject [], .new .jsObject [.strong 0], .put 0 (.strong 1), .free 0, .runGc] =
        some (tied.after (.free 0)) := by
    have hnew : Heap.init.step (.new .jsObject []) = some _ :=
      Heap.step_of_uses (List.forall_mem_nil _)
    have hnew' : (Heap.init.after (.new .jsObject [])).step (.new .jsObject [.strong 0]) = some made :=
      Heap.step_of_uses (List.forall_mem_singleton.mpr ⟨h0, rfl⟩)
    have hput : made.step (.put 0 (.strong 1)) = some tied :=
      Heap.step_of_uses ⟨h1.1, h1.2, rfl⟩
    have hfree : tied.step (.free 0) = some (tied.after (.free 0)) :=
      Heap.step_of_uses (by decide : 0 ∈ [1, 0])
    have hgc : (tied.after (.free 0)).step .runGc = some (tied.after (.free 0)) :=
      Heap.step_of_uses trivial
    simp [Machine.exec, Machine.always, hnew, hnew', hput, hfree, hgc]
  obtain ⟨s, heval, hheld, hkept⟩ | ⟨l₁, op, s, ⟨l₂, hl⟩, heval, hfull⟩ := exec_follows hrun
  · have hreach : (tied.after (.free 0)).Reachable 0 :=
      .step (q := 1) (.held (by decide)) (by decide)
    exact ⟨s, heval, hheld, (hkept 0 hreach).1, (hkept 0 hreach).2.1⟩
  · -- There are never more than two references to one object.
    let ops : List Op :=
      [.new .jsObject [], .new .jsObject [.strong 0], .put 0 (.strong 1), .free 0, .runGc]
    have hroom : ∀ n < 5, (ops[n]?.bind fun op =>
        (Machine.exec State.step Machine.always State.init (ops.take n)).map op.room) = some true := by
      decide
    have hlength : l₁.length < 5 := by
      have := congrArg List.length hl
      simp at this
      omega
    have hhere := hroom l₁.length hlength
    have hops : ops = l₁ ++ op :: l₂ := by simpa using hl.symm
    rw [hops, List.getElem?_append_right (Nat.le_refl _), List.take_left] at hhere
    simp [heval, hfull] at hhere

/-- The states that allowed operations lead to. -/
def Reaches (s : State) : Prop :=
  Machine.Reaches State.step (fun s op => op.allowed s = true) State.init s

theorem Reaches.follows (h : Reaches s) : ∃ heap, Follows heap s := by
  refine Machine.Reaches.invariant (I := fun s => ∃ heap, Follows heap s) h ⟨Heap.init, .init⟩ ?_
  rintro s op s' ⟨heap, hs⟩ hop heval
  obtain ⟨t, heap', heval', ht, -⟩ := hs.step hop
  rw [heval] at heval'
  cases heval'
  exact ⟨heap', ht⟩

theorem Reaches.resting (h : Reaches s) :
    ∃ types, Resting types s.rt (s.held.map .strong) [] := by
  obtain ⟨heap, hs⟩ := h.follows
  refine ⟨heap.types, ?_⟩
  rw [hs.held]
  exact hs.resting

theorem Reaches.within (h : Reaches s) : Within s.rt (s.held.map .strong) := by
  obtain ⟨heap, hs⟩ := h.follows
  rw [hs.held]
  exact hs.within

theorem count_held (held : List ℕ) (p : ℕ) :
    (held.map Ref.strong).count (.strong p) = held.count p := by
  induction held with
  | nil => rfl
  | cons q held ih => simp [List.count_cons, ih]

theorem count_held_weak (held : List ℕ) (p : ℕ) : (held.map Ref.strong).count (.weak p) = 0 :=
  List.count_eq_zero_of_not_mem (by simp)

/-- No allowed operation meets freed memory, a count below zero or a failing assertion; and every
count is the number of references there are. -/
theorem reaches_counted (h : Reaches s) :
    (∀ op, op.allowed s = true → ∃ s', s.step op = some s') ∧
    ∀ p o, s.rt.objects p = some o →
      o.refCount = incoming s.rt.gcObjList s.rt.refsOf (.strong p) + s.held.count p ∧
      o.weakrefCount = incoming s.rt.gcObjList s.rt.refsOf (.weak p) := by
  obtain ⟨heap, hs⟩ := h.follows
  obtain ⟨types, hresting⟩ := h.resting
  refine ⟨fun op hop => ?_, fun p o ho => ?_⟩
  · obtain ⟨s', -, heval, -⟩ := hs.step hop
    exact ⟨s', heval⟩
  · rw [← hresting.owners, hresting.counted.strong ho, hresting.counted.weak ho, count_held,
      count_held_weak]
    exact ⟨rfl, rfl⟩

/-- An object that refers to itself and is not held any more. -/
theorem reaches_counted_loop :
    ∃ s, Machine.exec State.step (fun s op => op.allowed s = true) State.init
        [.new .jsObject [], .put 0 (.strong 0), .free 0] = some s ∧
      (∃ s', s.step .runGc = some s') ∧
      1 = incoming s.rt.gcObjList s.rt.refsOf (.strong 0) + s.held.count 0 := by
  obtain ⟨s, hrun, o, ho, hone⟩ : ∃ s, Machine.exec State.step (fun s op => op.allowed s = true)
      State.init [.new .jsObject [], .put 0 (.strong 0), .free 0] = some s ∧
      ∃ o, s.rt.objects 0 = some o ∧ o.refCount = 1 := ⟨_, rfl, _, rfl, rfl⟩
  have hcounted := reaches_counted (Machine.reaches_of_exec hrun)
  exact ⟨s, hrun, hcounted.1 .runGc rfl, hone ▸ (hcounted.2 0 o ho).1⟩

/-- A collection leaves exactly what can be reached from what is held, as it was. -/
theorem runGc_exact (h : Reaches s) :
    ∃ s', s.step .runGc = some s' ∧
      (∀ p, p ∈ s'.rt.gcObjList ↔ Reached s.rt.refsOf (s.held.map .strong) p) ∧
      ∀ p ∈ s'.rt.gcObjList, s'.rt.refsOf p = s.rt.refsOf p := by
  obtain ⟨types, hresting⟩ := h.resting
  obtain ⟨rt', heval, -, hsurvives, hexact⟩ := jsRunGc_ok hresting h.within
  exact ⟨⟨rt', s.held⟩, by simp [State.step, heval], hexact, fun p hp => (hsurvives.stays hp).2⟩

/-- Of a cycle and an object that it refers to, the object is held. -/
theorem runGc_exact_cycle :
    ∃ s s', Machine.exec State.step (fun s op => op.allowed s = true) State.init
        [.new .jsObject [], .new .shape [.strong 0], .new .jsObject [.strong 1, .strong 0],
          .put 0 (.strong 0), .put 2 (.strong 2), .free 1, .free 2] = some s ∧
      s.step .runGc = some s' ∧ s'.rt.gcObjList = [0] ∧
      (0 ∈ s'.rt.gcObjList ↔ Reached s.rt.refsOf (s.held.map .strong) 0) := by
  obtain ⟨s, hrun, s', heval, hlist⟩ : ∃ s, Machine.exec State.step
      (fun s op => op.allowed s = true) State.init
        [.new .jsObject [], .new .shape [.strong 0], .new .jsObject [.strong 1, .strong 0],
          .put 0 (.strong 0), .put 2 (.strong 2), .free 1, .free 2] = some s ∧
      ∃ s', s.step .runGc = some s' ∧ s'.rt.gcObjList = [0] := ⟨_, rfl, _, rfl, rfl⟩
  obtain ⟨t, heval', hexact, -⟩ := runGc_exact (Machine.reaches_of_exec hrun)
  rw [heval] at heval'
  cases heval'
  exact ⟨s, s', hrun, heval, hlist, hexact 0⟩

/-- Where no object refers back to itself over others, counting alone frees everything that can not
be reached. -/
theorem acyclic_exact (h : Reaches s) (rank : ℕ → ℕ)
    (hrank : ∀ q ∈ s.rt.gcObjList, ∀ p, .strong p ∈ s.rt.refsOf q → rank p < rank q) (p : ℕ) :
    p ∈ s.rt.gcObjList ↔ Reached s.rt.refsOf (s.held.map .strong) p := by
  obtain ⟨heap, hs⟩ := h.follows
  obtain ⟨types, hresting⟩ := h.resting
  have hbound : ∀ q ∈ s.rt.gcObjList, rank q ≤ (s.rt.gcObjList.map rank).sum :=
    fun q hq => List.le_sum_of_mem (List.mem_map_of_mem hq)
  constructor
  · intro hp
    -- Up along a reference: the rank grows, and it is bounded in the list.
    induction hk : (s.rt.gcObjList.map rank).sum - rank p using Nat.strongRecOn generalizing p with
    | ind k ih =>
      obtain ⟨o, ho, -⟩ := hresting.present hp
      have hpos := hresting.pos hp ho
      rw [hresting.counted.strong ho, hresting.owners] at hpos
      rcases Nat.eq_zero_or_pos ((s.held.map Ref.strong).count (.strong p)) with hzero | hheld
      · rw [hzero, Nat.add_zero] at hpos
        obtain ⟨q, hq, hrefs⟩ := incoming_pos.mp hpos
        have hlt := hrank q hq p hrefs
        have hle := hbound q hq
        exact .step (ih _ (by omega) q hq rfl) hrefs
      · exact .held (List.count_pos_iff.mp hheld)
  · intro hp
    induction hp with
    | held hp => exact hresting.owners ▸ hresting.counted.held hp
    | step _ hp ih => exact hresting.closed ih (mem_strong.mpr hp)

/-- A context, its shape and the object of the shape, all given back by one `free`. -/
theorem acyclic_exact_chain :
    ∃ s, Machine.exec State.step (fun s op => op.allowed s = true) State.init
        [.new .jsObject [], .new .shape [.strong 0], .new .jsContext [.strong 1], .free 0, .free 1,
          .new .jsObject [], .free 2] = some s ∧
      s.rt.gcObjList = [3] ∧ (3 ∈ s.rt.gcObjList ↔ Reached s.rt.refsOf (s.held.map .strong) 3) := by
  obtain ⟨s, hrun, hlist, hrefs⟩ : ∃ s, Machine.exec State.step
      (fun s op => op.allowed s = true) State.init
        [.new .jsObject [], .new .shape [.strong 0], .new .jsContext [.strong 1], .free 0, .free 1,
          .new .jsObject [], .free 2] = some s ∧
      s.rt.gcObjList = [3] ∧ s.rt.refsOf 3 = [] := ⟨_, rfl, rfl, rfl⟩
  refine ⟨s, hrun, hlist, acyclic_exact (Machine.reaches_of_exec hrun) id ?_ 3⟩
  intro q hq p hp
  cases List.mem_singleton.mp (hlist ▸ hq)
  rw [hrefs] at hp
  cases hp

/-- A weak reference finds a structure, and tells whether its object was freed; and no other
structure is left of an object that was. -/
theorem weak_exact (h : Reaches s) (p : ℕ) :
    ((∃ o, s.rt.objects p = some o) ↔
      p ∈ s.rt.gcObjList ∨ ∃ q ∈ s.rt.gcObjList, .weak p ∈ s.rt.refsOf q) ∧
    ∀ q ∈ s.rt.gcObjList, .weak p ∈ s.rt.refsOf q →
      jsWeakrefIsLive s.rt p = some (decide (p ∈ s.rt.gcObjList)) := by
  obtain ⟨types, hresting⟩ := h.resting
  have howners := hresting.owners
  have hthere : ∀ q ∈ s.rt.gcObjList, .weak p ∈ s.rt.refsOf q → ∃ o, s.rt.objects p = some o :=
    fun q hq hr => (hresting.counted.refersWeakly (howners ▸ hq) hr).2
  refine ⟨⟨?_, ?_⟩, fun q hq hr => ?_⟩
  · rintro ⟨o, ho⟩
    by_cases hp : p ∈ s.rt.gcObjList
    · exact .inl hp
    · right
      have hleft := (hresting.counted.left ho (howners ▸ hp)).2.2.2.2
      rw [hresting.counted.weak ho, count_held_weak, Nat.add_zero, howners] at hleft
      exact incoming_pos.mp hleft
  · rintro (hp | ⟨q, hq, hr⟩)
    · obtain ⟨o, ho, -⟩ := hresting.present hp
      exact ⟨o, ho⟩
    · exact hthere q hq hr
  · obtain ⟨o, ho⟩ := hthere q hq hr
    simp only [jsWeakrefIsLive, ho, Option.bind_eq_bind, Option.bind_some]
    exact congrArg some (decide_eq_decide.mpr (hresting.live_iff ho))

/-- The object at 0 is freed under a weak reference. -/
theorem weak_exact_left :
    ∃ s, Machine.exec State.step (fun s op => op.allowed s = true) State.init
        [.new .jsObject [], .new .jsObject [.weak 0], .free 0] = some s ∧
      0 ∉ s.rt.gcObjList ∧ (∃ o, s.rt.objects 0 = some o) ∧
      jsWeakrefIsLive s.rt 0 = some (decide (0 ∈ s.rt.gcObjList)) := by
  obtain ⟨s, hrun, hlist, hweak⟩ : ∃ s, Machine.exec State.step
      (fun s op => op.allowed s = true) State.init
        [.new .jsObject [], .new .jsObject [.weak 0], .free 0] = some s ∧
      s.rt.gcObjList = [1] ∧ s.rt.refsOf 1 = [.weak 0] := ⟨_, rfl, rfl, rfl⟩
  have hq : 1 ∈ s.rt.gcObjList := by simp [hlist]
  have hr : .weak 0 ∈ s.rt.refsOf 1 := by simp [hweak]
  obtain ⟨hthere, hlive⟩ := weak_exact (Machine.reaches_of_exec hrun) 0
  exact ⟨s, hrun, by simp [hlist], hthere.mpr (.inr ⟨1, hq, hr⟩), hlive 1 hq hr⟩

/-- Once the engine gave back everything it held, a collection empties the memory. -/
theorem shutdown_exact (h : Reaches s) (hheld : s.held = []) :
    ∃ s', s.step .runGc = some s' ∧ s'.rt.gcObjList = [] ∧ ∀ p, s'.rt.objects p = none := by
  obtain ⟨types, hresting⟩ := h.resting
  obtain ⟨rt', heval, h', -, hexact⟩ := jsRunGc_ok hresting h.within
  have hnone : ∀ p, ¬ Reached s.rt.refsOf (s.held.map .strong) p := by
    intro p hp
    rw [hheld] at hp
    induction hp with
    | held hp => cases hp
    | step _ _ ih => exact ih
  have hnil : rt'.gcObjList = [] :=
    List.eq_nil_iff_forall_not_mem.mpr fun p hp => hnone p ((hexact p).mp hp)
  refine ⟨⟨rt', s.held⟩, by simp [State.step, heval], hnil, fun p => ?_⟩
  cases ho : rt'.objects p with
  | none => rfl
  | some o =>
    have howners : rt'.owners = [] := h'.owners.trans hnil
    have hleft := (h'.counted.left ho (by simp [howners])).2.2.2.2
    rw [h'.counted.weak ho, howners, count_held_weak] at hleft
    cases hleft

/-- A cycle with a weak reference into it. -/
theorem shutdown_exact_cycle :
    ∃ s s', Machine.exec State.step (fun s op => op.allowed s = true) State.init
        [.new .jsObject [], .new .functionBytecode [.strong 0], .put 0 (.strong 1),
          .put 0 (.weak 0), .free 0, .free 1] = some s ∧
      s.step .runGc = some s' ∧ s'.rt.objects 0 = none := by
  obtain ⟨s, hrun, hheld⟩ : ∃ s, Machine.exec State.step (fun s op => op.allowed s = true)
      State.init [.new .jsObject [], .new .functionBytecode [.strong 0], .put 0 (.strong 1),
        .put 0 (.weak 0), .free 0, .free 1] = some s ∧ s.held = [] := ⟨_, rfl, rfl⟩
  obtain ⟨s', heval, -, hnone⟩ := shutdown_exact (Machine.reaches_of_exec hrun) hheld
  exact ⟨s, s', hrun, heval, hnone 0⟩

end QuickJsKmp.Collector
