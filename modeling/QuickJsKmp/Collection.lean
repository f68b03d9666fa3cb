import QuickJsKmp.Cycles

/-!
# What a collection frees

`gc_free_cycles` gives back what the unreachable objects keep, the references between them and
those to what stays, and then frees their structures. `JS_RunGC` leaves exactly the objects that
can be reached.
-/

namespace QuickJsKmp.Collector

open Incidence

section FreeCycles

variable {types : ℕ → GcObjType} {rt rt' : Runtime} {loose : List Ref}

/-- While `gc_free_cycles` runs. What stays is closed under references and holds everything that
is held from outside. -/
structure Sweeping (types : ℕ → GcObjType) (rt : Runtime) (loose : List Ref) : Prop where
  releasing : Releasing types loose rt loose []
  phase : rt.gcPhase = .removeCycles
  closed : q ∈ rt.gcObjList → .strong c ∈ rt.refsOf q → c ∈ rt.gcObjList
  held : .strong c ∈ loose → c ∈ rt.gcObjList

/-- A step of `gc_free_cycles`: what stays is not touched. -/
structure Spares (rt rt' : Runtime) : Prop where
  same : rt'.gcObjList = rt.gcObjList
  refs : p ∈ rt.gcObjList → rt'.refsOf p = rt.refsOf p
  next : rt'.next = rt.next

theorem Spares.refl (rt : Runtime) : Spares rt rt := ⟨rfl, fun _ => rfl, rfl⟩

theorem Spares.trans (h : Spares rt rt') (h' : Spares rt' rt'') : Spares rt rt'' where
  same := h'.same.trans h.same
  refs hp := (h'.refs (h.same ▸ hp)).trans (h.refs hp)
  next := h'.next.trans h.next

theorem Sweeping.next (h : Sweeping types rt loose) (hspares : Spares rt rt')
    (hphase : rt'.gcPhase = .removeCycles) (h' : Releasing types loose rt' loose []) :
    Sweeping types rt' loose where
  releasing := h'
  phase := hphase
  closed hq hc := by
    rw [hspares.same] at hq ⊢
    exact h.closed hq (hspares.refs hq ▸ hc)
  held hc := hspares.same ▸ h.held hc

theorem Frees.spares (h : Frees types (rt.set p o') rt') (hphase : rt.gcPhase = .removeCycles)
    (hp : p ∉ rt.gcObjList) : Spares rt rt' where
  same := (h.cycles hphase).1
  refs := by
    intro q hq
    have hqp : q ≠ p := by
      rintro rfl
      exact hp hq
    have hstays : q ∈ rt'.gcObjList := (h.cycles hphase).1 ▸ hq
    calc rt'.refsOf q = (rt.set p o').refsOf q := (h.stays hstays).2
      _ = rt.refsOf q := by simp [Function.update_of_ne hqp]
  next := h.next

theorem Spares.toZeroTail (rt : Runtime) (hp : p ∉ rt.gcObjList) : Spares rt (rt.toZeroTail p) :=
  ⟨List.erase_of_not_mem hp, fun _ => rfl, rfl⟩

theorem Spares.leave (rt : Runtime) (hp : p ∉ rt.gcObjList) (left : Option GcObject) :
    Spares rt (rt.leave p left) := by
  refine ⟨List.erase_of_not_mem hp, fun {q} hq => ?_, rfl⟩
  have hqp : q ≠ p := by
    rintro rfl
    exact hp hq
  exact congrArg (Option.elim · [] GcObject.refs) (Function.update_of_ne hqp ..)

/-- `free_gc_object` of an object that was set aside. -/
theorem Sweeping.freeGcObject (h : Sweeping types rt loose) (hp : p ∈ rt.tmpObjList)
    (hat : (types p).atOnce = false) :
    ∃ rt', Collector.freeGcObject rt p = some rt' ∧ Sweeping types rt' loose ∧ Spares rt rt' ∧
      rt'.tmpObjList.length < rt.tmpObjList.length := by
  have hgc : p ∉ rt.gcObjList :=
    fun hgc => (Runtime.apart h.releasing.counted.nodup).not_tmp hgc hp
  obtain ⟨o, ho⟩ := h.releasing.counted.present (Runtime.mem_owners.mpr (.inr (.inr hp)))
  obtain ⟨rt₁, hdrop, h₁, hframe⟩ :=
    h.releasing.asked ho (.inr hp) hat fun q => Nat.le_refl _
  obtain ⟨hp₁, hrefs₁⟩ := hframe.doomed hp hat
  have hphase₁ : rt₁.gcPhase = .removeCycles := hframe.phase.trans h.phase
  obtain ⟨hsame, hshorter⟩ := hframe.cycles h.phase
  have hgc₁ : p ∉ rt₁.gcObjList := hsame ▸ hgc
  have hspares : Spares rt rt₁ := hframe.spares h.phase hgc
  have howned₁ : p ∈ rt₁.owners := Runtime.mem_owners.mpr (.inr (.inr hp₁))
  obtain ⟨o₁, ho₁⟩ := h₁.counted.present howned₁
  have hnil₁ : rt₁.refsOf p = [] := by simp [hrefs₁]
  have hfewer : (rt₁.tmpObjList.erase p).length < rt.tmpObjList.length := by
    have := List.length_erase_of_mem hp₁
    have := List.length_pos_of_mem hp₁
    have : rt₁.tmpObjList.length ≤ rt.tmpObjList.length := hshorter.length_le
    omega
  have heval := freeGcObject_eq ho ((h.releasing.counted.type ho).symm ▸ hat) hdrop ho₁
  rw [if_pos hphase₁] at heval
  by_cases hfree : o₁.refCount = 0 ∧ (o₁.gcObjType = .jsObject → o₁.weakrefCount = 0)
  · rw [if_pos hfree] at heval
    have hspares' := hspares.trans (.leave rt₁ hgc₁ none)
    refine ⟨rt₁.leave p none, heval, h.next hspares' hphase₁ ?_, hspares', hfewer⟩
    refine h₁.leave howned₁ ho₁ hfree.1 (Runtime.refsOf_of ho₁ ▸ hnil₁) (by simp) (by simp) none
      (fun _ => ?_) (by simp)
    by_cases hobject : o₁.gcObjType = .jsObject
    · exact hfree.2 hobject
    · exact h₁.counted.no_weak ho₁ (h₁.counted.type ho₁ ▸ hobject)
  · rw [if_neg hfree] at heval
    have hspares' := hspares.trans (.toZeroTail rt₁ hgc₁)
    exact ⟨_, heval, h.next hspares' hphase₁ (h₁.setAside hphase₁ hp₁ fun _ => hnil₁), hspares',
      hfewer⟩

theorem gcFreeLoop_queued {n : ℕ} (hlist : rt.tmpObjList = p :: rest) (ho : rt.objects p = some o)
    (hat : o.gcObjType.atOnce = false) :
    gcFreeLoop (n + 1) rt = (freeGcObject rt p).bind (gcFreeLoop n) := by
  cases ht : o.gcObjType <;> simp [ht, GcObjType.atOnce] at hat <;>
    simp [gcFreeLoop, hlist, ho, ht]

theorem gcFreeLoop_atOnce {n : ℕ} (hlist : rt.tmpObjList = p :: rest) (ho : rt.objects p = some o)
    (hat : o.gcObjType.atOnce = true) :
    gcFreeLoop (n + 1) rt = gcFreeLoop n (rt.toZeroTail p) := by
  cases ht : o.gcObjType <;> simp [ht, GcObjType.atOnce] at hat <;>
    simp [gcFreeLoop, hlist, ho, ht]

theorem gcFreeLoop_ok {n : ℕ} (h : Sweeping types rt loose) (hn : rt.tmpObjList.length ≤ n) :
    ∃ rt', gcFreeLoop n rt = some rt' ∧ Sweeping types rt' loose ∧ Spares rt rt' ∧
      rt'.tmpObjList = [] := by
  induction n generalizing rt with
  | zero =>
    have hnil : rt.tmpObjList = [] := List.eq_nil_of_length_eq_zero (Nat.eq_zero_of_le_zero hn)
    exact ⟨rt, by simp [gcFreeLoop, hnil], h, .refl rt, hnil⟩
  | succ n ih =>
    cases hlist : rt.tmpObjList with
    | nil => exact ⟨rt, by simp [gcFreeLoop, hlist], h, .refl rt, hlist⟩
    | cons p rest =>
      have hp : p ∈ rt.tmpObjList := by simp [hlist]
      obtain ⟨o, ho⟩ := h.releasing.counted.present (Runtime.mem_owners.mpr (.inr (.inr hp)))
      have htype : o.gcObjType = types p := h.releasing.counted.type ho
      by_cases hat : (types p).atOnce = true
      · have hgc : p ∉ rt.gcObjList :=
          fun hgc => (Runtime.apart h.releasing.counted.nodup).not_tmp hgc hp
        have hspares := Spares.toZeroTail rt hgc
        have h₁ := h.next hspares h.phase
          (h.releasing.setAside h.phase hp fun hfalse => by rw [hat] at hfalse; cases hfalse)
        have hfewer : (rt.toZeroTail p).tmpObjList.length ≤ n := by
          have hrest : (rt.toZeroTail p).tmpObjList = rest := by
            simp [Runtime.toZeroTail, hlist]
          rw [hlist, List.length_cons] at hn
          rw [hrest]
          omega
        obtain ⟨rt', hloop, h', hspares', hnil⟩ := ih h₁ hfewer
        refine ⟨rt', ?_, h', hspares.trans hspares', hnil⟩
        rw [gcFreeLoop_atOnce hlist ho (htype ▸ hat), hloop]
      · have hat : (types p).atOnce = false := by simpa using hat
        obtain ⟨rt₁, hfree, h₁, hspares, hfewer⟩ := h.freeGcObject hp hat
        obtain ⟨rt', hloop, h', hspares', hnil⟩ := ih h₁ (by omega)
        refine ⟨rt', ?_, h', hspares.trans hspares', hnil⟩
        rw [gcFreeLoop_queued hlist ho (htype ▸ hat), hfree]
        exact hloop

/-- Nothing that waits for the end of the collection is freed by its last reference: nothing that
refers to it is left. -/
theorem Sweeping.not_atOnce (h : Sweeping types rt loose) (hnil : rt.tmpObjList = [])
    (hp : p ∈ rt.gcZeroRefCountList) : (types p).atOnce = false := by
  refine Bool.eq_false_iff.mpr fun hat => ?_
  have hapart := Runtime.apart h.releasing.counted.nodup
  obtain ⟨-, -, hempty⟩ := h.releasing.kept h.phase
  induction hk : releaseDepth - (types p).depth using Nat.strongRecOn generalizing p with
  | ind k ih =>
    obtain ⟨o, ho⟩ := h.releasing.counted.present (Runtime.mem_owners.mpr (.inr (.inl hp)))
    have hpos := h.releasing.alive (.inr hat) List.not_mem_nil ho
    have hloose : loose.count (.strong p) = 0 := by
      refine List.count_eq_zero_of_not_mem fun hmem => ?_
      exact hapart.not_zero (h.held hmem) hp
    rw [h.releasing.counted.strong ho, hloose, Nat.add_zero] at hpos
    obtain ⟨q, hq, hrefs⟩ := incoming_pos.mp hpos
    rcases Runtime.mem_owners.mp hq with hgc | hzero | htmp
    · exact hapart.not_zero (h.closed hgc hrefs) hp
    · by_cases hatq : (types q).atOnce = true
      · have hlt := GcObjType.depth_lt hatq (h.releasing.counted.refers hq hrefs).2
        have hle := GcObjType.depth_le (types q)
        exact ih _ (by omega) hzero hatq rfl
      · rw [hempty q hzero (by simpa using hatq)] at hrefs
        cases hrefs
    · rw [hnil] at htmp
      cases htmp

/-- What waits for the end of the collection is not referred to any more. -/
theorem Sweeping.swept (h : Sweeping types rt loose) (hnil : rt.tmpObjList = [])
    (hp : p ∈ rt.gcZeroRefCountList) (ho : rt.objects p = some o) :
    o.refCount = 0 ∧ o.refs = [] := by
  have hapart := Runtime.apart h.releasing.counted.nodup
  obtain ⟨-, -, hempty⟩ := h.releasing.kept h.phase
  constructor
  · have hloose : loose.count (.strong p) = 0 := by
      refine List.count_eq_zero_of_not_mem fun hmem => ?_
      exact hapart.not_zero (h.held hmem) hp
    rw [h.releasing.counted.strong ho, hloose, incoming_eq_zero]
    intro q hq hrefs
    rcases Runtime.mem_owners.mp hq with hgc | hzero | htmp
    · exact hapart.not_zero (h.closed hgc hrefs) hp
    · rw [hempty q hzero (h.not_atOnce hnil hzero)] at hrefs
      cases hrefs
    · rw [hnil] at htmp
      cases htmp
  · rw [← Runtime.refsOf_of ho]
    exact hempty p hp (h.not_atOnce hnil hp)

/-- The state of the last loop, with the objects it has not come to. -/
def Runtime.sweepingAt (rt : Runtime) (l : List ℕ) : Runtime :=
  { rt with gcZeroRefCountList := l, gcPhase := .removeCycles }

theorem gcFreeKept_eq (ho : rt.objects p = some o) (hat : o.gcObjType.atOnce = false) :
    gcFreeKept rt p = some (if o.gcObjType = .jsObject ∧ o.weakrefCount ≠ 0
      then rt.set p { o with mark := false } else rt.jsFreeRt p) := by
  cases ht : o.gcObjType <;> simp [ht, GcObjType.atOnce] at hat <;> simp [gcFreeKept, ho, ht]

theorem gcFreeKept_ok (h : Sweeping types (rt.sweepingAt (p :: l)) loose)
    (hnil : rt.tmpObjList = []) :
    ∃ rt', gcFreeKept rt p = some rt' ∧ Sweeping types (rt'.sweepingAt l) loose ∧
      Spares rt rt' ∧ rt'.tmpObjList = [] ∧ rt'.gcPhase = rt.gcPhase := by
  have hp : p ∈ (rt.sweepingAt (p :: l)).gcZeroRefCountList := List.mem_cons_self
  have howned : p ∈ (rt.sweepingAt (p :: l)).owners := Runtime.mem_owners.mpr (.inr (.inl hp))
  have hgc : p ∉ rt.gcObjList :=
    fun hgc => (Runtime.apart h.releasing.counted.nodup).not_zero hgc hp
  obtain ⟨o, ho⟩ := h.releasing.counted.present howned
  have ho' : rt.objects p = some o := ho
  have htype : o.gcObjType = types p := h.releasing.counted.type ho
  obtain ⟨hzero, hrefs⟩ := h.swept hnil hp ho
  have hleave : ∀ left, (rt.sweepingAt (p :: l)).leave p left =
      { rt.sweepingAt l with objects := Function.update rt.objects p left } := by
    intro left
    simp [Runtime.leave, Runtime.listDel, Runtime.sweepingAt, hnil, List.erase_of_not_mem hgc]
  have heval := gcFreeKept_eq ho' (htype ▸ h.not_atOnce hnil hp)
  have hnext : ∀ left, (left = none → o.weakrefCount = 0) →
      (∀ o', left = some o' → o' = { o with mark := false } ∧ types p = .jsObject ∧
        o.weakrefCount ≠ 0) →
      Sweeping types { rt.sweepingAt l with objects := Function.update rt.objects p left }
        loose := by
    intro left hnone hsome
    refine hleave left ▸ h.next (.leave (rt.sweepingAt (p :: l)) hgc left) h.phase ?_
    exact h.releasing.leave howned ho hzero hrefs (by simp) (by simp) left hnone hsome
  have hspares : ∀ left, Spares rt { rt with objects := Function.update rt.objects p left } := by
    intro left
    refine ⟨rfl, fun {q} hq => ?_, rfl⟩
    have hqp : q ≠ p := by
      rintro rfl
      exact hgc hq
    exact congrArg (Option.elim · [] GcObject.refs) (Function.update_of_ne hqp ..)
  by_cases hweak : o.gcObjType = .jsObject ∧ o.weakrefCount ≠ 0
  · rw [if_pos hweak] at heval
    refine ⟨_, heval, hnext (some { o with mark := false }) (by simp) ?_,
      hspares (some { o with mark := false }), hnil, rfl⟩
    rintro o' ⟨⟩
    exact ⟨rfl, htype ▸ hweak.1, hweak.2⟩
  · rw [if_neg hweak] at heval
    refine ⟨_, heval, hnext none (fun _ => ?_) (by simp), hspares none, hnil, rfl⟩
    by_cases hobject : o.gcObjType = .jsObject
    · simpa [hobject] using hweak
    · exact h.releasing.counted.no_weak ho (htype ▸ hobject)

theorem gcFreeKeptLoop_ok {l : List ℕ} (h : Sweeping types (rt.sweepingAt l) loose)
    (hnil : rt.tmpObjList = []) :
    ∃ rt', l.foldlM gcFreeKept rt = some rt' ∧ Sweeping types (rt'.sweepingAt []) loose ∧
      Spares rt rt' ∧ rt'.tmpObjList = [] ∧ rt'.gcPhase = rt.gcPhase := by
  induction l generalizing rt with
  | nil => exact ⟨rt, rfl, h, .refl rt, hnil, rfl⟩
  | cons p l ih =>
    obtain ⟨rt₁, hfree, h₁, hspares, hnil₁, hphase⟩ := gcFreeKept_ok h hnil
    obtain ⟨rt', hloop, h', hspares', hnil', hphase'⟩ := ih h₁ hnil₁
    refine ⟨rt', ?_, h', hspares.trans hspares', hnil', hphase'.trans hphase⟩
    rw [List.foldlM_cons, hfree]
    exact hloop

/-- The end of a collection is a state of rest. -/
theorem Sweeping.resting (h : Sweeping types (rt.sweepingAt []) loose)
    (hnil : rt.tmpObjList = []) (hphase : rt.gcPhase = .none) :
    Resting types { rt with gcZeroRefCountList := [] } loose [] := by
  have hr := h.releasing
  refine ⟨⟨hr.counted.lists rfl rfl (.refl _), GcPhase.noConfusion, hr.emptied, hr.alive,
    hr.unmarked, hr.marked, fun _ => ⟨hnil, by simp [Runtime.atPhase]⟩, ?_⟩, hphase, rfl⟩
  intro hcycles
  cases hcycles

theorem gcFreeCycles_ok (h : Sweeping types { rt with gcPhase := .removeCycles } loose) :
    ∃ rt', gcFreeCycles rt = some rt' ∧ Resting types rt' loose [] ∧ Spares rt rt' := by
  obtain ⟨rt₁, hloop, h₁, hspares, hnil⟩ := gcFreeLoop_ok h (Nat.le_refl _)
  have hstart : Sweeping types (({ rt₁ with gcPhase := .none } : Runtime).sweepingAt
      rt₁.gcZeroRefCountList) loose := by
    have hsame : ({ rt₁ with gcPhase := .none } : Runtime).sweepingAt rt₁.gcZeroRefCountList =
        rt₁ := by
      simp [Runtime.sweepingAt, ← h₁.phase]
    rwa [hsame]
  obtain ⟨rt', hkept, h', hspares', hnil', hphase⟩ := gcFreeKeptLoop_ok hstart hnil
  have hfirst : Spares rt rt₁ := ⟨hspares.same, hspares.refs, hspares.next⟩
  have hall : Spares rt rt' := hfirst.trans ⟨hspares'.same, hspares'.refs, hspares'.next⟩
  refine ⟨{ rt' with gcZeroRefCountList := [] }, ?_, h'.resting hnil' hphase, hall.same, hall.refs,
    hall.next⟩
  have heval : gcFreeLoop rt.tmpObjList.length { rt with gcPhase := .removeCycles } = some rt₁ :=
    hloop
  simp only [gcFreeCycles, heval, Option.bind_eq_bind, Option.bind_some, hkept]
  rfl

end FreeCycles

-- ---------------------------------------------------------------------------
-- `JS_RunGC`
-- ---------------------------------------------------------------------------

section RunGc

variable {types : ℕ → GcObjType} {rt : Runtime} {loose : List Ref}

/-- `JS_RunGC` runs to its end, and what it leaves is what can be reached. -/
theorem jsRunGc_ok (h : Resting types rt loose []) (hmost : Within rt loose) :
    ∃ rt', jsRunGc rt = some rt' ∧ Resting types rt' loose [] ∧ Survives rt rt' ∧
      ∀ p, p ∈ rt'.gcObjList ↔ Reached rt.refsOf loose p := by
  obtain ⟨gc, tmp, hpasses, hperm, hreached⟩ := gcPasses_ok h hmost
  have htmp : rt.tmpObjList = [] := (h.releasing.queued rfl).1
  have hcounted := h.counted
  have howners := h.owners
  have hV : rt.gcObjList.Nodup := howners ▸ hcounted.nodup
  obtain ⟨-, -, hne⟩ := List.nodup_append.mp (hperm.nodup_iff.mpr hV)
  let marked : Runtime := { rt with
    objects := fun p => (rt.objects p).map fun o => { o with mark := decide (p ∈ tmp) }
    gcObjList := gc, tmpObjList := tmp, gcPhase := .removeCycles }
  have hlists : marked.owners.Perm rt.owners := by
    rw [howners]
    simpa [marked, Runtime.owners, h.queue] using hperm
  have hrefs : marked.refsOf = rt.refsOf := by
    funext p
    cases ho : rt.objects p <;> simp [marked, Runtime.refsOf, ho]
  have hcounted' : Counted types marked loose := by
    refine hcounted.remark rfl (fun p hp => ?_) rfl hlists
    have : p ∉ tmp := fun hp' => hp (howners ▸ hperm.mem_iff.mp (by simp [hp']))
    simp [this]
  have hheld : ∀ {c}, .strong c ∈ loose → c ∈ gc := fun hc => (hreached _).mpr (.held hc)
  have hclosed : ∀ {q c}, q ∈ gc → .strong c ∈ rt.refsOf q → c ∈ gc :=
    fun hq hc => (hreached _).mpr (.step ((hreached _).mp hq) hc)
  have hreleasing : Releasing types loose marked loose [] := by
    constructor
    case counted => exact hcounted'
    case phase => exact GcPhase.noConfusion
    case emptied => exact fun hp => absurd hp List.not_mem_nil
    case alive =>
      intro p o hp _ ho
      obtain ⟨o', ho', rfl⟩ := Option.map_eq_some_iff.mp ho
      have hlist : p ∈ rt.gcObjList ∨ (types p).atOnce = true :=
        hp.imp_left fun hp => hperm.mem_iff.mp (List.mem_append_left _ hp)
      have := h.releasing.alive hlist List.not_mem_nil ho'
      exact this
    case unmarked =>
      intro p o hp ho
      obtain ⟨o, -, rfl⟩ := Option.map_eq_some_iff.mp ho
      have : p ∉ tmp := fun hp' => hne p hp p hp' rfl
      simp [this]
    case marked =>
      intro p o hp _ ho
      obtain ⟨o, -, rfl⟩ := Option.map_eq_some_iff.mp ho
      have : p ∈ tmp := by simpa [marked, h.queue] using hp
      simp [this]
    case queued => exact fun hdecref => GcPhase.noConfusion hdecref
    case kept =>
      refine fun _ => ⟨fun _ => Nat.le_refl _, fun p hp => ?_, by simp [marked, h.queue]⟩
      cases (hreached p).mp hp with
      | held hp => exact .inl hp
      | step hq hp => exact .inr ⟨_, (hreached _).mpr hq, hrefs ▸ hp⟩
  have hsweeping : Sweeping types
      { ({ marked with gcPhase := rt.gcPhase } : Runtime) with gcPhase := .removeCycles } loose :=
    ⟨hreleasing, rfl, fun hq hc => hclosed hq (hrefs ▸ hc), hheld⟩
  obtain ⟨rt', hfree, h', hspares⟩ := gcFreeCycles_ok hsweeping
  have hsame : rt'.gcObjList = gc := hspares.same
  refine ⟨rt', ?_, h', ⟨fun {p} hp => ?_, h'.phase.trans h.phase.symm, hspares.next⟩,
    fun p => hsame ▸ hreached p⟩
  · have heval : jsRunGc rt = ((gcDecref rt).bind gcScan).bind gcFreeCycles := by
      simp [jsRunGc, Option.bind_assoc]
    rw [heval, hpasses]
    exact hfree
  · rw [hsame] at hp
    exact ⟨hperm.mem_iff.mp (by simp [hp]), (hspares.refs hp).trans (congrFun hrefs p)⟩

end RunGc

end QuickJsKmp.Collector
