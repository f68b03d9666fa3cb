import QuickJsKmp.CollectorLaws

/-!
# What giving back a reference frees

In both phases of freeing, `release` gives back one reference: every object that loses its
last one is freed or queued to be freed, and no other.
-/

namespace QuickJsKmp.Collector

open Incidence

/-- Freed by whoever gives back the last reference, and never queued. -/
def GcObjType.atOnce : GcObjType → Bool
  | .shape | .varRef | .jsContext => true
  | _ => false

/-- How deep `release` goes for a reference to an object of the type. -/
def GcObjType.depth : GcObjType → ℕ
  | .jsContext => 3
  | .shape | .varRef => 2
  | _ => 1

theorem GcObjType.depth_lt {t u : GcObjType} (ht : t.atOnce = true) (h : t.refersTo u = true) :
    u.depth < t.depth := by
  cases t <;> cases u <;> simp_all [atOnce, refersTo, depth]

theorem GcObjType.depth_le (t : GcObjType) : t.depth ≤ releaseDepth := by
  cases t <;> simp [depth, releaseDepth]

theorem release_live {f : Runtime → Option Runtime} (ho : rt.objects p = some o)
    (hn : o.refCount = n + 1) (hlast : n ≠ 0) :
    release f (d + 1) rt p = some (rt.set p { o with refCount := n }) := by
  simp [release, ho, hn, hlast]

theorem release_atOnce {f : Runtime → Option Runtime} (ho : rt.objects p = some o)
    (hone : o.refCount = 1) (hat : o.gcObjType.atOnce = true) :
    release f (d + 1) rt p = freeAtOnce (release f d) (rt.set p { o with refCount := 0 }) p := by
  cases ht : o.gcObjType <;> simp [ht, GcObjType.atOnce] at hat <;> simp [release, ho, hone, ht]

theorem release_cycles {f : Runtime → Option Runtime} (ho : rt.objects p = some o)
    (hone : o.refCount = 1) (hat : o.gcObjType.atOnce = false)
    (hphase : rt.gcPhase = .removeCycles) :
    release f (d + 1) rt p = some (rt.set p { o with refCount := 0 }) := by
  cases ht : o.gcObjType <;> simp [ht, GcObjType.atOnce] at hat <;>
    simp [release, freeValueZero, asyncFuncFreeZero, ho, hone, ht, hphase]

theorem release_queue {f : Runtime → Option Runtime} (ho : rt.objects p = some o)
    (hone : o.refCount = 1) (hat : o.gcObjType.atOnce = false) (hphase : rt.gcPhase = .decref) :
    ∃ m, (o.gcObjType = .jsObject → m = true) ∧ release f (d + 1) rt p =
      some (((rt.set p { o with refCount := 0 }).toZeroHead p).set p
        { o with refCount := 0, mark := m }) := by
  by_cases ht : o.gcObjType = .asyncFunction
  · refine ⟨o.mark, by simp [ht], ?_⟩
    simp [release, asyncFuncFreeZero, ho, hone, ht, hphase, Runtime.set, Runtime.toZeroHead,
      Runtime.listDel]
  · refine ⟨true, fun _ => rfl, ?_⟩
    cases ht' : o.gcObjType <;> simp [ht', GcObjType.atOnce] at hat ht <;>
      simp [release, freeValueZero, ho, hone, ht', hphase, Runtime.set, Runtime.toZeroHead,
        Runtime.listDel]

/-- The object leaves the lists, and `left` is found in its place in memory. -/
def Runtime.leave (rt : Runtime) (p : ℕ) (left : Option GcObject) : Runtime :=
  { rt.listDel p with objects := Function.update rt.objects p left }

theorem release_none {f : Runtime → Option Runtime} (ho : rt.objects p = some o)
    (hone : o.refCount = 1) (hat : o.gcObjType.atOnce = false) (hphase : rt.gcPhase = .none) :
    ∃ m, (o.gcObjType = .jsObject → m = true) ∧ release f (d + 1) rt p =
      f (((rt.set p { o with refCount := 0 }).toZeroHead p).set p
        { o with refCount := 0, mark := m }) := by
  by_cases ht : o.gcObjType = .asyncFunction
  · refine ⟨o.mark, by simp [ht], ?_⟩
    simp [release, asyncFuncFreeZero, ho, hone, ht, hphase, Runtime.set, Runtime.toZeroHead,
      Runtime.listDel]
  · refine ⟨true, fun _ => rfl, ?_⟩
    cases ht' : o.gcObjType <;> simp [ht', GcObjType.atOnce] at hat ht <;>
      simp [release, freeValueZero, ho, hone, ht', hphase, Runtime.set, Runtime.toZeroHead,
        Runtime.listDel]

/-- Something outside or in the list itself refers to every object of the list. -/
def Supported (held : List Ref) (refs : ℕ → List Ref) (l : List ℕ) : Prop :=
  ∀ p ∈ l, .strong p ∈ held ∨ ∃ q ∈ l, .strong p ∈ refs q

theorem Supported.congr {held : List Ref} {refs refs' : ℕ → List Ref} {l : List ℕ}
    (h : Supported held refs l) (hsame : ∀ q ∈ l, refs' q = refs q) : Supported held refs' l := by
  intro p hp
  rcases h p hp with hheld | ⟨q, hq, hr⟩
  · exact .inl hheld
  · exact .inr ⟨q, hq, hsame q hq ▸ hr⟩

/-- In the middle of freeing. `busy` are the objects that are being freed at once, and `held` is
what the engine keeps in its hands during a collection. -/
structure Releasing (types : ℕ → GcObjType) (held : List Ref) (rt : Runtime) (loose : List Ref)
    (busy : List ℕ) : Prop where
  counted : Counted types rt loose
  phase : rt.gcPhase ≠ .none
  emptied : p ∈ busy → (types p).atOnce = true ∧ p ∈ rt.owners ∧
    ∃ o, rt.objects p = some o ∧ o.refCount = 0 ∧ o.refs = []
  alive : p ∈ rt.gcObjList ∨ (types p).atOnce = true → p ∉ busy → rt.objects p = some o →
    0 < o.refCount
  unmarked : p ∈ rt.gcObjList → rt.objects p = some o → o.mark = false
  marked : p ∈ rt.gcZeroRefCountList ∨ p ∈ rt.tmpObjList → types p = .jsObject →
    rt.objects p = some o → o.mark = true
  queued : rt.gcPhase = .decref → rt.tmpObjList = [] ∧ ∀ p ∈ rt.gcZeroRefCountList,
    (types p).atOnce = false ∧ ∀ o, rt.objects p = some o → o.refCount = 0
  kept : rt.gcPhase = .removeCycles →
    (∀ p, held.count (.strong p) ≤ loose.count (.strong p)) ∧
    Supported held rt.refsOf rt.gcObjList ∧
    ∀ p ∈ rt.gcZeroRefCountList, (types p).atOnce = false → rt.refsOf p = []

/-- What freeing does to the objects that stay. -/
structure Frees (types : ℕ → GcObjType) (rt rt' : Runtime) : Prop where
  stays : p ∈ rt'.gcObjList → p ∈ rt.gcObjList ∧ rt'.refsOf p = rt.refsOf p
  waits : p ∈ rt.gcZeroRefCountList → (types p).atOnce = false →
    p ∈ rt'.gcZeroRefCountList ∧ rt'.refsOf p = rt.refsOf p
  doomed : p ∈ rt.tmpObjList → (types p).atOnce = false →
    p ∈ rt'.tmpObjList ∧ rt'.refsOf p = rt.refsOf p
  work : rt'.gcObjList.length + rt'.gcZeroRefCountList.length ≤
    rt.gcObjList.length + rt.gcZeroRefCountList.length
  phase : rt'.gcPhase = rt.gcPhase
  next : rt'.next = rt.next
  cycles : rt.gcPhase = .removeCycles →
    rt'.gcObjList = rt.gcObjList ∧ rt'.tmpObjList.Sublist rt.tmpObjList

theorem Frees.refl (types : ℕ → GcObjType) (rt : Runtime) : Frees types rt rt :=
  ⟨fun hp => ⟨hp, rfl⟩, fun hp _ => ⟨hp, rfl⟩, fun hp _ => ⟨hp, rfl⟩, Nat.le_refl _, rfl, rfl,
    fun _ => ⟨rfl, .refl _⟩⟩

theorem Frees.trans {types : ℕ → GcObjType} (h : Frees types rt rt') (h' : Frees types rt' rt'') :
    Frees types rt rt'' where
  stays hp :=
    let ⟨hp', hrefs'⟩ := h'.stays hp
    let ⟨hp, hrefs⟩ := h.stays hp'
    ⟨hp, hrefs'.trans hrefs⟩
  waits hp htype :=
    let ⟨hp, hrefs⟩ := h.waits hp htype
    let ⟨hp, hrefs'⟩ := h'.waits hp htype
    ⟨hp, hrefs'.trans hrefs⟩
  doomed hp htype :=
    let ⟨hp, hrefs⟩ := h.doomed hp htype
    let ⟨hp, hrefs'⟩ := h'.doomed hp htype
    ⟨hp, hrefs'.trans hrefs⟩
  work := Nat.le_trans h'.work h.work
  phase := h'.phase.trans h.phase
  next := h'.next.trans h.next
  cycles hphase :=
    let ⟨hgc, htmp⟩ := h.cycles hphase
    let ⟨hgc', htmp'⟩ := h'.cycles (h.phase.trans hphase)
    ⟨hgc'.trans hgc, htmp'.trans htmp⟩

/-- One object changes, but not what it keeps. -/
theorem Frees.of_set (types : ℕ → GcObjType) {rt : Runtime} (ho : rt.objects p = some o)
    (hrefs : o'.refs = o.refs) : Frees types rt (rt.set p o') := by
  have hrefsOf : (rt.set p o').refsOf = rt.refsOf := by
    rw [Runtime.set_refsOf, hrefs, ← Runtime.refsOf_of ho, Function.update_eq_self]
  exact ⟨fun hp => ⟨hp, by rw [hrefsOf]⟩, fun hp _ => ⟨hp, by rw [hrefsOf]⟩,
    fun hp _ => ⟨hp, by rw [hrefsOf]⟩, Nat.le_refl _, rfl, rfl, fun _ => ⟨rfl, .refl _⟩⟩

/-- References can be given back one after the other if each can be, with what is kept on the way
and a relation between the states before and after. -/
theorem dropRefs_ok {J : Runtime → List Ref → Prop} {R : Runtime → Runtime → Prop}
    (free : Runtime → ℕ → Option Runtime) (refs : List Ref) {loose : List Ref}
    (hrefl : ∀ rt, R rt rt) (htrans : ∀ {rt rt' rt''}, R rt rt' → R rt' rt'' → R rt rt'')
    (hfree : ∀ {rt rest p}, .strong p ∈ refs → J rt (.strong p :: (rest ++ loose)) →
      ∃ rt', free rt p = some rt' ∧ J rt' (rest ++ loose) ∧ R rt rt')
    (hweak : ∀ {rt rest p}, J rt (.weak p :: (rest ++ loose)) →
      ∃ rt', jsWeakrefFree rt p = some rt' ∧ J rt' (rest ++ loose) ∧ R rt rt')
    (h : J rt (refs ++ loose)) :
    ∃ rt', dropRefs free rt refs = some rt' ∧ J rt' loose ∧ R rt rt' := by
  induction refs generalizing rt with
  | nil => exact ⟨rt, rfl, h, hrefl rt⟩
  | cons r refs ih =>
    have hfirst : ∃ rt₁, dropRef free rt r = some rt₁ ∧ J rt₁ (refs ++ loose) ∧ R rt rt₁ := by
      cases r with
      | strong p => exact hfree List.mem_cons_self h
      | weak p => exact hweak h
    obtain ⟨rt₁, hdrop, h₁, hR⟩ := hfirst
    obtain ⟨rt', hrest, h', hR'⟩ := ih (fun hp => hfree (List.mem_cons_of_mem _ hp)) h₁
    refine ⟨rt', ?_, h', htrans hR hR'⟩
    rw [dropRefs, List.foldlM_cons, hdrop]
    exact hrest

namespace Releasing

variable {types : ℕ → GcObjType} {held loose loose' : List Ref} {rt rt' : Runtime} {busy : List ℕ}

/-- A collection leaves alone what the engine holds. -/
theorem pos_of_gc (h : Releasing types held rt loose busy) (hphase : rt.gcPhase = .removeCycles)
    (hp : p ∈ rt.gcObjList) (ho : rt.objects p = some o) : 0 < o.refCount := by
  obtain ⟨hheld, hkept, -⟩ := h.kept hphase
  rcases hkept p hp with hp' | ⟨q, hq, hp'⟩
  · refine h.counted.pos_of_loose ho (List.count_pos_iff.mp ?_)
    exact Nat.lt_of_lt_of_le (List.count_pos_iff.mpr hp') (hheld _)
  · exact h.counted.pos_of_refers ho (Runtime.mem_owners.mpr (.inl hq)) hp'

/-- An object that changes neither its mark nor what it keeps. -/
theorem set {o' : GcObject} (h : Releasing types held rt loose busy)
    (hcounted : Counted types (rt.set p o') loose') (ho : rt.objects p = some o)
    (hmark : o'.mark = o.mark) (hrefs : o'.refs = o.refs)
    (hbusy : p ∈ busy → o'.refCount = 0)
    (halive : p ∈ rt.gcObjList ∨ (types p).atOnce = true → p ∉ busy → 0 < o'.refCount)
    (hqueued : o.refCount = 0 → o'.refCount = 0)
    (hheld : rt.gcPhase = .removeCycles →
      ∀ q, held.count (.strong q) ≤ loose'.count (.strong q)) :
    Releasing types held (rt.set p o') loose' busy := by
  have hrefsOf : (rt.set p o').refsOf = rt.refsOf := by
    rw [Runtime.set_refsOf, hrefs, ← Runtime.refsOf_of ho, Function.update_eq_self]
  constructor
  case counted => exact hcounted
  case phase => exact h.phase
  case emptied =>
    intro q hq
    obtain ⟨hat, howned, oq, hoq, hzero, hnil⟩ := h.emptied hq
    refine ⟨hat, howned, ?_⟩
    by_cases hqp : q = p
    · subst hqp
      refine ⟨o', by simp, hbusy hq, hrefs.trans ?_⟩
      rw [ho] at hoq
      cases hoq
      exact hnil
    · exact ⟨oq, by simp [Function.update_of_ne hqp, hoq], hzero, hnil⟩
  case alive =>
    intro q oq hq hnot hoq
    obtain ⟨rfl, rfl⟩ | ⟨-, hoq⟩ := Runtime.of_set hoq
    · exact halive hq hnot
    · exact h.alive hq hnot hoq
  case unmarked =>
    intro q oq hq hoq
    obtain ⟨rfl, rfl⟩ | ⟨-, hoq⟩ := Runtime.of_set hoq
    · exact hmark.trans (h.unmarked hq ho)
    · exact h.unmarked hq hoq
  case marked =>
    intro q oq hq htype hoq
    obtain ⟨rfl, rfl⟩ | ⟨-, hoq⟩ := Runtime.of_set hoq
    · exact hmark.trans (h.marked hq htype ho)
    · exact h.marked hq htype hoq
  case queued =>
    intro hphase
    obtain ⟨htmp, hzero⟩ := h.queued hphase
    refine ⟨htmp, fun q hq => ⟨(hzero q hq).1, fun oq hoq => ?_⟩⟩
    obtain ⟨rfl, rfl⟩ | ⟨-, hoq⟩ := Runtime.of_set hoq
    · exact hqueued ((hzero _ hq).2 o ho)
    · exact (hzero q hq).2 oq hoq
  case kept =>
    intro hphase
    obtain ⟨-, hkept, hnil⟩ := h.kept hphase
    rw [hrefsOf]
    exact ⟨hheld hphase, hkept, hnil⟩

/-- A structure that was left in memory goes. -/
theorem forget (h : Releasing types held rt (.weak p :: loose) busy) (ho : rt.objects p = some o)
    (hp : p ∉ rt.owners) (hone : o.weakrefCount = 1) (o' : GcObject) :
    Releasing types held ((rt.set p o').jsFreeRt p) loose busy ∧
      Frees types rt ((rt.set p o').jsFreeRt p) := by
  have hobjects : ((rt.set p o').jsFreeRt p).objects = Function.update rt.objects p none := by
    simp
  have hnot : ∀ {q}, q ∈ rt.owners → q ≠ p := fun hq hqp => hp (hqp ▸ hq)
  have hat : ∀ {q}, q ∈ rt.owners →
      ((rt.set p o').jsFreeRt p).objects q = rt.objects q := fun hq => by
    rw [hobjects, Function.update_of_ne (hnot hq)]
  have hrefsOf : ∀ {q}, q ∈ rt.owners → ((rt.set p o').jsFreeRt p).refsOf q = rt.refsOf q :=
    fun hq => by rw [Runtime.refsOf, hat hq, Runtime.refsOf]
  have hgc : ∀ {q}, q ∈ rt.gcObjList → q ∈ rt.owners := fun hq => Runtime.mem_owners.mpr (.inl hq)
  have hzero : ∀ {q}, q ∈ rt.gcZeroRefCountList → q ∈ rt.owners :=
    fun hq => Runtime.mem_owners.mpr (.inr (.inl hq))
  have htmp : ∀ {q}, q ∈ rt.tmpObjList → q ∈ rt.owners :=
    fun hq => Runtime.mem_owners.mpr (.inr (.inr hq))
  refine ⟨?_, ⟨fun hq => ⟨hq, hrefsOf (hgc hq)⟩, fun hq _ => ⟨hq, hrefsOf (hzero hq)⟩,
    fun hq _ => ⟨hq, hrefsOf (htmp hq)⟩, Nat.le_refl _, rfl, rfl, fun _ => ⟨rfl, .refl _⟩⟩⟩
  constructor
  case counted => exact h.counted.forget ho hp hone hobjects rfl rfl
  case phase => exact h.phase
  case emptied =>
    intro q hq
    obtain ⟨htype, howned, hempty⟩ := h.emptied hq
    exact ⟨htype, howned, hat howned ▸ hempty⟩
  case alive =>
    intro q oq hq hbusy hoq
    by_cases hqp : q = p
    · rw [hobjects, hqp, Function.update_self] at hoq
      cases hoq
    · rw [hobjects, Function.update_of_ne hqp] at hoq
      exact h.alive hq hbusy hoq
  case unmarked => exact fun hq hoq => h.unmarked hq (hat (hgc hq) ▸ hoq)
  case marked =>
    exact fun hq htype hoq => h.marked hq htype (hat (hq.elim hzero htmp) ▸ hoq)
  case queued =>
    intro hphase
    obtain ⟨hnil, hcounts⟩ := h.queued hphase
    exact ⟨hnil, fun q hq => ⟨(hcounts q hq).1, fun oq hoq =>
      (hcounts q hq).2 oq (hat (hzero hq) ▸ hoq)⟩⟩
  case kept =>
    intro hphase
    obtain ⟨hheld, hkept, hnil⟩ := h.kept hphase
    exact ⟨fun q => by simpa using hheld q, hkept.congr fun q hq => hrefsOf (hgc hq),
      fun q hq htype => (hrefsOf (hzero hq)).trans (hnil q hq htype)⟩

/-- `js_weakref_free` frees no object that the lists hold. -/
theorem jsWeakrefFree (h : Releasing types held rt (.weak p :: loose) busy) :
    ∃ rt', Collector.jsWeakrefFree rt p = some rt' ∧ Releasing types held rt' loose busy ∧
      Frees types rt rt' := by
  obtain ⟨htype, o, ho⟩ := h.counted.heldWeakly List.mem_cons_self
  have hweak := h.counted.weak ho
  rw [List.count_cons_self] at hweak
  obtain ⟨n, hn⟩ := Nat.exists_eq_succ_of_ne_zero (by omega : o.weakrefCount ≠ 0)
  have heval : Collector.jsWeakrefFree rt p =
      some (if n = 0 ∧ o.refCount = 0 ∧ o.mark = false
        then (rt.set p { o with weakrefCount := n }).jsFreeRt p
        else rt.set p { o with weakrefCount := n }) := by
    simp [Collector.jsWeakrefFree, ho, hn]
  by_cases hp : p ∈ rt.owners
  · -- Where it stands, either its count or its mark keeps it.
    have hstays : ¬(n = 0 ∧ o.refCount = 0 ∧ o.mark = false) := by
      rintro ⟨-, hzero, hmark⟩
      rcases Runtime.mem_owners.mp hp with hgc | hrest
      · have hidle : p ∉ busy := fun hbusy => by
          have := (h.emptied hbusy).1
          rw [htype] at this
          cases this
        have := h.alive (.inl hgc) hidle ho
        omega
      · rw [h.marked hrest htype ho] at hmark
        cases hmark
    refine ⟨rt.set p { o with weakrefCount := n }, heval.trans (by rw [if_neg hstays]), ?_,
      Frees.of_set types ho rfl⟩
    refine h.set (h.counted.releaseWeak ho hn (.inl hp)) ho rfl rfl ?_ ?_ id
      fun hphase q => by simpa using (h.kept hphase).1 q
    case refine_2 =>
      intro hgc hbusy
      have := h.alive hgc hbusy ho
      exact this
    intro hbusy
    obtain ⟨-, -, oq, hoq, hzero, -⟩ := h.emptied hbusy
    rw [ho] at hoq
    cases hoq
    exact hzero
  · obtain ⟨-, hcount, hmark, -, -⟩ := h.counted.left ho hp
    have hgc : p ∉ rt.gcObjList := fun hgc => hp (Runtime.mem_owners.mpr (.inl hgc))
    by_cases hzero : n = 0
    · exact ⟨_, heval.trans (by rw [if_pos ⟨hzero, hcount, hmark⟩]),
        h.forget ho hp (by omega) _⟩
    · refine ⟨rt.set p { o with weakrefCount := n },
        heval.trans (by rw [if_neg fun hall => hzero hall.1]), ?_, Frees.of_set types ho rfl⟩
      exact h.set (h.counted.releaseWeak ho hn (.inr (Nat.pos_of_ne_zero hzero))) ho rfl rfl
        (fun _ => hcount) (fun hlist => by simp [htype, GcObjType.atOnce, hgc] at hlist) id
        fun hphase q => by simpa using (h.kept hphase).1 q

/-- Giving back several references, if each of the counted ones can be. -/
theorem dropRefs (free : Runtime → ℕ → Option Runtime) (refs : List Ref)
    (hfree : ∀ {rt loose p}, .strong p ∈ refs → Releasing types held rt (.strong p :: loose) busy →
      (∀ q, held.count (.strong q) ≤ loose.count (.strong q)) →
      ∃ rt', free rt p = some rt' ∧ Releasing types held rt' loose busy ∧ Frees types rt rt')
    (hheld : ∀ q, held.count (.strong q) ≤ loose.count (.strong q))
    (h : Releasing types held rt (refs ++ loose) busy) :
    ∃ rt', Collector.dropRefs free rt refs = some rt' ∧ Releasing types held rt' loose busy ∧
      Frees types rt rt' := by
  refine dropRefs_ok (J := fun rt loose => Releasing types held rt loose busy) free refs
    (.refl types) (fun h h' => h.trans h') (fun {_ rest p} hp h => hfree hp h fun q => ?_)
    (fun h => h.jsWeakrefFree) h
  have := hheld q
  rw [List.count_append]
  omega

/-- The last reference goes to an object that is queued for it, while the queue is worked off. -/
theorem enqueue (h : Releasing types held rt (.strong p :: loose) busy)
    (hphase : rt.gcPhase = .decref) (ho : rt.objects p = some o) (hone : o.refCount = 1)
    (hat : (types p).atOnce = false)
    (hcounted : Counted types (rt.set p { o with refCount := 0 }) loose) {m : Bool}
    (hmark : types p = .jsObject → m = true) :
    Releasing types held
        (((rt.set p { o with refCount := 0 }).toZeroHead p).set p
          { o with refCount := 0, mark := m }) loose busy ∧
      Frees types rt (((rt.set p { o with refCount := 0 }).toZeroHead p).set p
          { o with refCount := 0, mark := m }) := by
  obtain ⟨htmp, hcounts⟩ := h.queued hphase
  have hapart := Runtime.apart h.counted.nodup
  have howned : p ∈ rt.owners := h.counted.held List.mem_cons_self
  have hnot : p ∉ rt.gcZeroRefCountList := fun hp => by
    have := (hcounts p hp).2 o ho
    omega
  have hgc : p ∈ rt.gcObjList := by
    simpa [Runtime.mem_owners, hnot, htmp] using howned
  have hidle : p ∉ busy := fun hbusy => by
    have := (h.emptied hbusy).1
    rw [hat] at this
    cases this
  have hlists : ((rt.set p { o with refCount := 0 }).toZeroHead p).owners.Perm
      (rt.set p { o with refCount := 0 }).owners :=
    Runtime.toZeroHead_owners h.counted.nodup howned
  have hmoved : Counted types ((rt.set p { o with refCount := 0 }).toZeroHead p) loose :=
    hcounted.lists rfl rfl hlists
  have hzero : (rt.gcZeroRefCountList).erase p = rt.gcZeroRefCountList :=
    List.erase_of_not_mem hnot
  have hrefsOf : ∀ q, ((((rt.set p { o with refCount := 0 }).toZeroHead p).set p
      { o with refCount := 0, mark := m }).refsOf q) = rt.refsOf q := by
    intro q
    by_cases hq : q = p
    · subst hq
      simp [Runtime.refsOf_of ho]
    · simp [Runtime.refsOf, Runtime.toZeroHead, Function.update_of_ne hq]
  have hkeep : ∀ {q oq}, (((rt.set p { o with refCount := 0 }).toZeroHead p).set p
      { o with refCount := 0, mark := m }).objects q = some oq →
      (q = p ∧ oq = { o with refCount := 0, mark := m }) ∨ (q ≠ p ∧ rt.objects q = some oq) := by
    intro q oq hoq
    rcases Runtime.of_set hoq with hp | ⟨hq, hoq⟩
    · exact .inl hp
    · exact .inr ⟨hq, by simpa [Runtime.toZeroHead, Function.update_of_ne hq] using hoq⟩
  constructor
  · constructor
    case counted =>
      have hthere : ((rt.set p { o with refCount := 0 }).toZeroHead p).objects p =
          some { o with refCount := 0 } := by simp [Runtime.toZeroHead]
      exact hmoved.mark hthere (hlists.mem_iff.mpr howned) m
    case phase => exact h.phase
    case emptied =>
      intro q hq
      obtain ⟨hat', howned', oq, hoq, hempty⟩ := h.emptied hq
      have hqp : q ≠ p := fun hqp => hidle (hqp ▸ hq)
      refine ⟨hat', hlists.mem_iff.mpr howned', oq, ?_, hempty⟩
      simp [Runtime.toZeroHead, Function.update_of_ne hqp, hoq]
    case alive =>
      intro q oq hq hbusy hoq
      obtain ⟨rfl, rfl⟩ | ⟨-, hoq⟩ := hkeep hoq
      · rw [hat] at hq
        exact absurd (hq.resolve_right Bool.false_ne_true) hapart.gc.not_mem_erase
      · exact h.alive (hq.imp_left List.mem_of_mem_erase) hbusy hoq
    case unmarked =>
      intro q oq hq hoq
      obtain ⟨rfl, rfl⟩ | ⟨-, hoq⟩ := hkeep hoq
      · exact absurd hq (hapart.gc.not_mem_erase)
      · exact h.unmarked (List.mem_of_mem_erase hq) hoq
    case marked =>
      intro q oq hq htype hoq
      obtain ⟨rfl, rfl⟩ | ⟨hqp, hoq⟩ := hkeep hoq
      · exact hmark htype
      · refine h.marked ?_ htype hoq
        simpa [Runtime.toZeroHead, hqp, hzero, htmp] using hq
    case queued =>
      intro _
      refine ⟨by simp [Runtime.toZeroHead, htmp], fun q hq => ?_⟩
      by_cases hqp : q = p
      · subst hqp
        refine ⟨hat, fun oq hoq => ?_⟩
        obtain ⟨-, rfl⟩ | ⟨hne, -⟩ := hkeep hoq
        · rfl
        · exact absurd rfl hne
      · have hq' : q ∈ rt.gcZeroRefCountList := by
          simpa [Runtime.toZeroHead, hqp, hzero] using hq
        refine ⟨(hcounts q hq').1, fun oq hoq => ?_⟩
        obtain ⟨hqp', -⟩ | ⟨-, hoq⟩ := hkeep hoq
        · exact absurd hqp' hqp
        · exact (hcounts q hq').2 oq hoq
    case kept =>
      intro hcycles
      have : rt.gcPhase = .removeCycles := hcycles
      rw [hphase] at this
      cases this
  · refine ⟨fun {q} hq => ⟨List.mem_of_mem_erase hq, hrefsOf q⟩, fun {q} hq _ => ⟨?_, hrefsOf q⟩,
      fun {q} hq _ => ?_, ?_, rfl, rfl, ?_⟩
    · simp [Runtime.toZeroHead, hzero, hq]
    · rw [htmp] at hq
      cases hq
    · have := List.length_erase_of_mem hgc
      have := List.length_pos_of_mem hgc
      simp only [Runtime.set_gcObjList, Runtime.set_zeroList, Runtime.toZeroHead,
        Runtime.listDel_gcObjList, Runtime.listDel_zeroList, List.length_cons, hzero]
      omega
    · intro hcycles
      rw [hphase] at hcycles
      cases hcycles

/-- In a collection no object that is to stay loses its last reference. -/
theorem not_gc (h : Releasing types held rt (.strong p :: loose) busy)
    (hphase : rt.gcPhase = .removeCycles) (ho : rt.objects p = some o) {o' : GcObject}
    (hcounted : Counted types (rt.set p o') loose) (hrefs : o'.refs = o.refs)
    (hzero : o'.refCount = 0)
    (hheld : ∀ q, held.count (.strong q) ≤ loose.count (.strong q)) : p ∉ rt.gcObjList := by
  intro hp
  have hrefsOf : (rt.set p o').refsOf = rt.refsOf := by
    rw [Runtime.set_refsOf, hrefs, ← Runtime.refsOf_of ho, Function.update_eq_self]
  have hthere : (rt.set p o').objects p = some o' := by simp
  rcases (h.kept hphase).2.1 p hp with hp' | ⟨q, hq, hp'⟩
  · have hloose := Nat.lt_of_lt_of_le (List.count_pos_iff.mpr hp') (hheld p)
    have := hcounted.pos_of_loose hthere (List.count_pos_iff.mp hloose)
    omega
  · have := hcounted.pos_of_refers hthere (Runtime.mem_owners.mpr (.inl hq)) (hrefsOf ▸ hp')
    omega

/-- An object without references is asked for what it keeps. -/
theorem start (h : Releasing types held rt (.strong p :: loose) busy) (ho : rt.objects p = some o)
    (hat : (types p).atOnce = true)
    (hcounted : Counted types (rt.set p { o with refCount := 0 }) loose)
    (hheld : ∀ q, held.count (.strong q) ≤ loose.count (.strong q)) :
    Releasing types held
      ((rt.set p { o with refCount := 0 }).set p { o with refCount := 0, refs := [] })
      (o.refs ++ loose) (p :: busy) := by
  have howned : p ∈ rt.owners := h.counted.held List.mem_cons_self
  have hthere : (rt.set p { o with refCount := 0 }).objects p = some { o with refCount := 0 } := by
    simp
  have hkeep : ∀ {q oq}, ((rt.set p { o with refCount := 0 }).set p
      { o with refCount := 0, refs := [] }).objects q = some oq →
      (q = p ∧ oq = { o with refCount := 0, refs := [] }) ∨ (q ≠ p ∧ rt.objects q = some oq) := by
    intro q oq hoq
    rcases Runtime.of_set hoq with hp | ⟨hq, hoq⟩
    · exact .inl hp
    · exact .inr ⟨hq, by simpa [Function.update_of_ne hq] using hoq⟩
  constructor
  case counted => exact hcounted.take hthere howned
  case phase => exact h.phase
  case emptied =>
    intro q hq
    by_cases hqp : q = p
    · subst hqp
      exact ⟨hat, howned, { o with refCount := 0, refs := [] }, by simp, rfl, rfl⟩
    · obtain ⟨hat', howned', oq, hoq, hempty⟩ := h.emptied (List.mem_of_ne_of_mem hqp hq)
      exact ⟨hat', howned', oq, by simp [Function.update_of_ne hqp, hoq], hempty⟩
  case alive =>
    intro q oq hq hbusy hoq
    obtain ⟨rfl, rfl⟩ | ⟨-, hoq⟩ := hkeep hoq
    · exact absurd List.mem_cons_self hbusy
    · exact h.alive hq (fun hmem => hbusy (List.mem_cons_of_mem _ hmem)) hoq
  case unmarked =>
    intro q oq hq hoq
    obtain ⟨rfl, rfl⟩ | ⟨-, hoq⟩ := hkeep hoq
    · have := h.unmarked hq ho
      exact this
    · exact h.unmarked hq hoq
  case marked =>
    intro q oq hq htype hoq
    obtain ⟨rfl, rfl⟩ | ⟨-, hoq⟩ := hkeep hoq
    · rw [htype] at hat
      cases hat
    · exact h.marked hq htype hoq
  case queued =>
    intro hphase
    obtain ⟨htmp, hcounts⟩ := h.queued hphase
    refine ⟨htmp, fun q hq => ⟨(hcounts q hq).1, fun oq hoq => ?_⟩⟩
    obtain ⟨rfl, rfl⟩ | ⟨-, hoq⟩ := hkeep hoq
    · rfl
    · exact (hcounts q hq).2 oq hoq
  case kept =>
    intro hphase
    obtain ⟨-, hkept, hnil⟩ := h.kept hphase
    have hgc := h.not_gc hphase ho hcounted rfl rfl hheld
    have hrefsOf : ∀ {q}, q ≠ p → ((rt.set p { o with refCount := 0 }).set p
        { o with refCount := 0, refs := [] }).refsOf q = rt.refsOf q := fun hq => by
      simp [Function.update_of_ne hq]
    refine ⟨fun q => ?_, hkept.congr fun q hq => hrefsOf fun hqp => hgc (hqp ▸ hq),
      fun q hq htype => ?_⟩
    · have := hheld q
      rw [List.count_append]
      omega
    · rw [hrefsOf fun hqp => by rw [hqp, hat] at htype; cases htype]
      exact hnil q hq htype

/-- An object that was asked for what it keeps leaves the lists, and leaves at most its structure
behind. -/
theorem leave {busy' : List ℕ} (h : Releasing types held rt loose busy') (hp : p ∈ rt.owners)
    (ho : rt.objects p = some o) (hzero : o.refCount = 0) (hnil : o.refs = [])
    (hbusy : ∀ q, q ∈ busy → q ≠ p ∧ q ∈ busy') (hbusy' : ∀ q, q ∈ busy' → q ≠ p → q ∈ busy)
    (left : Option GcObject) (hnone : left = none → o.weakrefCount = 0)
    (hsome : ∀ o', left = some o' → o' = { o with mark := false } ∧
      types p = .jsObject ∧ o.weakrefCount ≠ 0) :
    Releasing types held (rt.leave p left) loose busy := by
  have hapart := Runtime.apart h.counted.nodup
  have hat : ∀ {q}, q ≠ p → Function.update rt.objects p left q = rt.objects q :=
    fun hq => Function.update_of_ne hq ..
  have hlists : ∀ {q} {l : List ℕ}, l.Nodup → q ∈ l.erase p → q ≠ p ∧ q ∈ l :=
    fun hl hq => hl.mem_erase_iff.mp hq
  constructor
  case counted =>
    exact h.counted.unlist ho hp hzero hnil left hnone hsome rfl rfl
      (rt.listDel_owners p h.counted.nodup)
  case phase => exact h.phase
  case emptied =>
    intro q hq
    obtain ⟨hqp, hq⟩ := hbusy q hq
    obtain ⟨htype, howned, oq, hoq, hempty⟩ := h.emptied hq
    refine ⟨htype, ?_, oq, (hat hqp).trans hoq, hempty⟩
    have hdel := rt.listDel_owners p h.counted.nodup
    rw [Runtime.owners] at hdel ⊢
    exact hdel ▸ h.counted.nodup.mem_erase_iff.mpr ⟨hqp, howned⟩
  case alive =>
    intro q oq hq hidle hoq
    have hqp : q ≠ p := by
      rintro rfl
      rcases hq with hq | hq
      · exact hapart.gc.not_mem_erase hq
      · have hleft : left = some oq := by simpa [Runtime.leave] using hoq
        rw [(hsome oq hleft).2.1] at hq
        cases hq
    exact h.alive (hq.imp_left List.mem_of_mem_erase) (fun hmem => hidle (hbusy' q hmem hqp))
      ((hat hqp).symm.trans hoq)
  case unmarked =>
    intro q oq hq hoq
    obtain ⟨hqp, hq⟩ := hlists hapart.gc hq
    exact h.unmarked hq ((hat hqp).symm.trans hoq)
  case marked =>
    intro q oq hq htype hoq
    rcases hq with hq | hq
    · obtain ⟨hqp, hq⟩ := hlists hapart.zero hq
      exact h.marked (.inl hq) htype ((hat hqp).symm.trans hoq)
    · obtain ⟨hqp, hq⟩ := hlists hapart.tmp hq
      exact h.marked (.inr hq) htype ((hat hqp).symm.trans hoq)
  case queued =>
    intro hphase
    obtain ⟨htmp, hcounts⟩ := h.queued hphase
    refine ⟨by simp [Runtime.leave, htmp], fun q hq => ?_⟩
    obtain ⟨hqp, hq⟩ := hlists hapart.zero hq
    obtain ⟨htype, hcount⟩ := hcounts q hq
    exact ⟨htype, fun oq hoq => hcount oq ((hat hqp).symm.trans hoq)⟩
  case kept =>
    intro hphase
    obtain ⟨hheld, hkept, hempty⟩ := h.kept hphase
    have hgc : p ∉ rt.gcObjList := fun hmem => by
      have := h.pos_of_gc hphase hmem ho
      omega
    have hrefsOf : ∀ {q}, q ≠ p → (rt.leave p left).refsOf q = rt.refsOf q :=
      fun hq => congrArg (Option.elim · [] GcObject.refs) (hat hq)
    have hsame : (rt.leave p left).gcObjList = rt.gcObjList := List.erase_of_not_mem hgc
    refine ⟨hheld, ?_, fun q hq htype => ?_⟩
    · rw [hsame]
      exact hkept.congr fun q hq => hrefsOf fun hqp => hgc (hqp ▸ hq)
    · obtain ⟨hqp, hq⟩ := hlists hapart.zero hq
      rw [hrefsOf hqp]
      exact hempty q hq htype

/-- The end of an object that is freed at once. -/
theorem stop (h : Releasing types held rt loose (p :: busy)) (hp : p ∉ busy) :
    Releasing types held ((rt.listDel p).jsFreeRt p) loose busy := by
  obtain ⟨hat, howned, o, ho, hzero, hnil⟩ := h.emptied List.mem_cons_self
  refine h.leave howned ho hzero hnil ?_ ?_ none ?_ fun _ h => nomatch h
  · exact fun q hq => ⟨fun hqp => hp (hqp ▸ hq), List.mem_cons_of_mem _ hq⟩
  · exact fun q hq hqp => List.mem_of_ne_of_mem hqp hq
  · refine fun _ => h.counted.no_weak ho fun htype => ?_
    rw [htype] at hat
    cases hat

/-- An object that waits to be freed is asked for what it keeps. -/
theorem ask (h : Releasing types held rt loose busy) (ho : rt.objects p = some o)
    (hp : p ∈ rt.gcZeroRefCountList ∨ p ∈ rt.tmpObjList) (hat : (types p).atOnce = false) :
    Releasing types held (rt.set p { o with refs := [] }) (o.refs ++ loose) busy := by
  have hapart := Runtime.apart h.counted.nodup
  have howned : p ∈ rt.owners := Runtime.mem_owners.mpr (.inr hp)
  have hgc : p ∉ rt.gcObjList := fun hgc =>
    hp.elim (hapart.not_zero hgc) (hapart.not_tmp hgc)
  have hrefsOf : ∀ {q}, q ≠ p → (rt.set p { o with refs := [] }).refsOf q = rt.refsOf q :=
    fun hq => by simp [Function.update_of_ne hq]
  constructor
  case counted => exact h.counted.take ho howned
  case phase => exact h.phase
  case emptied =>
    intro q hq
    obtain ⟨hat', howned', oq, hoq, hempty⟩ := h.emptied hq
    have hqp : q ≠ p := by
      rintro rfl
      rw [hat] at hat'
      cases hat'
    exact ⟨hat', howned', oq, by simp [Function.update_of_ne hqp, hoq], hempty⟩
  case alive =>
    intro q oq hq hidle hoq
    obtain ⟨rfl, rfl⟩ | ⟨-, hoq⟩ := Runtime.of_set hoq
    · simp [hgc, hat] at hq
    · exact h.alive hq hidle hoq
  case unmarked =>
    intro q oq hq hoq
    obtain ⟨rfl, rfl⟩ | ⟨-, hoq⟩ := Runtime.of_set hoq
    · exact absurd hq hgc
    · exact h.unmarked hq hoq
  case marked =>
    intro q oq hq htype hoq
    obtain ⟨rfl, rfl⟩ | ⟨-, hoq⟩ := Runtime.of_set hoq
    · have := h.marked hq htype ho
      exact this
    · exact h.marked hq htype hoq
  case queued =>
    intro hphase
    obtain ⟨htmp, hcounts⟩ := h.queued hphase
    refine ⟨htmp, fun q hq => ⟨(hcounts q hq).1, fun oq hoq => ?_⟩⟩
    obtain ⟨rfl, rfl⟩ | ⟨-, hoq⟩ := Runtime.of_set hoq
    · have := (hcounts _ hq).2 o ho
      exact this
    · exact (hcounts q hq).2 oq hoq
  case kept =>
    intro hphase
    obtain ⟨hheld, hkept, hempty⟩ := h.kept hphase
    refine ⟨fun q => ?_, hkept.congr fun q hq => hrefsOf fun hqp => hgc (hqp ▸ hq),
      fun q hq htype => ?_⟩
    · have := hheld q
      rw [List.count_append]
      omega
    · by_cases hqp : q = p
      · subst hqp
        simp
      · rw [hrefsOf hqp]
        exact hempty q hq htype

/-- An object of the collection is set aside until the others are freed. -/
theorem setAside (h : Releasing types held rt loose []) (hphase : rt.gcPhase = .removeCycles)
    (hp : p ∈ rt.tmpObjList) (hnil : (types p).atOnce = false → rt.refsOf p = []) :
    Releasing types held (rt.toZeroTail p) loose [] := by
  have hapart := Runtime.apart h.counted.nodup
  have hgc : p ∉ rt.gcObjList := fun hgc => hapart.not_tmp hgc hp
  have hsame : rt.gcObjList.erase p = rt.gcObjList := List.erase_of_not_mem hgc
  have hzero : ∀ {q}, q ∈ rt.gcZeroRefCountList.erase p ++ [p] →
      q ∈ rt.gcZeroRefCountList ∨ q = p := by
    intro q hq
    rcases List.mem_append.mp hq with hq | hq
    · exact .inl (List.mem_of_mem_erase hq)
    · exact .inr (List.mem_singleton.mp hq)
  constructor
  case counted =>
    exact h.counted.lists rfl rfl
      (Runtime.toZeroTail_owners h.counted.nodup (Runtime.mem_owners.mpr (.inr (.inr hp))))
  case phase => exact h.phase
  case emptied => exact fun hq => nomatch hq
  case alive =>
    exact fun hq hidle hoq => h.alive (hq.imp_left List.mem_of_mem_erase) hidle hoq
  case unmarked => exact fun hq hoq => h.unmarked (List.mem_of_mem_erase hq) hoq
  case marked =>
    intro q oq hq htype hoq
    refine h.marked ?_ htype hoq
    rcases hq with hq | hq
    · refine (hzero hq).imp_right ?_
      rintro rfl
      exact hp
    · exact .inr (List.mem_of_mem_erase hq)
  case queued =>
    intro hdecref
    have : rt.gcPhase = .decref := hdecref
    rw [hphase] at this
    cases this
  case kept =>
    intro _
    obtain ⟨hheld, hkept, hempty⟩ := h.kept hphase
    refine ⟨hheld, fun q hq => ?_, fun q hq htype => ?_⟩
    · have hlist : (rt.toZeroTail p).gcObjList = rt.gcObjList := hsame
      rw [hlist] at hq ⊢
      exact hkept q hq
    · rcases hzero hq with hq | rfl
      · exact hempty q hq htype
      · exact hnil htype

end Releasing

/-- What goes when an object is freed at once, its references included. -/
theorem Frees.around {types : ℕ → GcObjType} (hat : (types p).atOnce = true)
    (hgc : rt.gcPhase = .removeCycles → p ∉ rt.gcObjList) (hnodup : rt'.owners.Nodup)
    (h : Frees types ((rt.set p o').set p o'') rt') :
    Frees types rt ((rt'.listDel p).jsFreeRt p) := by
  have hbefore : ∀ {q}, q ≠ p → ((rt.set p o').set p o'').refsOf q = rt.refsOf q :=
    fun hq => by simp [Function.update_of_ne hq]
  have hafter : ∀ {q}, q ≠ p → ((rt'.listDel p).jsFreeRt p).refsOf q = rt'.refsOf q :=
    fun hq => by simp [Function.update_of_ne hq]
  have hother : ∀ {q}, (types q).atOnce = false → q ≠ p := by
    rintro q htype rfl
    rw [hat] at htype
    cases htype
  constructor
  case stays =>
    intro q hq
    obtain ⟨hqp, hq⟩ := (Runtime.apart hnodup).gc.mem_erase_iff.mp hq
    obtain ⟨hq, hrefs⟩ := h.stays hq
    exact ⟨hq, (hafter hqp).trans (hrefs.trans (hbefore hqp))⟩
  case waits =>
    intro q hq htype
    obtain ⟨hq, hrefs⟩ := h.waits hq htype
    have hqp := hother htype
    exact ⟨(List.mem_erase_of_ne hqp).mpr hq, (hafter hqp).trans (hrefs.trans (hbefore hqp))⟩
  case doomed =>
    intro q hq htype
    obtain ⟨hq, hrefs⟩ := h.doomed hq htype
    have hqp := hother htype
    exact ⟨(List.mem_erase_of_ne hqp).mpr hq, (hafter hqp).trans (hrefs.trans (hbefore hqp))⟩
  case work =>
    have := h.work
    have := (List.erase_sublist (a := p) (l := rt'.gcObjList)).length_le
    have := (List.erase_sublist (a := p) (l := rt'.gcZeroRefCountList)).length_le
    simp only [Runtime.set_gcObjList, Runtime.set_zeroList] at *
    simp only [Runtime.jsFreeRt_gcObjList, Runtime.jsFreeRt_zeroList, Runtime.listDel_gcObjList,
      Runtime.listDel_zeroList]
    omega
  case phase => exact h.phase
  case next => exact h.next
  case cycles =>
    intro hphase
    obtain ⟨hsame, htmp⟩ := h.cycles hphase
    refine ⟨?_, List.Sublist.trans List.erase_sublist htmp⟩
    rw [Runtime.jsFreeRt_gcObjList, Runtime.listDel_gcObjList, hsame]
    exact List.erase_of_not_mem (hgc hphase)

namespace Releasing

variable {types : ℕ → GcObjType} {held loose loose' : List Ref} {rt rt' : Runtime} {busy : List ℕ}

/-- Every reference can be given back. -/
theorem release {freeZeroRefcount : Runtime → Option Runtime}
    (h : Releasing types held rt (.strong p :: loose) busy)
    (hheld : ∀ q, held.count (.strong q) ≤ loose.count (.strong q))
    (hdepth : (types p).depth ≤ d) :
    ∃ rt', Collector.release freeZeroRefcount d rt p = some rt' ∧
      Releasing types held rt' loose busy ∧ Frees types rt rt' := by
  induction d generalizing rt p loose busy with
  | zero => cases ht : types p <;> simp [ht, GcObjType.depth] at hdepth
  | succ d ih =>
    obtain ⟨o, n, ho, hn, hcounted⟩ := h.counted.release
    have htype : o.gcObjType = types p := h.counted.type ho
    have hidle : p ∉ busy := fun hbusy => by
      obtain ⟨-, -, oq, hoq, hzero, -⟩ := h.emptied hbusy
      rw [ho] at hoq
      cases hoq
      omega
    by_cases hlast : n = 0
    · subst hlast
      by_cases hat : (types p).atOnce = true
      · have hthere : (rt.set p { o with refCount := 0 }).objects p =
            some { o with refCount := 0 } := by simp
        have hdrop := (h.start ho hat hcounted hheld).dropRefs
          (Collector.release freeZeroRefcount d) o.refs ?_ hheld
        · obtain ⟨rt', heval, h', hframe⟩ := hdrop
          have hgc : rt.gcPhase = .removeCycles → p ∉ rt.gcObjList :=
            fun hphase => h.not_gc hphase ho hcounted rfl rfl hheld
          refine ⟨(rt'.listDel p).jsFreeRt p, ?_, h'.stop hidle,
            hframe.around hat hgc h'.counted.nodup⟩
          rw [release_atOnce ho hn (htype ▸ hat), freeAtOnce, hthere]
          exact congrArg (Option.bind · fun rt => some ((rt.listDel p).jsFreeRt p)) heval
        · intro rt₁ loose₁ c hc h₁ hheld₁
          have hrefers := (h.counted.refs_owned ho hc).2
          have := GcObjType.depth_lt hat hrefers
          exact ih h₁ hheld₁ (by omega)
      · have hat : (types p).atOnce = false := by simpa using hat
        cases hphase : rt.gcPhase with
        | none => exact absurd hphase h.phase
        | decref =>
          obtain ⟨m, hmark, heval⟩ := release_queue (f := freeZeroRefcount) (d := d) ho hn
            (htype ▸ hat) hphase
          obtain ⟨h', hframe⟩ := h.enqueue hphase ho hn hat hcounted fun ht => hmark (htype ▸ ht)
          exact ⟨_, heval, h', hframe⟩
        | removeCycles =>
          refine ⟨_, release_cycles ho hn (htype ▸ hat) hphase, ?_, .of_set types ho rfl⟩
          have hgc := h.not_gc hphase ho hcounted rfl rfl hheld
          exact h.set hcounted ho rfl rfl (fun _ => rfl) (fun hp => by simp [hgc, hat] at hp)
            (fun _ => rfl) fun _ => hheld
    · refine ⟨rt.set p { o with refCount := n }, ?_, ?_, .of_set types ho rfl⟩
      · exact release_live ho hn hlast
      · refine h.set hcounted ho rfl rfl (fun hbusy => absurd hbusy hidle) ?_ ?_ fun _ => hheld
        · exact fun _ _ => Nat.pos_of_ne_zero hlast
        · intro hzero
          omega

end Releasing

-- ---------------------------------------------------------------------------
-- The two loops that free
-- ---------------------------------------------------------------------------

/-- What stays keeps what it refers to. -/
structure Survives (rt rt' : Runtime) : Prop where
  stays : p ∈ rt'.gcObjList → p ∈ rt.gcObjList ∧ rt'.refsOf p = rt.refsOf p
  phase : rt'.gcPhase = rt.gcPhase
  next : rt'.next = rt.next

theorem Survives.refl (rt : Runtime) : Survives rt rt := ⟨fun hp => ⟨hp, rfl⟩, rfl, rfl⟩

theorem Survives.trans (h : Survives rt rt') (h' : Survives rt' rt'') : Survives rt rt'' where
  stays hp :=
    let ⟨hp', hrefs'⟩ := h'.stays hp
    let ⟨hp, hrefs⟩ := h.stays hp'
    ⟨hp, hrefs'.trans hrefs⟩
  phase := h'.phase.trans h.phase
  next := h'.next.trans h.next

theorem Frees.survives {types : ℕ → GcObjType} (h : Frees types rt rt') : Survives rt rt' :=
  ⟨h.stays, h.phase, h.next⟩

theorem Survives.around (hnodup : rt'.owners.Nodup)
    (h : Survives ((rt.set p o').set p o'') rt') : Survives rt ((rt'.listDel p).jsFreeRt p) where
  stays := by
    intro q hq
    obtain ⟨hqp, hq⟩ := (Runtime.apart hnodup).gc.mem_erase_iff.mp hq
    obtain ⟨hq, hrefs⟩ := h.stays hq
    refine ⟨hq, ?_⟩
    calc ((rt'.listDel p).jsFreeRt p).refsOf q
        = rt'.refsOf q := by simp [Function.update_of_ne hqp]
      _ = ((rt.set p o').set p o'').refsOf q := hrefs
      _ = rt.refsOf q := by simp [Function.update_of_ne hqp]
  phase := h.phase
  next := h.next

/-- How many objects `free_zero_refcount` may come to. -/
def Runtime.work (rt : Runtime) : ℕ := rt.gcObjList.length + rt.gcZeroRefCountList.length

theorem freeGcObject_eq (ho : rt.objects p = some o) (hat : o.gcObjType.atOnce = false)
    (hdrop : dropRefs (release (fun _ => none) releaseDepth) (rt.set p { o with refs := [] })
      o.refs = some rt') (ho' : rt'.objects p = some o') :
    freeGcObject rt p = some (
      if rt'.gcPhase = .removeCycles then
        if o'.refCount = 0 ∧ (o'.gcObjType = .jsObject → o'.weakrefCount = 0) then
          (rt'.listDel p).jsFreeRt p
        else rt'.toZeroTail p
      else if o'.gcObjType = .jsObject ∧ o'.weakrefCount ≠ 0 then
        (rt'.listDel p).set p { o' with mark := false }
      else (rt'.listDel p).jsFreeRt p) := by
  cases ht : o.gcObjType <;> simp [ht, GcObjType.atOnce] at hat <;> rw [ht] at hdrop <;>
    simp only [freeGcObject, ho, ht, hdrop, ho', Option.bind_eq_bind, Option.bind_some] <;>
    grind

section Loops

variable {types : ℕ → GcObjType} {held loose : List Ref} {busy : List ℕ}

/-- What an object that waits keeps can all be given back. -/
theorem Releasing.asked (h : Releasing types held rt loose busy) (ho : rt.objects p = some o)
    (hp : p ∈ rt.gcZeroRefCountList ∨ p ∈ rt.tmpObjList) (hat : (types p).atOnce = false)
    (hheld : ∀ q, held.count (.strong q) ≤ loose.count (.strong q)) :
    ∃ rt', Collector.dropRefs (Collector.release (fun _ => none) releaseDepth)
        (rt.set p { o with refs := [] }) o.refs = some rt' ∧
      Releasing types held rt' loose busy ∧ Frees types (rt.set p { o with refs := [] }) rt' :=
  (h.ask ho hp hat).dropRefs _ _ (fun _ h' hheld' => h'.release hheld' (GcObjType.depth_le _)) hheld

theorem Survives.leave (h : Frees types (rt.set p o') rt') (hp : p ∉ rt.gcObjList)
    (left : Option GcObject) : Survives rt (rt'.leave p left) where
  stays := by
    intro q hq
    obtain ⟨hq, hrefs⟩ := h.stays (List.mem_of_mem_erase hq)
    have hqp : q ≠ p := by
      rintro rfl
      exact hp hq
    refine ⟨hq, ?_⟩
    calc (rt'.leave p left).refsOf q
        = rt'.refsOf q := congrArg (Option.elim · [] GcObject.refs) (Function.update_of_ne hqp ..)
      _ = (rt.set p o').refsOf q := hrefs
      _ = rt.refsOf q := by simp [Function.update_of_ne hqp]
  phase := h.phase
  next := h.next

/-- `free_gc_object` of the first object of the queue. -/
theorem freeGcObject_queued (h : Releasing types held rt loose busy)
    (hheld : ∀ q, held.count (.strong q) ≤ loose.count (.strong q))
    (hphase : rt.gcPhase = .decref) (hp : p ∈ rt.gcZeroRefCountList) :
    ∃ o rt', rt.objects p = some o ∧ o.refCount = 0 ∧ freeGcObject rt p = some rt' ∧
      Releasing types held rt' loose busy ∧ Survives rt rt' ∧ rt'.work < rt.work := by
  obtain ⟨o, ho⟩ := h.counted.present (Runtime.mem_owners.mpr (.inr (.inl hp)))
  obtain ⟨htype, hcount⟩ := (h.queued hphase).2 p hp
  have hgc : p ∉ rt.gcObjList := fun hgc => (Runtime.apart h.counted.nodup).not_zero hgc hp
  obtain ⟨rt₁, hdrop, h₁, hframe⟩ := h.asked ho (.inl hp) htype hheld
  obtain ⟨hp₁, hrefs₁⟩ := hframe.waits hp htype
  have hphase₁ : rt₁.gcPhase = .decref := hframe.phase.trans hphase
  have howned₁ : p ∈ rt₁.owners := Runtime.mem_owners.mpr (.inr (.inl hp₁))
  obtain ⟨o₁, ho₁⟩ := h₁.counted.present howned₁
  have hzero₁ := ((h₁.queued hphase₁).2 p hp₁).2 o₁ ho₁
  have hnil₁ : o₁.refs = [] := by
    rw [← Runtime.refsOf_of ho₁, hrefs₁]
    simp
  have hwork : ∀ left, (rt₁.leave p left).work < rt.work := by
    intro left
    have := hframe.work
    have := List.length_erase_of_mem hp₁
    have := List.length_pos_of_mem hp₁
    have := (List.erase_sublist (a := p) (l := rt₁.gcObjList)).length_le
    simp only [Runtime.set_gcObjList, Runtime.set_zeroList] at *
    simp only [Runtime.work, Runtime.leave, Runtime.listDel_gcObjList, Runtime.listDel_zeroList]
    omega
  have heval := freeGcObject_eq ho ((h.counted.type ho).symm ▸ htype) hdrop ho₁
  rw [if_neg (by simp [hphase₁])] at heval
  have hbusy : ∀ q, q ∈ busy → q ≠ p ∧ q ∈ busy := by
    refine fun q hq => ⟨?_, hq⟩
    rintro rfl
    have := (h.emptied hq).1
    rw [htype] at this
    cases this
  refine ⟨o, ?_⟩
  by_cases hweak : o₁.gcObjType = .jsObject ∧ o₁.weakrefCount ≠ 0
  · rw [if_pos hweak] at heval
    refine ⟨rt₁.leave p (some { o₁ with mark := false }), ho, hcount o ho, heval, ?_,
      .leave hframe hgc _, hwork _⟩
    refine h₁.leave howned₁ ho₁ hzero₁ hnil₁ hbusy (fun _ hq _ => hq) _ (fun h => nomatch h) ?_
    intro o' ho'
    cases ho'
    exact ⟨rfl, h₁.counted.type ho₁ ▸ hweak.1, hweak.2⟩
  · rw [if_neg hweak] at heval
    refine ⟨rt₁.leave p none, ho, hcount o ho, heval, ?_, .leave hframe hgc _, hwork _⟩
    refine h₁.leave howned₁ ho₁ hzero₁ hnil₁ hbusy (fun _ hq _ => hq) _ (fun _ => ?_)
      fun _ h => nomatch h
    by_cases hobject : o₁.gcObjType = .jsObject
    · simpa [hobject] using hweak
    · exact h₁.counted.no_weak ho₁ (h₁.counted.type ho₁ ▸ hobject)

theorem freeZeroLoop_ok {n : ℕ} (h : Releasing types held rt loose busy)
    (hheld : ∀ q, held.count (.strong q) ≤ loose.count (.strong q))
    (hphase : rt.gcPhase = .decref) (hn : rt.work ≤ n) :
    ∃ rt', freeZeroLoop n rt = some rt' ∧ Releasing types held rt' loose busy ∧
      rt'.gcZeroRefCountList = [] ∧ Survives rt rt' := by
  induction n generalizing rt with
  | zero =>
    have hnil : rt.gcZeroRefCountList = [] := by
      refine List.eq_nil_of_length_eq_zero ?_
      simp only [Runtime.work] at hn
      omega
    exact ⟨rt, by simp [freeZeroLoop, hnil], h, hnil, .refl rt⟩
  | succ n ih =>
    cases hlist : rt.gcZeroRefCountList with
    | nil => exact ⟨rt, by simp [freeZeroLoop, hlist], h, hlist, .refl rt⟩
    | cons p rest =>
      obtain ⟨o, rt₁, ho, hzero, hfree, h₁, hsurvives, hwork⟩ :=
        freeGcObject_queued h hheld hphase (p := p) (by simp [hlist])
      obtain ⟨rt', hloop, h', hnil, hsurvives'⟩ :=
        ih h₁ (hsurvives.phase.trans hphase) (by omega)
      refine ⟨rt', ?_, h', hnil, hsurvives.trans hsurvives'⟩
      simp [freeZeroLoop, hlist, ho, hzero, hfree, hloop]

end Loops

-- ---------------------------------------------------------------------------
-- Between two collections
-- ---------------------------------------------------------------------------

def Runtime.atPhase (rt : Runtime) (phase : GcPhase) : Runtime := { rt with gcPhase := phase }

/-- Nothing waits to be freed, but for the objects that are being freed at once. -/
structure Resting (types : ℕ → GcObjType) (rt : Runtime) (loose : List Ref) (busy : List ℕ) :
    Prop where
  releasing : Releasing types [] (rt.atPhase .decref) loose busy
  phase : rt.gcPhase = .none
  queue : rt.gcZeroRefCountList = []

namespace Resting

variable {types : ℕ → GcObjType} {loose : List Ref} {busy : List ℕ}

theorem freeZeroRefcount (h : Releasing types [] (rt.atPhase .decref) loose busy)
    (hphase : rt.gcPhase = .none) :
    ∃ rt', Collector.freeZeroRefcount rt = some rt' ∧ Resting types rt' loose busy ∧
      Survives rt rt' := by
  obtain ⟨rt', hloop, h', hnil, hsurvives⟩ := freeZeroLoop_ok h (by simp) rfl (Nat.le_refl _)
  refine ⟨rt'.atPhase .none, ?_, ⟨?_, rfl, hnil⟩, hsurvives.stays, hphase.symm, hsurvives.next⟩
  · have heval : freeZeroLoop (rt.gcObjList.length + rt.gcZeroRefCountList.length)
        { rt with gcPhase := .decref } = some rt' := hloop
    simp [Collector.freeZeroRefcount, heval, Runtime.atPhase]
  · have hdecref : rt'.gcPhase = .decref := hsurvives.phase
    have : (rt'.atPhase .none).atPhase .decref = rt' := by simp [Runtime.atPhase, ← hdecref]
    exact this.symm ▸ h'

theorem jsWeakrefFree (h : Resting types rt (.weak p :: loose) busy) :
    ∃ rt', Collector.jsWeakrefFree rt p = some rt' ∧ Resting types rt' loose busy ∧
      Survives rt rt' := by
  obtain ⟨rt₁, heval, h₁, hframe⟩ := h.releasing.jsWeakrefFree
  have hphase : ∀ phase, Collector.jsWeakrefFree (rt.atPhase phase) p =
      (Collector.jsWeakrefFree rt p).map (·.atPhase phase) := by
    intro phase
    cases ho : rt.objects p with
    | none => simp [Collector.jsWeakrefFree, Runtime.atPhase, ho]
    | some o =>
      simp only [Collector.jsWeakrefFree, Runtime.atPhase, ho, Option.bind_eq_bind,
        Option.bind_some]
      split
      · rfl
      · split <;> rfl
  rw [hphase] at heval
  obtain ⟨rt', hfree, rfl⟩ := Option.map_eq_some_iff.mp heval
  have hlists : rt'.gcZeroRefCountList = rt.gcZeroRefCountList ∧ rt'.gcPhase = rt.gcPhase := by
    simp only [Collector.jsWeakrefFree, Option.bind_eq_bind, Option.bind_eq_some_iff] at hfree
    obtain ⟨o, ho, hfree⟩ := hfree
    split at hfree
    · cases hfree
    · split at hfree <;> cases hfree <;> exact ⟨rfl, rfl⟩
  exact ⟨rt', hfree, ⟨h₁, hlists.2.trans h.phase, hlists.1.trans h.queue⟩, hframe.stays,
    hlists.2, hframe.next⟩

theorem release (h : Resting types rt (.strong p :: loose) busy) (hdepth : (types p).depth ≤ d) :
    ∃ rt', Collector.release Collector.freeZeroRefcount d rt p = some rt' ∧
      Resting types rt' loose busy ∧ Survives rt rt' := by
  induction d generalizing rt p loose busy with
  | zero => cases ht : types p <;> simp [ht, GcObjType.depth] at hdepth
  | succ d ih =>
    have hr := h.releasing
    obtain ⟨o, n, ho, hn, hcounted⟩ := hr.counted.release
    have ho : rt.objects p = some o := ho
    have htype : o.gcObjType = types p := hr.counted.type ho
    have hidle : p ∉ busy := fun hbusy => by
      obtain ⟨-, -, oq, hoq, hzero, -⟩ := hr.emptied hbusy
      have hoq : rt.objects p = some oq := hoq
      rw [ho] at hoq
      cases hoq
      omega
    have hnone : ∀ q, ([] : List Ref).count (.strong q) ≤ loose.count (.strong q) := by simp
    by_cases hlast : n = 0
    · subst hlast
      by_cases hat : (types p).atOnce = true
      · have hthere : (rt.set p { o with refCount := 0 }).objects p =
            some { o with refCount := 0 } := by simp
        have hstart : Resting types
            ((rt.set p { o with refCount := 0 }).set p { o with refCount := 0, refs := [] })
            (o.refs ++ loose) (p :: busy) :=
          ⟨hr.start ho hat hcounted hnone, h.phase, h.queue⟩
        have hdepth' : ∀ {c}, .strong c ∈ o.refs → (types c).depth ≤ d := fun hc => by
          have := GcObjType.depth_lt hat (hr.counted.refs_owned ho hc).2
          omega
        obtain ⟨rt', heval, h', hsurvives⟩ := dropRefs_ok
          (J := fun rt loose => Resting types rt loose (p :: busy))
          (Collector.release Collector.freeZeroRefcount d) o.refs .refl (fun h h' => h.trans h')
          (fun hc h => ih h (hdepth' hc)) (fun h => h.jsWeakrefFree) hstart
        refine ⟨(rt'.listDel p).jsFreeRt p, ?_, ⟨h'.releasing.stop hidle, h'.phase, ?_⟩,
          hsurvives.around h'.releasing.counted.nodup⟩
        · rw [release_atOnce ho hn (htype ▸ hat), freeAtOnce, hthere]
          exact congrArg (Option.bind · fun rt => some ((rt.listDel p).jsFreeRt p)) heval
        · simp [h'.queue]
      · have hat : (types p).atOnce = false := by simpa using hat
        obtain ⟨m, hmark, heval⟩ := release_none (f := Collector.freeZeroRefcount) (d := d) ho hn
          (htype ▸ hat) h.phase
        obtain ⟨h₁, hframe⟩ := hr.enqueue rfl ho hn hat hcounted fun ht => hmark (htype ▸ ht)
        have hqueued : Releasing types [] ((((rt.set p { o with refCount := 0 }).toZeroHead p).set p
            { o with refCount := 0, mark := m }).atPhase .decref) loose busy := h₁
        have hfirst : Survives rt (((rt.set p { o with refCount := 0 }).toZeroHead p).set p
            { o with refCount := 0, mark := m }) := ⟨hframe.stays, rfl, rfl⟩
        obtain ⟨rt', hfree, h', hsurvives⟩ := freeZeroRefcount hqueued h.phase
        exact ⟨rt', heval.trans hfree, h', hfirst.trans hsurvives⟩
    · have hset : Frees types rt (rt.set p { o with refCount := n }) := .of_set types ho rfl
      refine ⟨_, release_live ho hn hlast, ⟨?_, h.phase, h.queue⟩, hset.survives⟩
      refine hr.set hcounted ho rfl rfl
        (fun hbusy => absurd hbusy hidle) (fun _ _ => Nat.pos_of_ne_zero hlast) ?_ fun _ => hnone
      intro hzero
      omega

end Resting

end QuickJsKmp.Collector
