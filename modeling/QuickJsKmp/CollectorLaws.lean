import QuickJsKmp.Collector

/-!
# The counts of the collector

Every count is the number of references that are there: those that the objects of the
collector's lists keep, and those that are out in the hands of the engine or on the way to being
given back.
-/

namespace QuickJsKmp.Collector

open Incidence

namespace Runtime

/-- The objects that the collector's lists hold, which are those that may keep something. -/
def owners (rt : Runtime) : List ℕ :=
  rt.gcObjList ++ rt.gcZeroRefCountList ++ rt.tmpObjList

theorem mem_owners {rt : Runtime} : p ∈ rt.owners ↔
    p ∈ rt.gcObjList ∨ p ∈ rt.gcZeroRefCountList ∨ p ∈ rt.tmpObjList := by
  simp [owners]

variable (rt : Runtime) (p q : ℕ) (o : GcObject)

@[simp] theorem set_objects : (rt.set p o).objects = Function.update rt.objects p (some o) := rfl
@[simp] theorem set_next : (rt.set p o).next = rt.next := rfl
@[simp] theorem set_gcObjList : (rt.set p o).gcObjList = rt.gcObjList := rfl
@[simp] theorem set_zeroList : (rt.set p o).gcZeroRefCountList = rt.gcZeroRefCountList := rfl
@[simp] theorem set_tmpObjList : (rt.set p o).tmpObjList = rt.tmpObjList := rfl
@[simp] theorem set_gcPhase : (rt.set p o).gcPhase = rt.gcPhase := rfl
@[simp] theorem set_owners : (rt.set p o).owners = rt.owners := rfl

@[simp] theorem set_refsOf : (rt.set p o).refsOf = Function.update rt.refsOf p o.refs := by
  funext q
  by_cases h : q = p
  · subst h
    simp [refsOf]
  · simp [refsOf, Function.update_of_ne h]

@[simp] theorem jsFreeRt_objects :
    (rt.jsFreeRt p).objects = Function.update rt.objects p none := rfl
@[simp] theorem jsFreeRt_next : (rt.jsFreeRt p).next = rt.next := rfl
@[simp] theorem jsFreeRt_gcObjList : (rt.jsFreeRt p).gcObjList = rt.gcObjList := rfl
@[simp] theorem jsFreeRt_zeroList :
    (rt.jsFreeRt p).gcZeroRefCountList = rt.gcZeroRefCountList := rfl
@[simp] theorem jsFreeRt_tmpObjList : (rt.jsFreeRt p).tmpObjList = rt.tmpObjList := rfl
@[simp] theorem jsFreeRt_gcPhase : (rt.jsFreeRt p).gcPhase = rt.gcPhase := rfl
@[simp] theorem jsFreeRt_owners : (rt.jsFreeRt p).owners = rt.owners := rfl

@[simp] theorem jsFreeRt_refsOf : (rt.jsFreeRt p).refsOf = Function.update rt.refsOf p [] := by
  funext q
  by_cases h : q = p
  · subst h
    simp [refsOf]
  · simp [refsOf, Function.update_of_ne h]

@[simp] theorem listDel_objects : (rt.listDel p).objects = rt.objects := rfl
@[simp] theorem listDel_next : (rt.listDel p).next = rt.next := rfl
@[simp] theorem listDel_gcPhase : (rt.listDel p).gcPhase = rt.gcPhase := rfl
@[simp] theorem listDel_refsOf : (rt.listDel p).refsOf = rt.refsOf := rfl
@[simp] theorem listDel_gcObjList : (rt.listDel p).gcObjList = rt.gcObjList.erase p := rfl
@[simp] theorem listDel_zeroList :
    (rt.listDel p).gcZeroRefCountList = rt.gcZeroRefCountList.erase p := rfl
@[simp] theorem listDel_tmpObjList : (rt.listDel p).tmpObjList = rt.tmpObjList.erase p := rfl

theorem refsOf_of {rt : Runtime} {p : ℕ} {o : GcObject} (h : rt.objects p = some o) : rt.refsOf p = o.refs := by
  simp [refsOf, h]

theorem of_set {rt : Runtime} {p q : ℕ} {o o' : GcObject} (h : (rt.set p o).objects q = some o') :
    (q = p ∧ o' = o) ∨ (q ≠ p ∧ rt.objects q = some o') := by
  by_cases hq : q = p
  · subst hq
    simp only [set_objects, Function.update_self, Option.some.injEq] at h
    exact .inl ⟨rfl, h.symm⟩
  · simp only [set_objects, Function.update_of_ne hq] at h
    exact .inr ⟨hq, h⟩

/-- In a list without repetitions, `list_del` takes the object out of its own list only. -/
theorem listDel_owners (h : rt.owners.Nodup) : (rt.listDel p).owners = rt.owners.erase p := by
  simp only [owners, listDel]
  obtain ⟨hfirst, htmp, hne⟩ := List.nodup_append.mp h
  obtain ⟨hgc, hzero, hne'⟩ := List.nodup_append.mp hfirst
  by_cases h1 : p ∈ rt.gcObjList
  · have h2 : p ∉ rt.gcZeroRefCountList := fun h2 => hne' p h1 p h2 rfl
    have h3 : p ∉ rt.tmpObjList := fun h3 => hne p (by simp [h1]) p h3 rfl
    rw [List.erase_append_left _ (by simp [h1]), List.erase_append_left _ h1,
      List.erase_of_not_mem h2, List.erase_of_not_mem h3]
  · by_cases h2 : p ∈ rt.gcZeroRefCountList
    · have h3 : p ∉ rt.tmpObjList := fun h3 => hne p (by simp [h2]) p h3 rfl
      rw [List.erase_append_left _ (by simp [h2]), List.erase_append_right _ h1,
        List.erase_of_not_mem h1, List.erase_of_not_mem h3]
    · rw [List.erase_append_right _ (by simp [h1, h2]), List.erase_of_not_mem h1,
        List.erase_of_not_mem h2]

/-- An object stands in one list. -/
structure Apart (rt : Runtime) : Prop where
  gc : rt.gcObjList.Nodup
  zero : rt.gcZeroRefCountList.Nodup
  tmp : rt.tmpObjList.Nodup
  not_zero : ∀ {p}, p ∈ rt.gcObjList → p ∉ rt.gcZeroRefCountList
  not_tmp : ∀ {p}, p ∈ rt.gcObjList → p ∉ rt.tmpObjList
  zero_not_tmp : ∀ {p}, p ∈ rt.gcZeroRefCountList → p ∉ rt.tmpObjList

theorem apart {rt : Runtime} (h : rt.owners.Nodup) : rt.Apart := by
  obtain ⟨hfirst, htmp, hne⟩ := List.nodup_append.mp h
  obtain ⟨hgc, hzero, hne'⟩ := List.nodup_append.mp hfirst
  exact ⟨hgc, hzero, htmp, fun h1 h2 => hne' _ h1 _ h2 rfl, fun h1 h3 => hne _ (by simp [h1]) _ h3 rfl,
    fun h2 h3 => hne _ (by simp [h2]) _ h3 rfl⟩

section Moved

variable {rt : Runtime} {p : ℕ} (h : rt.owners.Nodup) (hp : p ∈ rt.owners)

include h hp

theorem toZeroHead_owners : (rt.toZeroHead p).owners.Perm rt.owners := by
  have hdel : (p :: (rt.listDel p).owners).Perm rt.owners := by
    rw [listDel_owners rt p h]
    exact (List.perm_cons_erase hp).symm
  refine List.Perm.trans ?_ hdel
  simp only [owners, toZeroHead, List.append_assoc, List.cons_append]
  exact List.perm_middle

theorem toZeroTail_owners : (rt.toZeroTail p).owners.Perm rt.owners := by
  refine List.Perm.trans ?_ (toZeroHead_owners h hp)
  simp only [owners, toZeroHead, toZeroTail]
  refine List.Perm.append_right _ (List.Perm.append_left _ ?_)
  exact List.perm_append_singleton ..

end Moved

end Runtime

-- ---------------------------------------------------------------------------
-- The balance of references
-- ---------------------------------------------------------------------------

theorem GcObject.incref_of {o : GcObject} (h : o.refCount + 1 ≤ maxRefCount) :
    o.incref = some { o with refCount := o.refCount + 1 } :=
  if_pos (Nat.lt_of_succ_le h)

/-- The count of the object at `p` that a reference to `p` enters into. -/
def GcObject.countOf (o : GcObject) (p : ℕ) : Ref → ℕ
  | .strong q => if q = p then o.refCount else 0
  | .weak q => if q = p then o.weakrefCount else 0

/-- `loose` are the references that no object keeps. What stands in no list any more is the
structure of an object that was freed under weak references. -/
structure Counted (types : ℕ → GcObjType) (rt : Runtime) (loose : List Ref) : Prop where
  nodup : rt.owners.Nodup
  present : p ∈ rt.owners → ∃ o, rt.objects p = some o
  fresh : rt.objects p = some o → p < rt.next
  type : rt.objects p = some o → o.gcObjType = types p
  strong : rt.objects p = some o →
    o.refCount = incoming rt.owners rt.refsOf (.strong p) + loose.count (.strong p)
  weak : rt.objects p = some o →
    o.weakrefCount = incoming rt.owners rt.refsOf (.weak p) + loose.count (.weak p)
  refers : q ∈ rt.owners → .strong p ∈ rt.refsOf q →
    p ∈ rt.owners ∧ (types q).refersTo (types p) = true
  refersWeakly : q ∈ rt.owners → .weak p ∈ rt.refsOf q →
    types p = .jsObject ∧ ∃ o, rt.objects p = some o
  held : .strong p ∈ loose → p ∈ rt.owners
  heldWeakly : .weak p ∈ loose → types p = .jsObject ∧ ∃ o, rt.objects p = some o
  left : rt.objects p = some o → p ∉ rt.owners →
    types p = .jsObject ∧ o.refCount = 0 ∧ o.mark = false ∧ o.refs = [] ∧ 0 < o.weakrefCount

namespace Counted

variable {types : ℕ → GcObjType} {rt rt' : Runtime} {loose loose' : List Ref}

theorem perm (h : Counted types rt loose) (hperm : loose.Perm loose') : Counted types rt loose' where
  nodup := h.nodup
  present := h.present
  fresh := h.fresh
  type := h.type
  strong ho := hperm.count_eq _ ▸ h.strong ho
  weak ho := hperm.count_eq _ ▸ h.weak ho
  refers := h.refers
  refersWeakly := h.refersWeakly
  held hp := h.held (hperm.mem_iff.mpr hp)
  heldWeakly hp := h.heldWeakly (hperm.mem_iff.mpr hp)
  left := h.left

/-- Only the lists change, and what they hold together does not. -/
theorem lists (h : Counted types rt loose) (hobjects : rt'.objects = rt.objects)
    (hnext : rt'.next = rt.next) (hperm : rt'.owners.Perm rt.owners) :
    Counted types rt' loose := by
  have hrefs : rt'.refsOf = rt.refsOf := by
    funext p
    simp [Runtime.refsOf, hobjects]
  constructor
  case nodup => exact hperm.nodup_iff.mpr h.nodup
  case present => exact fun hp => hobjects ▸ h.present (hperm.mem_iff.mp hp)
  case fresh => exact fun ho => hnext ▸ h.fresh (hobjects ▸ ho)
  case type => exact fun ho => h.type (hobjects ▸ ho)
  case strong => exact fun ho => by rw [incoming_perm hperm, hrefs]; exact h.strong (hobjects ▸ ho)
  case weak => exact fun ho => by rw [incoming_perm hperm, hrefs]; exact h.weak (hobjects ▸ ho)
  case refers =>
    intro q p hq hp
    obtain ⟨hp, ht⟩ := h.refers (hperm.mem_iff.mp hq) (hrefs ▸ hp)
    exact ⟨hperm.mem_iff.mpr hp, ht⟩
  case refersWeakly =>
    exact fun hq hp => hobjects ▸ h.refersWeakly (hperm.mem_iff.mp hq) (hrefs ▸ hp)
  case held => exact fun hp => hperm.mem_iff.mpr (h.held hp)
  case heldWeakly => exact fun hp => hobjects ▸ h.heldWeakly hp
  case left => exact fun ho hp => h.left (hobjects ▸ ho) fun hmem => hp (hperm.mem_iff.mpr hmem)

/-- Only the marks of objects that the lists hold change, and the lists' order. -/
theorem remark (h : Counted types rt loose) {m : ℕ → Bool}
    (hobjects : rt'.objects = fun p => (rt.objects p).map fun o => { o with mark := m p })
    (hm : ∀ p, p ∉ rt.owners → m p = false) (hnext : rt'.next = rt.next)
    (hperm : rt'.owners.Perm rt.owners) : Counted types rt' loose := by
  have hfrom : ∀ {p o'}, rt'.objects p = some o' →
      ∃ o, rt.objects p = some o ∧ o' = { o with mark := m p } := by
    intro p o' ho'
    rw [hobjects] at ho'
    obtain ⟨o, ho, rfl⟩ := Option.map_eq_some_iff.mp ho'
    exact ⟨o, ho, rfl⟩
  have hto : ∀ {p}, (∃ o, rt.objects p = some o) → ∃ o, rt'.objects p = some o := by
    rintro p ⟨o, ho⟩
    exact ⟨{ o with mark := m p }, by simp [hobjects, ho]⟩
  have hrefs : rt'.refsOf = rt.refsOf := by
    funext p
    cases ho : rt.objects p <;> simp [Runtime.refsOf, hobjects, ho]
  have hcounts : ∀ r, incoming rt'.owners rt'.refsOf r = incoming rt.owners rt.refsOf r :=
    fun r => by rw [incoming_perm hperm, hrefs]
  constructor
  case nodup => exact hperm.nodup_iff.mpr h.nodup
  case present => exact fun hp => hto (h.present (hperm.mem_iff.mp hp))
  case fresh =>
    intro p o' ho'
    obtain ⟨o, ho, rfl⟩ := hfrom ho'
    exact hnext ▸ h.fresh ho
  case type =>
    intro p o' ho'
    obtain ⟨o, ho, rfl⟩ := hfrom ho'
    have := h.type ho
    exact this
  case strong =>
    intro p o' ho'
    obtain ⟨o, ho, rfl⟩ := hfrom ho'
    have := h.strong ho
    rwa [hcounts]
  case weak =>
    intro p o' ho'
    obtain ⟨o, ho, rfl⟩ := hfrom ho'
    have := h.weak ho
    rwa [hcounts]
  case refers =>
    intro q p hq hp
    exact (h.refers (hperm.mem_iff.mp hq) (hrefs ▸ hp)).imp_left hperm.mem_iff.mpr
  case refersWeakly =>
    exact fun hq hp => (h.refersWeakly (hperm.mem_iff.mp hq) (hrefs ▸ hp)).imp_right hto
  case held => exact fun hp => hperm.mem_iff.mpr (h.held hp)
  case heldWeakly => exact fun hp => (h.heldWeakly hp).imp_right hto
  case left =>
    intro p o' ho' hp
    obtain ⟨o, ho, rfl⟩ := hfrom ho'
    have hp : p ∉ rt.owners := fun hmem => hp (hperm.mem_iff.mpr hmem)
    obtain ⟨htype, hcount, -, hnil, hweak⟩ := h.left ho hp
    exact ⟨htype, hcount, hm p hp, hnil, hweak⟩

/-- One object changes and with it what is loose: the balance of every reference is kept. -/
theorem set {o' : GcObject} (h : Counted types rt loose) (ho : rt.objects p = some o)
    (htype : o'.gcObjType = o.gcObjType)
    (hbalance : ∀ r, o'.refs.count r + loose'.count r + o.countOf p r =
      o.refs.count r + loose.count r + o'.countOf p r)
    (hheld : ∀ c, .strong c ∈ o'.refs ∨ .strong c ∈ loose' → c ∈ rt.owners)
    (hweakly : ∀ c, .weak c ∈ o'.refs ∨ .weak c ∈ loose' →
      types c = .jsObject ∧ ∃ oc, rt.objects c = some oc)
    (htyped : ∀ c, .strong c ∈ o'.refs → (types p).refersTo (types c) = true)
    (hleft : p ∉ rt.owners →
      o'.refCount = 0 ∧ o'.mark = false ∧ o'.refs = [] ∧ 0 < o'.weakrefCount) :
    Counted types (rt.set p o') loose' := by
  have hrefs : rt.refsOf p = o.refs := Runtime.refsOf_of ho
  have hmoved : ∀ r, incoming rt.owners (Function.update rt.refsOf p o'.refs) r +
      loose'.count r + o.countOf p r = incoming rt.owners rt.refsOf r + loose.count r +
      o'.countOf p r := by
    intro r
    have hr := hbalance r
    by_cases hp : p ∈ rt.owners
    · have hmove : incoming rt.owners (Function.update rt.refsOf p o'.refs) r +
          (rt.refsOf p).count r = incoming rt.owners rt.refsOf r + o'.refs.count r :=
        incoming_update h.nodup hp o'.refs
      rw [hrefs] at hmove
      omega
    · rw [incoming_update_of_notMem hp]
      rw [(hleft hp).2.2.1, (h.left ho hp).2.2.2.1] at hr
      omega
  have hthere : ∀ {c}, (∃ oc, rt.objects c = some oc) → ∃ oc, (rt.set p o').objects c = some oc := by
    rintro c ⟨oc, hc⟩
    by_cases hcp : c = p
    · exact ⟨o', by simp [hcp]⟩
    · exact ⟨oc, by simp [Function.update_of_ne hcp, hc]⟩
  constructor
  case nodup => exact h.nodup
  case present => exact fun hq => hthere (h.present hq)
  case fresh =>
    intro q oq hoq
    obtain ⟨rfl, rfl⟩ | ⟨hq, hoq⟩ := Runtime.of_set hoq
    · exact h.fresh ho
    · exact h.fresh hoq
  case type =>
    intro q oq hoq
    obtain ⟨rfl, rfl⟩ | ⟨hq, hoq⟩ := Runtime.of_set hoq
    · exact htype.trans (h.type ho)
    · exact h.type hoq
  case strong =>
    intro q oq hoq
    have hq' := hmoved (.strong q)
    rw [Runtime.set_owners, Runtime.set_refsOf]
    obtain ⟨rfl, rfl⟩ | ⟨hq, hoq⟩ := Runtime.of_set hoq
    · have := h.strong ho
      simp only [GcObject.countOf, if_pos] at hq'
      omega
    · have := h.strong hoq
      simp only [GcObject.countOf, if_neg hq] at hq'
      omega
  case weak =>
    intro q oq hoq
    have hq' := hmoved (.weak q)
    rw [Runtime.set_owners, Runtime.set_refsOf]
    obtain ⟨rfl, rfl⟩ | ⟨hq, hoq⟩ := Runtime.of_set hoq
    · have := h.weak ho
      simp only [GcObject.countOf, if_pos] at hq'
      omega
    · have := h.weak hoq
      simp only [GcObject.countOf, if_neg hq] at hq'
      omega
  case refers =>
    intro q c hq hc
    by_cases hqp : q = p
    · subst hqp
      simp only [Runtime.set_refsOf, Function.update_self] at hc
      exact ⟨hheld c (.inl hc), htyped c hc⟩
    · simp only [Runtime.set_refsOf, Function.update_of_ne hqp] at hc
      exact h.refers hq hc
  case refersWeakly =>
    intro q c hq hc
    refine And.imp_right hthere ?_
    by_cases hqp : q = p
    · subst hqp
      simp only [Runtime.set_refsOf, Function.update_self] at hc
      exact hweakly c (.inl hc)
    · simp only [Runtime.set_refsOf, Function.update_of_ne hqp] at hc
      exact h.refersWeakly hq hc
  case held => exact fun hc => hheld _ (.inr hc)
  case heldWeakly => exact fun hc => And.imp_right hthere (hweakly _ (.inr hc))
  case left =>
    intro q oq hoq hq
    obtain ⟨rfl, rfl⟩ | ⟨-, hoq⟩ := Runtime.of_set hoq
    · exact ⟨(h.left ho hq).1, hleft hq⟩
    · exact h.left hoq hq

theorem refs_owned (h : Counted types rt loose) (ho : rt.objects p = some o)
    (hr : .strong c ∈ o.refs) : c ∈ rt.owners ∧ (types p).refersTo (types c) = true := by
  by_cases hp : p ∈ rt.owners
  · exact h.refers hp (Runtime.refsOf_of ho ▸ hr)
  · rw [(h.left ho hp).2.2.2.1] at hr
    cases hr

theorem refs_weakly (h : Counted types rt loose) (ho : rt.objects p = some o)
    (hr : .weak c ∈ o.refs) : types c = .jsObject ∧ ∃ oc, rt.objects c = some oc := by
  by_cases hp : p ∈ rt.owners
  · exact h.refersWeakly hp (Runtime.refsOf_of ho ▸ hr)
  · rw [(h.left ho hp).2.2.2.1] at hr
    cases hr

/-- References move between an object and the loose ones. -/
theorem move (h : Counted types rt loose) (ho : rt.objects p = some o) (hp : p ∈ rt.owners)
    {l : List Ref} (hperm : (l ++ loose').Perm (o.refs ++ loose))
    (htyped : ∀ c, .strong c ∈ l → (types p).refersTo (types c) = true) (m : Bool) :
    Counted types (rt.set p { o with refs := l, mark := m }) loose' := by
  have hfrom : ∀ {r}, r ∈ l ∨ r ∈ loose' → r ∈ o.refs ∨ r ∈ loose := fun {r} hr => by
    simpa [hr] using hperm.mem_iff (a := r)
  refine h.set ho rfl ?_ ?_ ?_ htyped (absurd hp)
  · intro r
    have := hperm.count_eq r
    rw [List.count_append, List.count_append] at this
    have hsame : GcObject.countOf { o with refs := l, mark := m } p r = o.countOf p r := by
      cases r <;> rfl
    rw [hsame]
    change l.count r + loose'.count r + _ = _
    omega
  · exact fun c hc => (hfrom hc).elim (fun hc => (h.refs_owned ho hc).1) h.held
  · exact fun c hc => (hfrom hc).elim (h.refs_weakly ho) h.heldWeakly

/-- The loose references of an object and what it keeps, once it is asked to give all back. -/
theorem take (h : Counted types rt loose) (ho : rt.objects p = some o) (hp : p ∈ rt.owners) :
    Counted types (rt.set p { o with refs := [] }) (o.refs ++ loose) :=
  h.move ho hp (l := []) (by simp) (by simp) o.mark

theorem mark (h : Counted types rt loose) (ho : rt.objects p = some o) (hp : p ∈ rt.owners)
    (m : Bool) : Counted types (rt.set p { o with mark := m }) loose :=
  h.move ho hp (l := o.refs) (.refl _) (fun _ hc => (h.refs_owned ho hc).2) m

/-- Giving a loose reference back: its count was not zero. -/
theorem release (h : Counted types rt (.strong p :: loose)) :
    ∃ o n, rt.objects p = some o ∧ o.refCount = n + 1 ∧
      Counted types (rt.set p { o with refCount := n }) loose := by
  have hp : p ∈ rt.owners := h.held (by simp)
  obtain ⟨o, ho⟩ := h.present hp
  have hcount := h.strong ho
  rw [List.count_cons_self] at hcount
  obtain ⟨n, hn⟩ := Nat.exists_eq_succ_of_ne_zero (by omega : o.refCount ≠ 0)
  refine ⟨o, n, ho, hn, h.set ho rfl ?_ ?_ ?_ ?_ (absurd hp)⟩
  · intro r
    cases r with
    | weak q => simp [GcObject.countOf]
    | strong q =>
      by_cases hq : q = p
      · subst hq
        simp only [GcObject.countOf, if_pos, List.count_cons_self]
        omega
      · simp [GcObject.countOf, hq, Ne.symm hq]
  · exact fun c hc => hc.elim (fun hc => (h.refs_owned ho hc).1) fun hc => h.held (by simp [hc])
  · exact fun c hc => hc.elim (fun hc => h.refs_weakly ho hc) fun hc => h.heldWeakly (by simp [hc])
  · exact fun c hc => (h.refs_owned ho hc).2

/-- The same of a weak reference, if the structure is to stay. -/
theorem releaseWeak (h : Counted types rt (.weak p :: loose)) (ho : rt.objects p = some o)
    (hn : o.weakrefCount = n + 1) (hstays : p ∈ rt.owners ∨ 0 < n) :
    Counted types (rt.set p { o with weakrefCount := n }) loose := by
  refine h.set ho rfl ?_ ?_ ?_ ?_ ?_
  · intro r
    cases r with
    | strong q => simp [GcObject.countOf]
    | weak q =>
      by_cases hq : q = p
      · subst hq
        simp only [GcObject.countOf, if_pos, List.count_cons_self]
        omega
      · simp [GcObject.countOf, hq, Ne.symm hq]
  · exact fun c hc => hc.elim (fun hc => (h.refs_owned ho hc).1) fun hc => h.held (by simp [hc])
  · exact fun c hc => hc.elim (fun hc => h.refs_weakly ho hc) fun hc => h.heldWeakly (by simp [hc])
  · exact fun c hc => (h.refs_owned ho hc).2
  · intro hp
    obtain ⟨-, hcount, hmark, hrefs, -⟩ := h.left ho hp
    exact ⟨hcount, hmark, hrefs, hstays.resolve_left hp⟩

theorem dup (h : Counted types rt loose) (ho : rt.objects p = some o) (hp : p ∈ rt.owners) :
    Counted types (rt.set p { o with refCount := o.refCount + 1 }) (.strong p :: loose) := by
  refine h.set ho rfl ?_ ?_ ?_ (fun c hc => (h.refs_owned ho hc).2) (absurd hp)
  · intro r
    cases r with
    | weak q => simp [GcObject.countOf]
    | strong q =>
      by_cases hq : q = p
      · subst hq
        simp only [GcObject.countOf, if_pos, List.count_cons_self]
        omega
      · simp [GcObject.countOf, hq, Ne.symm hq]
  · intro c hc
    rcases hc with hc | hc
    · exact (h.refs_owned ho hc).1
    · rcases List.mem_cons.mp hc with hc | hc
      · cases hc
        exact hp
      · exact h.held hc
  · exact fun c hc => hc.elim (fun hc => h.refs_weakly ho hc) fun hc => h.heldWeakly (by simpa using hc)

theorem dupWeak (h : Counted types rt loose) (ho : rt.objects p = some o) (hp : p ∈ rt.owners)
    (htype : types p = .jsObject) :
    Counted types (rt.set p { o with weakrefCount := o.weakrefCount + 1 }) (.weak p :: loose) := by
  refine h.set ho rfl ?_ ?_ ?_ (fun c hc => (h.refs_owned ho hc).2) (absurd hp)
  · intro r
    cases r with
    | strong q => simp [GcObject.countOf]
    | weak q =>
      by_cases hq : q = p
      · subst hq
        simp only [GcObject.countOf, if_pos, List.count_cons_self]
        omega
      · simp [GcObject.countOf, hq, Ne.symm hq]
  · exact fun c hc => hc.elim (fun hc => (h.refs_owned ho hc).1) fun hc => h.held (by simpa using hc)
  · intro c hc
    rcases hc with hc | hc
    · exact h.refs_weakly ho hc
    · rcases List.mem_cons.mp hc with hc | hc
      · cases hc
        exact ⟨htype, o, ho⟩
      · exact h.heldWeakly hc

/-- An object that keeps nothing and that nothing keeps leaves the lists, and leaves behind its
structure (`left`) only if there are weak references to it. -/
theorem unlist (h : Counted types rt loose) (ho : rt.objects p = some o) (hp : p ∈ rt.owners)
    (hcount : o.refCount = 0) (hrefs : o.refs = []) (left : Option GcObject)
    (hnone : left = none → o.weakrefCount = 0)
    (hsome : ∀ o', left = some o' → o' = { o with mark := false } ∧
      types p = .jsObject ∧ o.weakrefCount ≠ 0)
    (hobjects : rt'.objects = Function.update rt.objects p left) (hnext : rt'.next = rt.next)
    (howners : rt'.owners = rt.owners.erase p) : Counted types rt' loose := by
  have hrefsOf : rt'.refsOf = rt.refsOf := by
    funext q
    by_cases hq : q = p
    · subst hq
      rw [Runtime.refsOf_of ho, hrefs, Runtime.refsOf, hobjects, Function.update_self]
      cases left with
      | none => rfl
      | some o' => simp [(hsome o' rfl).1, hrefs]
    · rw [Runtime.refsOf, hobjects, Function.update_of_ne hq, Runtime.refsOf]
  have hincoming : ∀ r, incoming rt'.owners rt'.refsOf r = incoming rt.owners rt.refsOf r := by
    intro r
    have hless : (rt.refsOf p).count r + incoming (rt.owners.erase p) rt.refsOf r =
        incoming rt.owners rt.refsOf r := incoming_erase hp
    rw [Runtime.refsOf_of ho, hrefs, List.count_nil] at hless
    rw [hrefsOf, howners]
    omega
  have hfrom : ∀ {q o'}, rt'.objects q = some o' → q ≠ p ∧ rt.objects q = some o' ∨
      q = p ∧ o' = { o with mark := false } ∧ types p = .jsObject ∧ o.weakrefCount ≠ 0 := by
    intro q o' ho'
    rw [hobjects] at ho'
    by_cases hq : q = p
    · subst hq
      rw [Function.update_self] at ho'
      exact .inr ⟨rfl, hsome o' ho'⟩
    · rw [Function.update_of_ne hq] at ho'
      exact .inl ⟨hq, ho'⟩
  have hunheld : ∀ {c}, c ∈ rt.owners → (∃ q ∈ rt.owners, .strong c ∈ rt.refsOf q) ∨
      .strong c ∈ loose → c ∈ rt'.owners := by
    intro c hc hheld
    rw [howners, h.nodup.mem_erase_iff]
    refine ⟨?_, hc⟩
    rintro rfl
    have hzero := h.strong ho
    rw [hcount] at hzero
    rcases hheld with hheld | hheld
    · have := incoming_pos.mpr hheld
      omega
    · have := List.count_pos_iff.mpr hheld
      omega
  have hthere : ∀ {c}, (∃ q ∈ rt.owners, .weak c ∈ rt.refsOf q) ∨ .weak c ∈ loose →
      (∃ oc, rt.objects c = some oc) → ∃ oc, rt'.objects c = some oc := by
    rintro c hheld ⟨oc, hoc⟩
    rw [hobjects]
    by_cases hc : c = p
    · subst hc
      rw [Function.update_self]
      refine Option.ne_none_iff_exists'.mp fun hleft => ?_
      have hzero := h.weak ho
      rw [hnone hleft] at hzero
      rcases hheld with hheld | hheld
      · have := incoming_pos.mpr hheld
        omega
      · have := List.count_pos_iff.mpr hheld
        omega
    · exact ⟨oc, by rw [Function.update_of_ne hc, hoc]⟩
  have hsub : ∀ {q}, q ∈ rt'.owners → q ∈ rt.owners := fun hq =>
    List.mem_of_mem_erase (howners ▸ hq)
  constructor
  case nodup => exact howners ▸ h.nodup.erase p
  case present =>
    intro q hq
    rw [howners, h.nodup.mem_erase_iff] at hq
    obtain ⟨oq, hoq⟩ := h.present hq.2
    exact ⟨oq, by rw [hobjects, Function.update_of_ne hq.1, hoq]⟩
  case fresh =>
    intro q oq hoq
    rw [hnext]
    obtain ⟨-, hoq⟩ | ⟨rfl, -⟩ := hfrom hoq
    · exact h.fresh hoq
    · exact h.fresh ho
  case type =>
    intro q oq hoq
    obtain ⟨-, hoq⟩ | ⟨rfl, rfl, -⟩ := hfrom hoq
    · exact h.type hoq
    · simpa using h.type ho
  case strong =>
    intro q oq hoq
    rw [hincoming]
    obtain ⟨-, hoq⟩ | ⟨rfl, rfl, -⟩ := hfrom hoq
    · exact h.strong hoq
    · simpa using h.strong ho
  case weak =>
    intro q oq hoq
    rw [hincoming]
    obtain ⟨-, hoq⟩ | ⟨rfl, rfl, -⟩ := hfrom hoq
    · exact h.weak hoq
    · simpa using h.weak ho
  case refers =>
    intro q c hq hc
    rw [hrefsOf] at hc
    obtain ⟨howned, ht⟩ := h.refers (hsub hq) hc
    exact ⟨hunheld howned (.inl ⟨q, hsub hq, hc⟩), ht⟩
  case refersWeakly =>
    intro q c hq hc
    rw [hrefsOf] at hc
    exact (h.refersWeakly (hsub hq) hc).imp_right (hthere (.inl ⟨q, hsub hq, hc⟩))
  case held => exact fun hc => hunheld (h.held hc) (.inr hc)
  case heldWeakly => exact fun hc => (h.heldWeakly hc).imp_right (hthere (.inr hc))
  case left =>
    intro q oq hoq hq
    obtain ⟨hqp, hoq⟩ | ⟨rfl, rfl, htype, hweak⟩ := hfrom hoq
    · exact h.left hoq fun hmem => hq (howners ▸ (h.nodup.mem_erase_iff.mpr ⟨hqp, hmem⟩))
    · exact ⟨htype, hcount, rfl, hrefs, Nat.pos_of_ne_zero hweak⟩

/-- The last weak reference to a structure that was left goes. -/
theorem forget (h : Counted types rt (.weak p :: loose)) (ho : rt.objects p = some o)
    (hp : p ∉ rt.owners) (hone : o.weakrefCount = 1)
    (hobjects : rt'.objects = Function.update rt.objects p none) (hnext : rt'.next = rt.next)
    (howners : rt'.owners = rt.owners) : Counted types rt' loose := by
  have hrefsOf : rt'.refsOf = rt.refsOf := by
    funext q
    by_cases hq : q = p
    · subst hq
      rw [Runtime.refsOf_of ho, (h.left ho hp).2.2.2.1, Runtime.refsOf, hobjects,
        Function.update_self]
      rfl
    · rw [Runtime.refsOf, hobjects, Function.update_of_ne hq, Runtime.refsOf]
  have hfrom : ∀ {q o'}, rt'.objects q = some o' → q ≠ p ∧ rt.objects q = some o' := by
    intro q o' ho'
    rw [hobjects] at ho'
    by_cases hq : q = p
    · subst hq
      simp at ho'
    · exact ⟨hq, by rwa [Function.update_of_ne hq] at ho'⟩
  have hto : ∀ {c}, c ≠ p → (∃ oc, rt.objects c = some oc) → ∃ oc, rt'.objects c = some oc :=
    fun hc ⟨oc, hoc⟩ => ⟨oc, by rw [hobjects, Function.update_of_ne hc, hoc]⟩
  have hweak := h.weak ho
  rw [hone, List.count_cons_self] at hweak
  constructor
  case nodup => exact howners ▸ h.nodup
  case present => exact fun hq => hto (fun hqp => hp (hqp ▸ howners ▸ hq)) (h.present (howners ▸ hq))
  case fresh => exact fun hoq => hnext ▸ h.fresh (hfrom hoq).2
  case type => exact fun hoq => h.type (hfrom hoq).2
  case strong =>
    intro q oq hoq
    simpa [howners, hrefsOf] using h.strong (hfrom hoq).2
  case weak =>
    intro q oq hoq
    simpa [howners, hrefsOf, List.count_cons, (hfrom hoq).1.symm] using h.weak (hfrom hoq).2
  case refers => exact fun hq hc => howners ▸ h.refers (howners ▸ hq) (hrefsOf ▸ hc)
  case refersWeakly =>
    intro q c hq hc
    rw [howners] at hq
    rw [hrefsOf] at hc
    refine (h.refersWeakly hq hc).imp_right (hto ?_)
    rintro rfl
    have := incoming_pos.mpr ⟨q, hq, hc⟩
    omega
  case held => exact fun hc => howners ▸ h.held (List.mem_cons_of_mem _ hc)
  case heldWeakly =>
    intro c hc
    refine (h.heldWeakly (List.mem_cons_of_mem _ hc)).imp_right (hto ?_)
    rintro rfl
    have := List.count_pos_iff.mpr hc
    omega
  case left => exact fun hoq hq => h.left (hfrom hoq).2 (howners ▸ hq)

/-- A new object enters the lists. -/
theorem new {refs : List Ref} {t : GcObjType} (h : Counted types rt (refs ++ loose))
    (htyped : ∀ c, .strong c ∈ refs → t.refersTo (types c) = true)
    (hobjects : rt'.objects = Function.update rt.objects rt.next (some ⟨t, 1, false, 0, refs⟩))
    (hnext : rt'.next = rt.next + 1) (howners : rt'.owners.Perm (rt.next :: rt.owners)) :
    Counted (Function.update types rt.next t) rt' (.strong rt.next :: loose) := by
  have hnone : ∀ {o}, rt.objects rt.next ≠ some o := fun ho => Nat.lt_irrefl _ (h.fresh ho)
  have hunowned : rt.next ∉ rt.owners := fun hp => by
    obtain ⟨o, ho⟩ := h.present hp
    exact hnone ho
  have hrefs : rt'.refsOf = Function.update rt.refsOf rt.next refs := by
    funext q
    by_cases hq : q = rt.next
    · subst hq
      simp [Runtime.refsOf, hobjects]
    · simp [Runtime.refsOf, hobjects, Function.update_of_ne hq]
  have hincoming : ∀ r, incoming rt'.owners rt'.refsOf r =
      refs.count r + incoming rt.owners rt.refsOf r := by
    intro r
    rw [incoming_perm howners, hrefs, incoming_cons, Function.update_self,
      incoming_update_of_notMem hunowned]
  have hold : ∀ {q o}, rt'.objects q = some o →
      (q = rt.next ∧ o = ⟨t, 1, false, 0, refs⟩) ∨ (q ≠ rt.next ∧ rt.objects q = some o) := by
    intro q o ho
    rw [hobjects] at ho
    by_cases hq : q = rt.next
    · subst hq
      rw [Function.update_self] at ho
      exact .inl ⟨rfl, (Option.some.inj ho).symm⟩
    · rw [Function.update_of_ne hq] at ho
      exact .inr ⟨hq, ho⟩
  have hstrong : ∀ {c}, .strong c ∈ refs ++ loose → c ≠ rt.next := fun hc hcn =>
    hunowned (hcn ▸ h.held hc)
  have hweak : ∀ {c}, .weak c ∈ refs ++ loose → c ≠ rt.next := fun hc hcn => by
    obtain ⟨-, o, ho⟩ := h.heldWeakly hc
    exact hnone (hcn ▸ ho)
  have hkept : ∀ {c}, c ∈ rt.owners → c ∈ rt'.owners := fun hc =>
    howners.mem_iff.mpr (List.mem_cons_of_mem _ hc)
  have hthere : ∀ {c}, (∃ o, rt.objects c = some o) → ∃ o, rt'.objects c = some o := by
    rintro c ⟨o, ho⟩
    have hc : c ≠ rt.next := by
      rintro rfl
      exact hnone ho
    exact ⟨o, by rw [hobjects, Function.update_of_ne hc, ho]⟩
  have htypes : ∀ {c}, c ≠ rt.next → Function.update types rt.next t c = types c :=
    fun hc => Function.update_of_ne hc ..
  have howned : ∀ {c}, c ∈ rt.owners → c ≠ rt.next := fun hc hcn => hunowned (hcn ▸ hc)
  have hobject : ∀ {c}, (types c = .jsObject ∧ ∃ o, rt.objects c = some o) →
      Function.update types rt.next t c = .jsObject ∧ ∃ o, rt'.objects c = some o := by
    rintro c ⟨htype, o, ho⟩
    have hc : c ≠ rt.next := by
      rintro rfl
      exact hnone ho
    exact ⟨(htypes hc).trans htype, hthere ⟨o, ho⟩⟩
  constructor
  case nodup => exact howners.nodup_iff.mpr (List.nodup_cons.mpr ⟨hunowned, h.nodup⟩)
  case present =>
    intro q hq
    rcases List.mem_cons.mp (howners.mem_iff.mp hq) with rfl | hq
    · exact ⟨_, by rw [hobjects, Function.update_self]⟩
    · exact hthere (h.present hq)
  case fresh =>
    intro q o ho
    rw [hnext]
    obtain ⟨rfl, -⟩ | ⟨-, ho⟩ := hold ho
    · exact Nat.lt_succ_self _
    · exact Nat.lt_succ_of_lt (h.fresh ho)
  case type =>
    intro q o ho
    obtain ⟨rfl, rfl⟩ | ⟨hq, ho⟩ := hold ho
    · rw [Function.update_self]
    · rw [htypes hq]
      exact h.type ho
  case strong =>
    intro q o ho
    rw [hincoming]
    obtain ⟨rfl, rfl⟩ | ⟨hq, ho⟩ := hold ho
    · have hin : incoming rt.owners rt.refsOf (.strong rt.next) = 0 :=
        incoming_eq_zero fun q hq hr => hunowned (h.refers hq hr).1
      have hno : (refs ++ loose).count (.strong rt.next) = 0 :=
        List.count_eq_zero_of_not_mem fun hr => hstrong hr rfl
      rw [List.count_append] at hno
      rw [hin, List.count_cons_self]
      change 1 = _
      omega
    · have := h.strong ho
      rw [List.count_append] at this
      have hne : (Ref.strong rt.next == Ref.strong q) = false := by simp [Ne.symm hq]
      rw [List.count_cons, hne]
      simp only [Bool.false_eq_true, if_false]
      omega
  case weak =>
    intro q o ho
    rw [hincoming]
    obtain ⟨rfl, rfl⟩ | ⟨hq, ho⟩ := hold ho
    · have hin : incoming rt.owners rt.refsOf (.weak rt.next) = 0 :=
        incoming_eq_zero fun q hq hr => by
          obtain ⟨-, o, ho⟩ := h.refersWeakly hq hr
          exact hnone ho
      have hno : (refs ++ loose).count (.weak rt.next) = 0 :=
        List.count_eq_zero_of_not_mem fun hr => hweak hr rfl
      rw [List.count_append] at hno
      rw [hin, List.count_cons_of_ne (by simp)]
      change 0 = _
      omega
    · have := h.weak ho
      rw [List.count_append] at this
      rw [List.count_cons_of_ne (by simp)]
      omega
  case refers =>
    intro q c hq hc
    rw [hrefs] at hc
    rcases List.mem_cons.mp (howners.mem_iff.mp hq) with rfl | hq
    · rw [Function.update_self] at hc
      have hcn := hstrong (List.mem_append_left _ hc)
      refine ⟨hkept (h.held (List.mem_append_left _ hc)), ?_⟩
      rw [Function.update_self, htypes hcn]
      exact htyped c hc
    · rw [Function.update_of_ne (howned hq)] at hc
      obtain ⟨hcowned, ht⟩ := h.refers hq hc
      refine ⟨hkept hcowned, ?_⟩
      rwa [htypes (howned hq), htypes (howned hcowned)]
  case refersWeakly =>
    intro q c hq hc
    rw [hrefs] at hc
    rcases List.mem_cons.mp (howners.mem_iff.mp hq) with rfl | hq
    · rw [Function.update_self] at hc
      exact hobject (h.heldWeakly (List.mem_append_left _ hc))
    · rw [Function.update_of_ne (howned hq)] at hc
      exact hobject (h.refersWeakly hq hc)
  case held =>
    intro c hc
    rcases List.mem_cons.mp hc with hc | hc
    · cases hc
      exact howners.mem_iff.mpr List.mem_cons_self
    · exact hkept (h.held (List.mem_append_right _ hc))
  case heldWeakly =>
    intro c hc
    rcases List.mem_cons.mp hc with hc | hc
    · cases hc
    · exact hobject (h.heldWeakly (List.mem_append_right _ hc))
  case left =>
    intro q o ho hq
    obtain ⟨rfl, rfl⟩ | ⟨hqn, ho⟩ := hold ho
    · exact absurd (howners.mem_iff.mpr List.mem_cons_self) hq
    · obtain ⟨htype, hrest⟩ := h.left ho fun hmem => hq (hkept hmem)
      exact ⟨(htypes hqn).trans htype, hrest⟩

/-- Only objects are referred to weakly. -/
theorem no_weak (h : Counted types rt loose) (ho : rt.objects p = some o)
    (htype : types p ≠ .jsObject) : o.weakrefCount = 0 := by
  rw [h.weak ho, incoming_eq_zero fun q hq hr => htype (h.refersWeakly hq hr).1,
    List.count_eq_zero_of_not_mem fun hr => htype (h.heldWeakly hr).1]

/-- What a reference is loose of has a count that is not zero. -/
theorem pos_of_loose (h : Counted types rt loose) (ho : rt.objects p = some o)
    (hp : .strong p ∈ loose) : 0 < o.refCount := by
  have := h.strong ho
  have := List.count_pos_iff.mpr hp
  omega

theorem pos_of_refers (h : Counted types rt loose) (ho : rt.objects p = some o)
    (hq : q ∈ rt.owners) (hp : .strong p ∈ rt.refsOf q) : 0 < o.refCount := by
  have := h.strong ho
  have := incoming_pos.mpr ⟨q, hq, hp⟩
  omega

end Counted

end QuickJsKmp.Collector
