import QuickJsKmp.Freeing

/-!
# The collection of cycles

`gc_decref` takes away every count that another object accounts for, `gc_scan` gives the counts
back and keeps what can be reached from the counts that were left, and `gc_free_cycles` frees the
rest.
-/

namespace QuickJsKmp.Collector

open Incidence

-- ---------------------------------------------------------------------------
-- Counts and marks
-- ---------------------------------------------------------------------------

namespace Runtime

/-- The same objects with other counts and marks, and two of the lists anew. -/
def recounted (rt : Runtime) (f : ℕ → ℕ) (m : ℕ → Bool) (gc tmp : List ℕ) : Runtime :=
  { rt with
    objects := fun p => (rt.objects p).map fun o => { o with refCount := f p, mark := m p }
    gcObjList := gc
    tmpObjList := tmp }

variable {rt : Runtime} {f : ℕ → ℕ} {m : ℕ → Bool} {gc tmp : List ℕ}

theorem recounted_objects (ho : rt.objects p = some o) :
    (rt.recounted f m gc tmp).objects p = some { o with refCount := f p, mark := m p } := by
  simp [recounted, ho]

theorem recounted_set (ho : rt.objects p = some o) (n : ℕ) (b : Bool) :
    (rt.recounted f m gc tmp).set p { o with refCount := n, mark := b } =
      rt.recounted (Function.update f p n) (Function.update m p b) gc tmp := by
  simp only [recounted, set, mk.injEq, and_true]
  funext q
  by_cases hq : q = p
  · subst hq
    simp [ho]
  · simp [Function.update_of_ne hq]

theorem recounted_count (ho : rt.objects p = some o) (n : ℕ) :
    (rt.recounted f m gc tmp).set p { o with refCount := n, mark := m p } =
      rt.recounted (Function.update f p n) m gc tmp := by
  rw [recounted_set ho, Function.update_eq_self]

theorem recounted_mark (ho : rt.objects p = some o) (b : Bool) :
    (rt.recounted f m gc tmp).set p { o with refCount := f p, mark := b } =
      rt.recounted f (Function.update m p b) gc tmp := by
  rw [recounted_set ho, Function.update_eq_self]

theorem recounted_toTmpTail (hzero : rt.gcZeroRefCountList = []) :
    (rt.recounted f m gc tmp).toTmpTail p =
      rt.recounted f m (gc.erase p) (tmp.erase p ++ [p]) := by
  simp [recounted, toTmpTail, listDel, hzero]

theorem recounted_toGcTail (hzero : rt.gcZeroRefCountList = []) :
    (rt.recounted f m gc tmp).toGcTail p =
      rt.recounted f m (gc.erase p ++ [p]) (tmp.erase p) := by
  simp [recounted, toGcTail, listDel, hzero]

/-- What `mark_children` visits. -/
def children (rt : Runtime) (p : ℕ) : List ℕ := (rt.refsOf p).filterMap Ref.strong?

end Runtime

theorem count_strong (refs : List Ref) (p : ℕ) :
    (refs.filterMap Ref.strong?).count p = refs.count (.strong p) := by
  induction refs with
  | nil => rfl
  | cons r refs ih =>
    cases r with
    | strong q => simp [Ref.strong?, List.count_cons, ih]
    | weak q =>
      rw [List.filterMap_cons_none rfl, ih]
      simp

theorem mem_strong {refs : List Ref} : p ∈ refs.filterMap Ref.strong? ↔ .strong p ∈ refs := by
  rw [← List.count_pos_iff, count_strong, List.count_pos_iff]

/-- One more visit of `c`, and then those of a list. -/
theorem update_count (f : ℕ → ℕ) (c : ℕ) (l : List ℕ) :
    (fun q => Function.update f c (f c + 1) q + l.count q) = fun q => f q + (c :: l).count q := by
  funext q
  by_cases hq : q = c
  · subst hq
    rw [Function.update_self, List.count_cons_self]
    omega
  · simp [Function.update_of_ne hq, Ne.symm hq]

theorem markChildren_eq (ho : rt.objects p = some o) (visit : Runtime → ℕ → Option Runtime) :
    markChildren rt p visit = (o.refs.filterMap Ref.strong?).foldlM visit rt := by
  simp [markChildren, ho]

theorem markChildren_recounted {rt : Runtime} {f : ℕ → ℕ} {m : ℕ → Bool} {gc tmp : List ℕ}
    (ho : rt.objects p = some o) (visit : Runtime → ℕ → Option Runtime) :
    markChildren (rt.recounted f m gc tmp) p visit =
      (rt.children p).foldlM visit (rt.recounted f m gc tmp) := by
  rw [markChildren_eq (Runtime.recounted_objects ho), Runtime.children, Runtime.refsOf_of ho]

-- ---------------------------------------------------------------------------
-- `gc_decref`
-- ---------------------------------------------------------------------------

section Decref

variable {rt : Runtime} {f : ℕ → ℕ} {m : ℕ → Bool} {gc tmp : List ℕ}

/-- An object is set aside as soon as it was visited and has no count left. -/
structure SetAside (V : List ℕ) (f : ℕ → ℕ) (m : ℕ → Bool) (gc tmp : List ℕ) : Prop where
  perm : (gc ++ tmp).Perm V
  aside : p ∈ V → (p ∈ tmp ↔ m p = true ∧ f p = 0)

theorem SetAside.nodup (h : SetAside V f m gc tmp) (hV : V.Nodup) :
    gc.Nodup ∧ tmp.Nodup ∧ ∀ {p}, p ∈ gc → p ∉ tmp := by
  obtain ⟨hgc, htmp, hne⟩ := List.nodup_append.mp (h.perm.nodup_iff.mpr hV)
  exact ⟨hgc, htmp, fun hp hp' => hne _ hp _ hp' rfl⟩

/-- Moving one object to the end of those that are set aside. -/
theorem SetAside.move (h : SetAside V f m gc tmp) (hV : V.Nodup) (hp : p ∈ V)
    {f' : ℕ → ℕ} {m' : ℕ → Bool} (hf : ∀ q, q ≠ p → f' q = f q) (hm : ∀ q, q ≠ p → m' q = m q)
    (hp' : m' p = true ∧ f' p = 0) : SetAside V f' m' (gc.erase p) (tmp.erase p ++ [p]) := by
  obtain ⟨hgc, htmp, hne⟩ := h.nodup hV
  constructor
  case perm =>
    have hmem : p ∈ gc ++ tmp := h.perm.mem_iff.mpr hp
    have hdel : (gc ++ tmp).erase p = gc.erase p ++ tmp.erase p := by
      by_cases hpgc : p ∈ gc
      · rw [List.erase_append_left _ hpgc, List.erase_of_not_mem (hne hpgc)]
      · rw [List.erase_append_right _ hpgc, List.erase_of_not_mem hpgc]
    rw [← List.append_assoc, ← hdel]
    exact (List.perm_append_singleton ..).trans ((List.perm_cons_erase hmem).symm.trans h.perm)
  case aside =>
    intro q hq
    by_cases hqp : q = p
    · subst hqp
      simp [hp']
    · simp [List.mem_erase_of_ne hqp, hqp, hf q hqp, hm q hqp, h.aside hq]

/-- Nothing moves. -/
theorem SetAside.stay (h : SetAside V f m gc tmp) {f' : ℕ → ℕ} {m' : ℕ → Bool}
    (hsame : ∀ q ∈ V, (m' q = true ∧ f' q = 0) ↔ m q = true ∧ f q = 0) :
    SetAside V f' m' gc tmp :=
  ⟨h.perm, fun hq => (h.aside hq).trans (hsame _ hq).symm⟩

variable (hV : rt.gcObjList.Nodup) (hzero : rt.gcZeroRefCountList = [])
  (hthere : ∀ p ∈ rt.gcObjList, ∃ o, rt.objects p = some o)

include hV hzero hthere

theorem gcDecrefChild_ok (h : SetAside rt.gcObjList f m gc tmp) (hp : p ∈ rt.gcObjList)
    (hn : f p = n + 1) :
    ∃ gc' tmp', gcDecrefChild (rt.recounted f m gc tmp) p =
      some (rt.recounted (Function.update f p n) m gc' tmp') ∧
      SetAside rt.gcObjList (Function.update f p n) m gc' tmp' := by
  obtain ⟨o, ho⟩ := hthere p hp
  have heval : gcDecrefChild (rt.recounted f m gc tmp) p =
      some (if n = 0 ∧ m p = true
        then (rt.recounted (Function.update f p n) m gc tmp).toTmpTail p
        else rt.recounted (Function.update f p n) m gc tmp) := by
    simp [gcDecrefChild, Runtime.recounted_objects ho, hn, ← Runtime.recounted_count ho]
  by_cases hmove : n = 0 ∧ m p = true
  · rw [if_pos hmove, Runtime.recounted_toTmpTail hzero] at heval
    refine ⟨_, _, heval, h.move hV hp (fun q hq => Function.update_of_ne hq ..) (fun _ _ => rfl) ?_⟩
    exact ⟨hmove.2, by rw [Function.update_self, hmove.1]⟩
  · rw [if_neg hmove] at heval
    refine ⟨_, _, heval, h.stay fun q _ => ?_⟩
    by_cases hqp : q = p
    · subst hqp
      rw [Function.update_self, hn]
      constructor
      · rintro ⟨hq, hn⟩
        exact absurd ⟨hn, hq⟩ hmove
      · rintro ⟨-, hn⟩
        cases hn
    · rw [Function.update_of_ne hqp]

theorem gcDecrefChildren_ok {l : List ℕ} (h : SetAside rt.gcObjList f m gc tmp)
    (hl : ∀ p ∈ l, p ∈ rt.gcObjList) (hcount : ∀ p, l.count p ≤ f p) :
    ∃ gc' tmp', l.foldlM gcDecrefChild (rt.recounted f m gc tmp) =
      some (rt.recounted (fun p => f p - l.count p) m gc' tmp') ∧
      SetAside rt.gcObjList (fun p => f p - l.count p) m gc' tmp' := by
  induction l generalizing f gc tmp with
  | nil => exact ⟨gc, tmp, by simp, by simpa using h⟩
  | cons c l ih =>
    have hc := hcount c
    rw [List.count_cons_self] at hc
    obtain ⟨n, hn⟩ := Nat.exists_eq_succ_of_ne_zero (by omega : f c ≠ 0)
    obtain ⟨gc₁, tmp₁, heval, h₁⟩ := gcDecrefChild_ok hV hzero hthere h (hl c (by simp)) hn
    have hrest : (fun p => Function.update f c n p - l.count p) =
        fun p => f p - (c :: l).count p := by
      funext p
      by_cases hp : p = c
      · subst hp
        rw [Function.update_self, List.count_cons_self]
        omega
      · simp [Function.update_of_ne hp, Ne.symm hp]
    obtain ⟨gc', tmp', hfold, h'⟩ := ih h₁ (fun p hp => hl p (by simp [hp])) fun p => by
      have hp := hcount p
      by_cases hpc : p = c
      · subst hpc
        rw [Function.update_self]
        omega
      · rw [List.count_cons_of_ne (Ne.symm hpc)] at hp
        rwa [Function.update_of_ne hpc]
    rw [hrest] at hfold h'
    exact ⟨gc', tmp', by rw [List.foldlM_cons, heval]; exact hfold, h'⟩

theorem gcDecrefOne_ok (h : SetAside rt.gcObjList f m gc tmp) (hp : p ∈ rt.gcObjList)
    (hm : m p = false) (hclosed : ∀ c ∈ rt.children p, c ∈ rt.gcObjList)
    (hcount : ∀ c, (rt.children p).count c ≤ f c) :
    ∃ gc' tmp', gcDecrefOne (rt.recounted f m gc tmp) p =
      some (rt.recounted (fun c => f c - (rt.children p).count c) (Function.update m p true)
        gc' tmp') ∧
      SetAside rt.gcObjList (fun c => f c - (rt.children p).count c) (Function.update m p true)
        gc' tmp' := by
  obtain ⟨o, ho⟩ := hthere p hp
  obtain ⟨gc₁, tmp₁, hfold, h₁⟩ := gcDecrefChildren_ok hV hzero hthere h hclosed hcount
  have heval : gcDecrefOne (rt.recounted f m gc tmp) p =
      some (if f p - (rt.children p).count p = 0
        then (rt.recounted (fun c => f c - (rt.children p).count c) (Function.update m p true)
          gc₁ tmp₁).toTmpTail p
        else rt.recounted (fun c => f c - (rt.children p).count c) (Function.update m p true)
          gc₁ tmp₁) := by
    simp [gcDecrefOne, Runtime.recounted_objects ho, hm, markChildren_recounted ho, hfold,
      ← Runtime.recounted_mark ho]
  by_cases hlast : f p - (rt.children p).count p = 0
  · rw [if_pos hlast, Runtime.recounted_toTmpTail hzero] at heval
    refine ⟨_, _, heval, h₁.move hV hp (fun _ _ => rfl) (fun q hq => Function.update_of_ne hq ..) ?_⟩
    exact ⟨Function.update_self .., hlast⟩
  · rw [if_neg hlast] at heval
    refine ⟨_, _, heval, h₁.stay fun q _ => ?_⟩
    by_cases hqp : q = p
    · subst hqp
      simp [hlast]
    · rw [Function.update_of_ne hqp]

/-- Every object of `l` is visited, and takes away the counts it accounts for. -/
theorem gcDecrefLoop_ok {l : List ℕ} (h : SetAside rt.gcObjList f m gc tmp) (hnodup : l.Nodup)
    (hl : ∀ p ∈ l, p ∈ rt.gcObjList ∧ m p = false ∧ ∀ c ∈ rt.children p, c ∈ rt.gcObjList)
    (hcount : ∀ c, incoming l rt.children c ≤ f c) :
    ∃ gc' tmp', l.foldlM gcDecrefOne (rt.recounted f m gc tmp) =
      some (rt.recounted (fun c => f c - incoming l rt.children c) (fun p => m p || p ∈ l)
        gc' tmp') ∧
      SetAside rt.gcObjList (fun c => f c - incoming l rt.children c) (fun p => m p || p ∈ l)
        gc' tmp' := by
  induction l generalizing f m gc tmp with
  | nil => exact ⟨gc, tmp, by simp, by simpa using h⟩
  | cons q l ih =>
    obtain ⟨hq, hnodup⟩ := List.nodup_cons.mp hnodup
    obtain ⟨hqV, hmq, hclosed⟩ := hl q (by simp)
    have hsplit : ∀ c, (rt.children q).count c + incoming l rt.children c ≤ f c := fun c => by
      simpa using hcount c
    obtain ⟨gc₁, tmp₁, heval, h₁⟩ := gcDecrefOne_ok hV hzero hthere h hqV hmq hclosed fun c => by
      have := hsplit c
      omega
    have hl' : ∀ p ∈ l, p ∈ rt.gcObjList ∧ Function.update m q true p = false ∧
        ∀ c ∈ rt.children p, c ∈ rt.gcObjList := by
      intro p hp
      obtain ⟨hpV, hmp, hcl⟩ := hl p (by simp [hp])
      have hpq : p ≠ q := by
        rintro rfl
        exact hq hp
      exact ⟨hpV, (Function.update_of_ne hpq ..).trans hmp, hcl⟩
    obtain ⟨gc', tmp', hfold, h'⟩ := ih h₁ hnodup hl' fun c => by
      have := hsplit c
      omega
    have hcounts : (fun c => f c - (rt.children q).count c - incoming l rt.children c) =
        fun c => f c - incoming (q :: l) rt.children c := by
      funext c
      rw [incoming_cons]
      omega
    have hmarks : (fun p => Function.update m q true p || decide (p ∈ l)) =
        fun p => m p || decide (p ∈ q :: l) := by
      funext p
      by_cases hp : p = q
      · simp [hp]
      · simp [hp]
    rw [hcounts, hmarks] at hfold h'
    exact ⟨gc', tmp', by rw [List.foldlM_cons, heval]; exact hfold, h'⟩

end Decref

-- ---------------------------------------------------------------------------
-- `gc_scan`
-- ---------------------------------------------------------------------------

section Scan

variable {rt : Runtime} {f : ℕ → ℕ} {m : ℕ → Bool} {gc tmp : List ℕ}

/-- What is set aside has no count, and everything else has. -/
structure Scanned (V : List ℕ) (f : ℕ → ℕ) (m : ℕ → Bool) (gc tmp : List ℕ) : Prop where
  perm : (gc ++ tmp).Perm V
  aside : p ∈ V → (p ∈ tmp ↔ f p = 0)
  marked : p ∈ tmp → m p = true

/-- How `gc_scan` goes on: the list of what stays grows at its end by unmarked objects. -/
structure Grows (S : ℕ → Prop) (m : ℕ → Bool) (gc : List ℕ) (m' : ℕ → Bool) (gc' : List ℕ) :
    Prop where
  longer : gc <+: gc'
  same : p ∈ gc ∨ p ∉ gc' → m' p = m p
  unmarked : p ∈ gc' → p ∉ gc → m' p = false
  reached : (∀ p ∈ gc, S p) → ∀ p ∈ gc', S p

theorem Grows.refl (S : ℕ → Prop) (m : ℕ → Bool) (gc : List ℕ) : Grows S m gc m gc :=
  ⟨List.prefix_rfl, fun _ => rfl, fun hp hnot => absurd hp hnot, id⟩

theorem Grows.trans (h : Grows S m gc m' gc') (h' : Grows S m' gc' m'' gc'') :
    Grows S m gc m'' gc'' where
  longer := h.longer.trans h'.longer
  same {p} hp := by
    have hfirst : p ∈ gc ∨ p ∉ gc' := hp.imp_right fun hp hmem => hp (h'.longer.subset hmem)
    have hsecond : p ∈ gc' ∨ p ∉ gc'' := hp.imp_left fun hp => h.longer.subset hp
    exact (h'.same hsecond).trans (h.same hfirst)
  unmarked {p} hp hnot := by
    by_cases hmem : p ∈ gc'
    · exact (h'.same (.inl hmem)).trans (h.unmarked hmem hnot)
    · exact h'.unmarked hp hmem
  reached hS := h'.reached (h.reached hS)

variable (hV : rt.gcObjList.Nodup) (hzero : rt.gcZeroRefCountList = [])
  (hthere : ∀ p ∈ rt.gcObjList, ∃ o, rt.objects p = some o)

include hV hzero hthere

theorem gcScanIncrefChild_ok {S : ℕ → Prop} (h : Scanned rt.gcObjList f m gc tmp)
    (hp : p ∈ rt.gcObjList) (hS : S p) (hmost : f p + 1 ≤ maxRefCount) :
    ∃ m' gc' tmp', gcScanIncrefChild (rt.recounted f m gc tmp) p =
      some (rt.recounted (Function.update f p (f p + 1)) m' gc' tmp') ∧
      Scanned rt.gcObjList (Function.update f p (f p + 1)) m' gc' tmp' ∧ Grows S m gc m' gc' := by
  obtain ⟨o, ho⟩ := hthere p hp
  obtain ⟨hgc, htmp, hne⟩ := List.nodup_append.mp (h.perm.nodup_iff.mpr hV)
  by_cases hfirst : f p = 0
  · have hmem : p ∈ tmp := (h.aside hp).mpr hfirst
    have hnot : p ∉ gc := fun hpgc => hne p hpgc p hmem rfl
    have heval : gcScanIncrefChild (rt.recounted f m gc tmp) p = some
        (rt.recounted (Function.update f p (f p + 1)) (Function.update m p false) (gc ++ [p])
          (tmp.erase p)) := by
      have hincref := GcObject.incref_of (o := { o with refCount := f p, mark := m p }) hmost
      simp only [gcScanIncrefChild, Runtime.recounted_objects ho, Option.bind_eq_bind,
        Option.bind_some, hincref]
      rw [if_pos (congrArg Nat.succ hfirst), Runtime.recounted_toGcTail hzero,
        List.erase_of_not_mem hnot]
      exact congrArg some (Runtime.recounted_set ho ..)
    refine ⟨_, _, _, heval, ⟨?_, ?_, ?_⟩, ⟨List.prefix_append .., ?_, ?_, ?_⟩⟩
    · rw [List.append_assoc]
      exact ((List.perm_cons_erase hmem).symm.append_left gc).trans h.perm
    · intro q hq
      by_cases hqp : q = p
      · subst hqp
        simp [htmp.not_mem_erase]
      · rw [List.mem_erase_of_ne hqp, Function.update_of_ne hqp, h.aside hq]
    · intro q hq
      obtain ⟨hqp, hq⟩ := htmp.mem_erase_iff.mp hq
      exact (Function.update_of_ne hqp ..).trans (h.marked hq)
    · intro q hq
      refine Function.update_of_ne ?_ ..
      rintro rfl
      simp [hnot] at hq
    · intro q hq hqnot
      have : q = p := by simpa [hqnot] using hq
      simp [this]
    · intro hall q hq
      rcases List.mem_append.mp hq with hq | hq
      · exact hall q hq
      · exact List.mem_singleton.mp hq ▸ hS
  · have heval : gcScanIncrefChild (rt.recounted f m gc tmp) p =
        some (rt.recounted (Function.update f p (f p + 1)) m gc tmp) := by
      have hincref := GcObject.incref_of (o := { o with refCount := f p, mark := m p }) hmost
      simp [gcScanIncrefChild, Runtime.recounted_objects ho, hincref, hfirst,
        ← Runtime.recounted_count ho]
    refine ⟨_, _, _, heval, ⟨h.perm, ?_, h.marked⟩, .refl ..⟩
    intro q hq
    by_cases hqp : q = p
    · subst hqp
      rw [Function.update_self, h.aside hq]
      omega
    · rw [Function.update_of_ne hqp, h.aside hq]

theorem gcScanChildren_ok {S : ℕ → Prop} {l : List ℕ} (h : Scanned rt.gcObjList f m gc tmp)
    (hl : ∀ c ∈ l, c ∈ rt.gcObjList ∧ S c) (hmost : ∀ c, f c + l.count c ≤ maxRefCount) :
    ∃ m' gc' tmp', l.foldlM gcScanIncrefChild (rt.recounted f m gc tmp) =
      some (rt.recounted (fun c => f c + l.count c) m' gc' tmp') ∧
      Scanned rt.gcObjList (fun c => f c + l.count c) m' gc' tmp' ∧ Grows S m gc m' gc' := by
  induction l generalizing f m gc tmp with
  | nil => exact ⟨m, gc, tmp, by simp, by simpa using h, .refl ..⟩
  | cons c l ih =>
    obtain ⟨hc, hS⟩ := hl c (by simp)
    have hroom := hmost c
    rw [List.count_cons_self] at hroom
    obtain ⟨m₁, gc₁, tmp₁, heval, h₁, hgrows⟩ :=
      gcScanIncrefChild_ok hV hzero hthere h hc hS (by omega)
    have hrest := update_count f c l
    obtain ⟨m', gc', tmp', hfold, h', hgrows'⟩ := ih h₁ (fun c hc => hl c (by simp [hc]))
      fun q => Nat.le_trans (Nat.le_of_eq (congrFun hrest q)) (hmost q)
    rw [hrest] at hfold h'
    exact ⟨m', gc', tmp', by rw [List.foldlM_cons, heval]; exact hfold, h', hgrows.trans hgrows'⟩

/-- The first loop, from the `i`-th object on: everything in the list is visited, and what the
visited objects refer to is in the list. -/
theorem gcScanLoop_ok {S : ℕ → Prop} {i : ℕ} (h : Scanned rt.gcObjList f m gc tmp)
    (hclosed : ∀ q ∈ rt.gcObjList, ∀ c ∈ rt.children q, c ∈ rt.gcObjList)
    (hstep : ∀ q, S q → ∀ c ∈ rt.children q, S c) (hS : ∀ q ∈ gc, S q)
    (hn : rt.gcObjList.length ≤ n + i)
    (hmost : ∀ c, f c + incoming (gc.drop i ++ tmp) rt.children c ≤ maxRefCount) :
    ∃ m' gc' tmp', gcScanLoop n (rt.recounted f m gc tmp) i =
      some (rt.recounted (fun c => f c + incoming (gc'.drop i) rt.children c) m' gc' tmp') ∧
      Scanned rt.gcObjList (fun c => f c + incoming (gc'.drop i) rt.children c) m' gc' tmp' ∧
      gc <+: gc' ∧ (∀ q ∈ gc'.drop i, m' q = false) ∧
      (∀ q, q ∈ gc'.take i ∨ q ∉ gc' → m' q = m q) ∧ ∀ q ∈ gc', S q := by
  induction n generalizing f m gc tmp i with
  | zero =>
    have hlength := h.perm.length_eq
    rw [List.length_append] at hlength
    have hend : gc.length ≤ i := by omega
    have hdrop : gc.drop i = [] := List.drop_eq_nil_of_le hend
    refine ⟨m, gc, tmp, ?_, ?_, List.prefix_rfl, ?_, fun _ _ => rfl, hS⟩
    · simp [gcScanLoop, Runtime.recounted, hend, hdrop]
    · simpa [hdrop] using h
    · simp [hdrop]
  | succ n ih =>
    by_cases hend : gc.length ≤ i
    · have hdrop : gc.drop i = [] := List.drop_eq_nil_of_le hend
      have hget : gc[i]? = none := List.getElem?_eq_none hend
      refine ⟨m, gc, tmp, ?_, ?_, List.prefix_rfl, ?_, fun _ _ => rfl, hS⟩
      · simp [gcScanLoop, Runtime.recounted, hget, hdrop]
      · simpa [hdrop] using h
      · simp [hdrop]
    · have hi : i < gc.length := by omega
      obtain ⟨p, hget⟩ : ∃ p, gc[i]? = some p := ⟨_, List.getElem?_eq_getElem hi⟩
      have hpgc : p ∈ gc := List.mem_of_getElem? hget
      have hp : p ∈ rt.gcObjList := h.perm.mem_iff.mp (by simp [hpgc])
      obtain ⟨o, ho⟩ := hthere p hp
      obtain ⟨hgc, htmp, hne⟩ := List.nodup_append.mp (h.perm.nodup_iff.mpr hV)
      have hcount : f p ≠ 0 := fun hzero => hne p hpgc p ((h.aside hp).mpr hzero) rfl
      have hunmark : Scanned rt.gcObjList f (Function.update m p false) gc tmp := by
        refine ⟨h.perm, h.aside, fun {q} hq => (Function.update_of_ne ?_ ..).trans (h.marked hq)⟩
        rintro rfl
        exact hne q hpgc q hq rfl
      have hvisit : gc.drop i = p :: gc.drop (i + 1) := by
        obtain ⟨hi', hp'⟩ := List.getElem?_eq_some_iff.mp hget
        rw [List.drop_eq_getElem_cons hi', hp']
      have hroom : ∀ c, f c + (rt.children p).count c +
          incoming (gc.drop (i + 1) ++ tmp) rt.children c ≤ maxRefCount := by
        intro c
        have := hmost c
        rw [hvisit, List.cons_append, incoming_cons] at this
        omega
      obtain ⟨m₁, gc₁, tmp₁, hfold, h₁, hgrows⟩ := gcScanChildren_ok hV hzero hthere hunmark
        (fun c hc => ⟨hclosed p hp c hc, hstep p (hS p hpgc) c hc⟩)
        fun c => Nat.le_trans (Nat.le_add_right ..) (hroom c)
      -- What comes back from `tmp` comes back behind what is still to be visited.
      have hleft : (gc₁.drop (i + 1) ++ tmp₁).Perm (gc.drop (i + 1) ++ tmp) := by
        obtain ⟨back, hback⟩ := hgrows.longer
        have hall : (gc ++ (back ++ tmp₁)).Perm (gc ++ tmp) := by
          rw [← List.append_assoc, hback]
          exact h₁.perm.trans h.perm.symm
        rw [← hback, List.drop_append_of_le_length (by omega), List.append_assoc]
        exact ((List.perm_append_left_iff gc).mp hall).append_left _
      obtain ⟨m', gc', tmp', hloop, h', hlonger, hunmarked, hsame, hS'⟩ := ih (i := i + 1) h₁
        (hgrows.reached hS) (by omega) fun c => by
          rw [incoming_perm hleft]
          exact hroom c
      obtain ⟨rest, hrest⟩ := hgrows.longer.trans hlonger
      have hget' : gc'[i]? = some p := by
        rw [← hrest, List.getElem?_append_left (by omega), hget]
      have hdrop : gc'.drop i = p :: gc'.drop (i + 1) := by
        obtain ⟨hi', hp'⟩ := List.getElem?_eq_some_iff.mp hget'
        rw [List.drop_eq_getElem_cons hi', hp']
      have hcounts : (fun c => f c + (rt.children p).count c +
          incoming (gc'.drop (i + 1)) rt.children c) =
          fun c => f c + incoming (gc'.drop i) rt.children c := by
        funext c
        rw [hdrop, incoming_cons]
        omega
      rw [hcounts] at hloop h'
      have htake : gc'.take (i + 1) = gc'.take i ++ [p] := by
        rw [List.take_add_one, hget']
        rfl
      refine ⟨m', gc', tmp', ?_, h', ⟨rest, hrest⟩, ?_, ?_, hS'⟩
      · rw [← hloop]
        have hmark : (rt.recounted f m gc tmp).set p { o with refCount := f p, mark := false } =
            rt.recounted f (Function.update m p false) gc tmp := Runtime.recounted_mark ho false
        have hlist : (rt.recounted f m gc tmp).gcObjList[i]? = some p := hget
        simp only [gcScanLoop, hlist, Runtime.recounted_objects ho, Option.bind_eq_bind,
          Option.bind_some, if_neg hcount, hmark, markChildren_recounted ho, hfold]
      · intro q hq
        rw [hdrop] at hq
        rcases List.mem_cons.mp hq with rfl | hq
        · rw [hsame q (.inl (by simp [htake])), hgrows.same (.inl hpgc), Function.update_self]
        · exact hunmarked q hq
      · intro q hq
        have hnodup : (gc'.take i ++ [p]).Nodup :=
          htake ▸ ((List.take_sublist ..).nodup (List.nodup_append.mp
            (h'.perm.nodup_iff.mpr hV)).1)
        have hqp : q ≠ p := by
          rintro rfl
          rcases hq with hq | hq
          · exact (List.nodup_append.mp hnodup).2.2 q hq q (by simp) rfl
          · exact hq (List.mem_of_getElem? hget')
        have hgc' : q ∈ gc ∨ q ∉ gc₁ := by
          refine hq.imp (fun hq => ?_) fun hq hmem => hq (hlonger.subset hmem)
          rw [← hrest, List.take_append_of_le_length (by omega)] at hq
          exact List.mem_of_mem_take hq
        rw [hsame q (hq.imp_left fun hq => by simp [htake, hq]), hgrows.same hgc',
          Function.update_of_ne hqp]

omit hV hzero in
theorem gcScanRestore_ok {l : List ℕ} (hl : ∀ c ∈ l, c ∈ rt.gcObjList)
    (hmost : ∀ c, f c + l.count c ≤ maxRefCount) :
    l.foldlM gcScanIncrefChild2 (rt.recounted f m gc tmp) =
      some (rt.recounted (fun c => f c + l.count c) m gc tmp) := by
  induction l generalizing f with
  | nil => simp
  | cons c l ih =>
    obtain ⟨o, ho⟩ := hthere c (hl c (by simp))
    have hroom := hmost c
    rw [List.count_cons_self] at hroom
    have heval : gcScanIncrefChild2 (rt.recounted f m gc tmp) c =
        some (rt.recounted (Function.update f c (f c + 1)) m gc tmp) := by
      have hincref := GcObject.incref_of (o := { o with refCount := f c, mark := m c }) (by
        change f c + 1 ≤ maxRefCount
        omega)
      simp [gcScanIncrefChild2, Runtime.recounted_objects ho, hincref,
        ← Runtime.recounted_count ho]
    have hrest := update_count f c l
    rw [List.foldlM_cons, heval, ← hrest]
    exact ih (fun c hc => hl c (by simp [hc])) fun q => Nat.le_trans (Nat.le_of_eq (congrFun hrest q)) (hmost q)

omit hV hzero in
/-- The second loop: the objects that are set aside give their counts back. -/
theorem gcScanRestoreLoop_ok {l : List ℕ}
    (hl : ∀ q ∈ l, q ∈ rt.gcObjList ∧ ∀ c ∈ rt.children q, c ∈ rt.gcObjList)
    (hmost : ∀ c, f c + incoming l rt.children c ≤ maxRefCount) :
    l.foldlM (fun rt p => markChildren rt p gcScanIncrefChild2) (rt.recounted f m gc tmp) =
      some (rt.recounted (fun c => f c + incoming l rt.children c) m gc tmp) := by
  induction l generalizing f with
  | nil => simp
  | cons q l ih =>
    obtain ⟨hq, hclosed⟩ := hl q (by simp)
    obtain ⟨o, ho⟩ := hthere q hq
    have hrest : (fun c => f c + (rt.children q).count c + incoming l rt.children c) =
        fun c => f c + incoming (q :: l) rt.children c := by
      funext c
      rw [incoming_cons]
      omega
    have hroom : ∀ c, f c + (rt.children q).count c + incoming l rt.children c ≤ maxRefCount :=
      fun c => Nat.le_trans (Nat.le_of_eq (congrFun hrest c)) (hmost c)
    rw [List.foldlM_cons, markChildren_recounted ho, gcScanRestore_ok hthere hclosed
      fun c => Nat.le_trans (Nat.le_add_right ..) (hroom c), ← hrest]
    exact ih (fun q hq => hl q (by simp [hq])) hroom

end Scan

-- ---------------------------------------------------------------------------
-- What the two passes find
-- ---------------------------------------------------------------------------

/-- What can be reached from the loose references, over what the objects keep. -/
inductive Reached (refs : ℕ → List Ref) (loose : List Ref) : ℕ → Prop
  | held : .strong p ∈ loose → Reached refs loose p
  | step : Reached refs loose q → .strong p ∈ refs q → Reached refs loose p

section Passes

variable {types : ℕ → GcObjType} {rt : Runtime} {loose : List Ref}

theorem Resting.owners (h : Resting types rt loose busy) : rt.owners = rt.gcObjList := by
  have htmp : rt.tmpObjList = [] := (h.releasing.queued rfl).1
  simp [Runtime.owners, h.queue, htmp]

theorem Resting.counted (h : Resting types rt loose busy) : Counted types rt loose :=
  h.releasing.counted.lists rfl rfl (.refl _)

theorem incoming_children (V : List ℕ) (p : ℕ) :
    incoming V rt.children p = incoming V rt.refsOf (.strong p) := by
  induction V with
  | nil => rfl
  | cons q V ih => rw [incoming_cons, incoming_cons, ih, Runtime.children, count_strong]

/-- At rest a count is what the loose references and the objects account for. -/
structure Accounted (rt : Runtime) (loose : List Ref) (f : ℕ → ℕ) : Prop where
  same : rt = rt.recounted f (fun _ => false) rt.gcObjList []
  count : ∀ p, f p = loose.count (.strong p) + incoming rt.gcObjList rt.children p

theorem Resting.accounted (h : Resting types rt loose []) : ∃ f, Accounted rt loose f := by
  have hcounted := h.counted
  have howners := h.owners
  refine ⟨fun p => (rt.objects p).elim 0 GcObject.refCount, ?_, fun p => ?_⟩
  · have htmp : rt.tmpObjList = [] := (h.releasing.queued rfl).1
    have hobjects : rt.objects = fun p => (rt.objects p).map fun o =>
        { o with refCount := (rt.objects p).elim 0 GcObject.refCount, mark := false } := by
      funext p
      cases ho : rt.objects p with
      | none => rfl
      | some o =>
        have hmark : o.mark = false := by
          by_cases hp : p ∈ rt.owners
          · exact h.releasing.unmarked (howners ▸ hp) ho
          · exact (hcounted.left ho hp).2.2.1
        simp [← hmark]
    rw [Runtime.recounted, ← hobjects, ← htmp]
  · rw [incoming_children, ← howners]
    cases ho : rt.objects p with
    | some o =>
      rw [Option.elim_some, hcounted.strong ho]
      omega
    | none =>
      have hp : p ∉ rt.owners := fun hp => by
        obtain ⟨o, ho'⟩ := hcounted.present hp
        rw [ho] at ho'
        cases ho'
      rw [Option.elim_none, List.count_eq_zero_of_not_mem fun hmem => hp (hcounted.held hmem),
        incoming_eq_zero fun q hq hmem => hp (hcounted.refers hq hmem).1]

theorem Resting.closed (h : Resting types rt loose busy) (hq : q ∈ rt.gcObjList)
    (hc : c ∈ rt.children q) : c ∈ rt.gcObjList := by
  rw [← h.owners] at hq ⊢
  exact (h.counted.refers hq (mem_strong.mp hc)).1

/-- What `gc_decref` leaves of a count is what is held from outside. -/
theorem gcDecref_ok (h : Resting types rt loose []) :
    ∃ gc tmp, gcDecref rt = some (rt.recounted (fun p => loose.count (.strong p))
        (fun p => decide (p ∈ rt.gcObjList)) gc tmp) ∧
      Scanned rt.gcObjList (fun p => loose.count (.strong p))
        (fun p => decide (p ∈ rt.gcObjList)) gc tmp := by
  obtain ⟨f, hsame, hcount⟩ := h.accounted
  have hV : rt.gcObjList.Nodup := h.owners ▸ h.counted.nodup
  have hstart : SetAside rt.gcObjList f (fun _ => false) rt.gcObjList [] := by
    refine ⟨by simp, fun {p} _ => ?_⟩
    simp
  obtain ⟨gc, tmp, hloop, haside⟩ := gcDecrefLoop_ok hV h.queue
    (fun p hp => h.counted.present (h.owners ▸ hp)) hstart hV
    (fun p hp => ⟨hp, rfl, fun c hc => h.closed hp hc⟩) fun c => by
      rw [hcount c]
      exact Nat.le_add_left ..
  have hcounts : (fun c => f c - incoming rt.gcObjList rt.children c) =
      fun p => loose.count (.strong p) := by
    funext c
    rw [hcount c]
    omega
  simp only [hcounts, Bool.false_or] at hloop haside
  refine ⟨gc, tmp, ?_, haside.perm, fun {p} hp => ?_, fun {p} hp => ?_⟩
  · have hinit : ({ rt with tmpObjList := [] } : Runtime) =
        rt.recounted f (fun _ => false) rt.gcObjList [] := by
      have htmp : rt.tmpObjList = [] := (h.releasing.queued rfl).1
      rw [← hsame, ← htmp]
    rw [gcDecref, hinit]
    exact hloop
  · rw [haside.aside hp]
    simp [hp]
  · have : p ∈ rt.gcObjList := haside.perm.mem_iff.mp (by simp [hp])
    simp [this]

/-- No reference is there more often than its count can say. -/
def Within (rt : Runtime) (loose : List Ref) : Prop :=
  ∀ r, incoming rt.gcObjList rt.refsOf r + loose.count r ≤ r.most

/-- After `gc_decref` and `gc_scan` every count is what it was, and the objects are apart: those
that can be reached, and those that are marked. -/
theorem gcPasses_ok (h : Resting types rt loose [])
    (hmost : Within rt loose) :
    ∃ gc tmp, (gcDecref rt).bind gcScan =
      some { rt with
        objects := fun p => (rt.objects p).map fun o => { o with mark := decide (p ∈ tmp) }
        gcObjList := gc, tmpObjList := tmp } ∧
      (gc ++ tmp).Perm rt.gcObjList ∧ ∀ p, p ∈ gc ↔ Reached rt.refsOf loose p := by
  obtain ⟨f, hsame, hcount⟩ := h.accounted
  obtain ⟨gc₁, tmp₁, hdecref, hscanned⟩ := gcDecref_ok h
  have hV : rt.gcObjList.Nodup := h.owners ▸ h.counted.nodup
  have hthere : ∀ p ∈ rt.gcObjList, ∃ o, rt.objects p = some o :=
    fun p hp => h.counted.present (h.owners ▸ hp)
  have hheld : ∀ q ∈ gc₁, Reached rt.refsOf loose q := by
    intro q hq
    have hqV : q ∈ rt.gcObjList := hscanned.perm.mem_iff.mp (by simp [hq])
    obtain ⟨-, -, hne⟩ := List.nodup_append.mp (hscanned.perm.nodup_iff.mpr hV)
    refine .held (List.count_pos_iff.mp (Nat.pos_of_ne_zero fun hzero => ?_))
    exact hne q hq q ((hscanned.aside hqV).mpr hzero) rfl
  have hlength := hscanned.perm.length_eq
  rw [List.length_append] at hlength
  have hroom : ∀ c, loose.count (.strong c) + incoming rt.gcObjList rt.children c ≤
      maxRefCount := by
    intro c
    have := hmost (.strong c)
    rwa [← incoming_children, Nat.add_comm] at this
  obtain ⟨m, gc, tmp, hloop, hscanned', -, hunmarked, hsame', hreached⟩ :=
    gcScanLoop_ok (n := gc₁.length + tmp₁.length) (i := 0) (S := Reached rt.refsOf loose) hV
      h.queue hthere hscanned (fun q hq c hc => h.closed hq hc) (fun q hq c hc => .step hq (mem_strong.mp hc))
      hheld (by omega) fun c => by
        rw [List.drop_zero, incoming_perm hscanned.perm]
        exact hroom c
  simp only [List.drop_zero] at hloop hscanned' hunmarked
  have hmem : ∀ {q}, q ∈ tmp → q ∈ rt.gcObjList := fun hq =>
    hscanned'.perm.mem_iff.mp (by simp [hq])
  obtain ⟨-, -, hne⟩ := List.nodup_append.mp (hscanned'.perm.nodup_iff.mpr hV)
  have hrestore : tmp.foldlM (fun rt p => markChildren rt p gcScanIncrefChild2) (rt.recounted
      (fun c => loose.count (.strong c) + incoming gc rt.children c) m gc tmp) = some _ :=
    gcScanRestoreLoop_ok hthere (fun q hq => ⟨hmem hq, fun c hc => h.closed (hmem hq) hc⟩)
      fun c => by
        rw [Nat.add_assoc, ← incoming_append, incoming_perm hscanned'.perm]
        exact hroom c
  have hcounts : (fun c => loose.count (.strong c) + incoming gc rt.children c +
      incoming tmp rt.children c) = f := by
    funext c
    rw [hcount c, ← incoming_perm hscanned'.perm, incoming_append]
    omega
  have hmarks : m = fun q => decide (q ∈ tmp) := by
    funext q
    by_cases hgc : q ∈ gc
    · have hq : q ∉ tmp := fun hq => hne q hgc q hq rfl
      simp [hunmarked q hgc, hq]
    · have hall := hscanned'.perm.mem_iff (a := q)
      simp only [List.mem_append, hgc, false_or] at hall
      simp [hsame' q (.inr hgc), hall]
  refine ⟨gc, tmp, ?_, hscanned'.perm, fun p => ⟨hreached p, fun hp => ?_⟩⟩
  · rw [hdecref, Option.bind_some, gcScan]
    have hfuel : (rt.recounted (fun p => loose.count (.strong p))
        (fun p => decide (p ∈ rt.gcObjList)) gc₁ tmp₁).gcObjList.length + (rt.recounted
        (fun p => loose.count (.strong p)) (fun p => decide (p ∈ rt.gcObjList)) gc₁
          tmp₁).tmpObjList.length = gc₁.length + tmp₁.length := rfl
    rw [hfuel, hloop]
    refine hrestore.trans (congrArg some ?_)
    rw [hcounts, hmarks, Runtime.recounted]
    have hobjects : (fun p => (rt.objects p).map fun o =>
        { o with refCount := f p, mark := decide (p ∈ tmp) }) =
        fun p => (rt.objects p).map fun o => { o with mark := decide (p ∈ tmp) } := by
      funext p
      cases ho : rt.objects p with
      | none => rfl
      | some o =>
        have hcounted : some o = some { o with refCount := f p, mark := false } :=
          calc some o = rt.objects p := ho.symm
            _ = _ := congrFun (congrArg Runtime.objects hsame) p
            _ = _ := Runtime.recounted_objects ho
        rw [Option.some.injEq] at hcounted
        have hrefs : o.refCount = f p := congrArg GcObject.refCount hcounted
        simp [hrefs]
    rw [hobjects]
  · have hin : ∀ {p}, p ∈ rt.gcObjList →
        0 < loose.count (.strong p) + incoming gc rt.children p → p ∈ gc := by
      intro p hpV hpos
      have hall := hscanned'.perm.mem_iff.mpr hpV
      rcases List.mem_append.mp hall with hgc | htmp
      · exact hgc
      · have := (hscanned'.aside hpV).mp htmp
        omega
    induction hp with
    | held hp =>
      have := List.count_pos_iff.mpr hp
      exact hin (h.owners ▸ h.counted.held hp) (by omega)
    | @step q p _ hp ih =>
      have hchild : p ∈ rt.children q := mem_strong.mpr hp
      have := incoming_pos.mpr ⟨q, ih, hchild⟩
      exact hin (h.closed (hscanned'.perm.mem_iff.mp (by simp [ih])) hchild) (by omega)

end Passes

end QuickJsKmp.Collector
