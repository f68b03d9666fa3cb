import Mathlib.Data.List.Basic

/-!
# Formats with a dictionary

A writer puts out bytes and notes symbols in a dictionary, which is stored apart from them; a
reader has the stored table and takes bytes from its input. `Carries` relates the two: what was
written is read back whatever follows it, no part of it is read as the whole, and the dictionary
gets the symbols in the order of their first use.
-/

namespace Codec

-- ---------------------------------------------------------------------------
-- Writers and readers
-- ---------------------------------------------------------------------------

def Encoder (S B α : Type) := List S → α × List B × List S

variable {S B T E α β γ σ : Type}

instance : Monad (Encoder S B) where
  pure a := fun d => (a, [], d)
  bind w k := fun d =>
    let (a, b, d₁) := w d
    let (c, b', d₂) := k a d₁
    (c, b ++ b', d₂)

namespace Encoder

def val (w : Encoder S B α) (d : List S) : α := (w d).1

def out (w : Encoder S B α) (d : List S) : List B := (w d).2.1

def dict (w : Encoder S B α) (d : List S) : List S := (w d).2.2

def put (bytes : List B) : Encoder S B Unit := fun d => ((), bytes, d)

@[simp] theorem val_pure (a : α) (d : List S) : (pure a : Encoder S B α).val d = a := rfl
@[simp] theorem out_pure (a : α) (d : List S) : out (pure a : Encoder S B α) d = [] := rfl
@[simp] theorem dict_pure (a : α) (d : List S) : dict (pure a : Encoder S B α) d = d := rfl
@[simp] theorem out_put (bytes : List B) (d : List S) : (put bytes).out d = bytes := rfl
@[simp] theorem dict_put (bytes : List B) (d : List S) : (put bytes).dict d = d := rfl

@[simp] theorem val_bind (w : Encoder S B α) (k : α → Encoder S B β) (d : List S) :
    (w >>= k).val d = (k (w.val d)).val (w.dict d) := rfl

@[simp] theorem out_bind (w : Encoder S B α) (k : α → Encoder S B β) (d : List S) :
    (w >>= k).out d = w.out d ++ (k (w.val d)).out (w.dict d) := rfl

protected theorem bind_assoc (w : Encoder S B α) (k : α → Encoder S B β) (l : β → Encoder S B γ) :
    w >>= k >>= l = w >>= fun a => k a >>= l :=
  funext fun _ => Prod.ext rfl (Prod.ext (List.append_assoc ..) rfl)

@[simp] theorem dict_bind (w : Encoder S B α) (k : α → Encoder S B β) (d : List S) :
    (w >>= k).dict d = (k (w.val d)).dict (w.dict d) := rfl

end Encoder

abbrev Decoder (T B E : Type) := ReaderT T (StateT (List B) (Except E))

namespace Decoder

def on (r : Decoder T B E α) (t : T) (input : List B) : Except E (α × List B) := (r.run t).run input

def times (r : Decoder T B E α) : ℕ → Decoder T B E (List α)
  | 0 => pure []
  | n + 1 => do
    let a ← r
    let as ← times r n
    return a :: as

@[simp] theorem on_pure (a : α) (t : T) (input : List B) :
    (pure a : Decoder T B E α).on t input = .ok (a, input) := rfl

theorem on_bind (r : Decoder T B E α) (k : α → Decoder T B E β) (t : T) (input : List B) :
    (r >>= k).on t input = (r.on t input).bind fun x => (k x.1).on t x.2 := rfl

theorem on_bind_ok {r : Decoder T B E α} {k : α → Decoder T B E β} {t : T} {input rest : List B}
    {a : α} (h : r.on t input = .ok (a, rest)) : (r >>= k).on t input = (k a).on t rest := by
  rw [on_bind, h]
  rfl

theorem on_get (k : List B → Decoder T B E β) (t : T) (input : List B) :
    (get >>= k : Decoder T B E β).on t input = (k input).on t input := rfl

theorem on_read (k : T → Decoder T B E β) (t : T) (input : List B) :
    (read >>= k : Decoder T B E β).on t input = (k t).on t input := rfl

theorem on_assoc {γ : Type} (r : Decoder T B E α) (k : α → Decoder T B E β)
    (l : β → Decoder T B E γ) (t : T) (input : List B) :
    (r >>= k >>= l).on t input = (r >>= fun a => k a >>= l).on t input := by
  rw [on_bind, on_bind, on_bind]
  cases r.on t input <;> rfl

theorem on_bind_error {r : Decoder T B E α} {k : α → Decoder T B E β} {t : T} {input : List B}
    {e : E} (h : r.on t input = .error e) : (r >>= k).on t input = .error e := by
  rw [on_bind, h]
  rfl

end Decoder

-- ---------------------------------------------------------------------------
-- The dictionary
-- ---------------------------------------------------------------------------

section Extend

variable [DecidableEq S]

/-- The symbols that are not there yet are added at the end. -/
def extend (d : List S) : List S → List S
  | [] => d
  | x :: xs => extend (if x ∈ d then d else d ++ [x]) xs

@[simp] theorem extend_nil (d : List S) : extend d [] = d := rfl

theorem extend_append (d xs ys : List S) : extend d (xs ++ ys) = extend (extend d xs) ys := by
  induction xs generalizing d with
  | nil => rfl
  | cons x xs ih => exact ih _

theorem prefix_extend (d xs : List S) : d <+: extend d xs := by
  induction xs generalizing d with
  | nil => exact List.prefix_rfl
  | cons x xs ih =>
    refine List.IsPrefix.trans ?_ (ih _)
    split
    · exact List.prefix_rfl
    · exact List.prefix_append ..

theorem nodup_extend {d : List S} (h : d.Nodup) (xs : List S) : (extend d xs).Nodup := by
  induction xs generalizing d with
  | nil => exact h
  | cons x xs ih =>
    refine ih ?_
    split
    case isTrue => exact h
    case isFalse hx =>
      refine List.nodup_append.mpr ⟨h, by simp, fun a ha b hb hab => hx ?_⟩
      rwa [← List.mem_singleton.mp hb, ← hab]

theorem extend_eq (d xs : List S) : extend d xs = d ++ (xs.filter (· ∉ d)).eraseDups := by
  induction xs generalizing d with
  | nil => simp
  | cons x xs ih =>
    rw [extend, ih]
    by_cases hx : x ∈ d
    · rw [if_pos hx, List.filter_cons_of_neg (by simpa using hx)]
    · have hlater : xs.filter (· ∉ d ++ [x]) = (xs.filter (· ∉ d)).filter fun y => !y == x := by
        rw [List.filter_filter]
        refine List.filter_congr fun y _ => ?_
        by_cases hy : y = x <;> simp [hy]
      rw [if_neg hx, List.filter_cons_of_pos (by simpa using hx), List.eraseDups_cons, hlater,
        List.append_assoc, List.singleton_append]

/-- From nothing on, each symbol is there once, at the place of its first use. -/
theorem extend_empty (xs : List S) : extend [] xs = xs.eraseDups := by
  rw [extend_eq, List.nil_append, List.filter_eq_self.mpr (by simp)]

end Extend

-- ---------------------------------------------------------------------------
-- What is carried
-- ---------------------------------------------------------------------------

/-- Which symbols are noted, what is known of the reader's table while the dictionary is so far,
and what a reader says at the end of its input. -/
structure Format (S T E : Type) where
  noted : S → Bool
  Covers : T → List S → Prop
  mono : ∀ {t d d'}, Covers t d' → d <+: d' → Covers t d
  endOfInput : E

/-- `w` writes what `r` reads as `a`, and uses the symbols `u`. -/
structure Carries [DecidableEq S] (F : Format S T E) (w : Encoder S B Unit) (r : Decoder T B E α)
    (u : List S) (a : α) : Prop where
  notes : ∀ d, w.dict d = extend d (u.filter F.noted)
  reads : ∀ {t d}, F.Covers t (w.dict d) → ∀ rest, r.on t (w.out d ++ rest) = .ok (a, rest)
  cut : ∀ {t d}, F.Covers t (w.dict d) → ∀ part, part <+: w.out d → part ≠ w.out d →
    r.on t part = .error F.endOfInput

namespace Carries

variable [DecidableEq S] {F : Format S T E} {w : Encoder S B Unit} {r r' : Decoder T B E α}
  {u v : List S} {a a' : α} {b : β}

theorem grows (h : Carries F w r u a) (d : List S) : d <+: w.dict d := by
  rw [h.notes]
  exact prefix_extend ..

theorem prefix_append_cases {p l l' : List B} (h : p <+: l ++ l') :
    p <+: l ∨ ∃ q, p = l ++ q ∧ q <+: l' := by
  rcases List.prefix_or_prefix_of_prefix h (List.prefix_append l l') with hp | ⟨q, rfl⟩
  · exact .inl hp
  · exact .inr ⟨q, rfl, (List.prefix_append_right_inj l).mp h⟩

/-- Nothing is written, and nothing read. -/
theorem pure (a : α) :
    Carries F (Pure.pure () : Encoder S B Unit) (Pure.pure a : Decoder T B E α) [] a where
  notes _ := rfl
  reads _ _ := rfl
  cut _ _ hpart hne := absurd (List.prefix_nil.mp hpart) hne

/-- Bytes that do not depend on the dictionary. -/
theorem put {bytes : List B} (hreads : ∀ t rest, r.on t (bytes ++ rest) = .ok (a, rest))
    (hcut : ∀ t part, part <+: bytes → part ≠ bytes → r.on t part = .error F.endOfInput) :
    Carries F (Encoder.put bytes) r [] a where
  notes _ := rfl
  reads _ := hreads _
  cut _ := hcut _

/-- Bytes that the dictionary says, after symbols were looked up in it. -/
theorem putOf {look : Encoder S B σ} {bytes : σ → List B} (hout : ∀ d, look.out d = [])
    (hnotes : ∀ d, look.dict d = extend d (u.filter F.noted))
    (hreads : ∀ {t d}, F.Covers t (look.dict d) →
      ∀ rest, r.on t (bytes (look.val d) ++ rest) = .ok (a, rest))
    (hcut : ∀ {t d}, F.Covers t (look.dict d) → ∀ part, part <+: bytes (look.val d) →
      part ≠ bytes (look.val d) → r.on t part = .error F.endOfInput) :
    Carries F (do let v ← look; Encoder.put (bytes v)) r u a := by
  have hbytes : ∀ d, (do let v ← look; Encoder.put (bytes v)).out d = bytes (look.val d) := by
    intro d
    rw [Encoder.out_bind, hout, List.nil_append, Encoder.out_put]
  constructor
  case notes => exact hnotes
  case reads =>
    intro t d hcovers rest
    rw [hbytes]
    exact hreads hcovers rest
  case cut =>
    intro t d hcovers part hpart hne
    rw [hbytes] at hpart hne
    exact hcut hcovers part hpart hne

/-- A reader that does the same on the tables of the format. -/
theorem congr_reader (h : Carries F w r u a)
    (hr : ∀ {t d}, F.Covers t d → ∀ input, r'.on t input = r.on t input) :
    Carries F w r' u a where
  notes := h.notes
  reads hcovers rest := (hr hcovers _).trans (h.reads hcovers rest)
  cut hcovers part hpart hne := (hr hcovers _).trans (h.cut hcovers part hpart hne)

/-- One part after the other. -/
theorem bind {k : Unit → Encoder S B Unit} {k' : α → Decoder T B E β} (h : Carries F w r u a)
    (h' : Carries F (k ()) (k' a) v b) : Carries F (w >>= k) (r >>= k') (u ++ v) b where
  notes d := by
    rw [Encoder.dict_bind, List.filter_append, extend_append, ← h.notes]
    exact h'.notes _
  reads {t d} hcovers rest := by
    rw [Encoder.out_bind, List.append_assoc,
      Decoder.on_bind_ok (h.reads (F.mono hcovers (h'.grows _)) _)]
    exact h'.reads hcovers rest
  cut {t d} hcovers part hpart hne := by
    have hfirst : F.Covers t (w.dict d) := F.mono hcovers (h'.grows _)
    rw [Encoder.out_bind] at hpart hne
    rcases prefix_append_cases hpart with hpart | ⟨part', rfl, hpart'⟩
    · by_cases hall : part = w.out d
      · have hread := h.reads hfirst []
        rw [List.append_nil] at hread
        rw [hall, Decoder.on_bind_ok hread]
        refine h'.cut hcovers [] List.nil_prefix fun hnil => hne ?_
        have hnil : (k ()).out (w.dict d) = [] := hnil.symm
        rw [hall]
        change _ = _ ++ (k ()).out (w.dict d)
        rw [hnil, List.append_nil]
      · exact Decoder.on_bind_error (h.cut hfirst part hpart hall)
    · rw [Decoder.on_bind_ok (h.reads hfirst part')]
      exact h'.cut hcovers part' hpart' fun hall => hne (by rw [hall]; rfl)

/-- Two parts that are read as one, in front of the others. -/
theorem bind_assoc {k : Unit → Encoder S B Unit} {r₂ : α → Decoder T B E β}
    {k' : β → Decoder T B E γ} {c : γ} (h : Carries F w r u a)
    (h' : Carries F (k ()) (do let y ← r₂ a; k' y) v c) :
    Carries F (w >>= k) (r >>= r₂ >>= k') (u ++ v) c := by
  have hboth : Carries F (w >>= k) (do let x ← r; let y ← r₂ x; k' y) (u ++ v) c := .bind h h'
  exact hboth.congr_reader fun _ _ => Decoder.on_assoc ..

/-- Bytes that are written at once, and read in two parts. -/
theorem bind_put {bytes first second : List B} {k' : α → Decoder T B E β}
    (hbytes : first ++ second = bytes) (h : Carries F (Encoder.put first) r u a)
    (h' : Carries F (Encoder.put second) (k' a) v b) :
    Carries F (Encoder.put bytes) (r >>= k') (u ++ v) b :=
  hbytes ▸ h.bind (k := fun _ => Encoder.put second) h'

/-- A reader that makes something of what it read, and reads no further. -/
theorem andThen {k' : α → Decoder T B E β} (h : Carries F w r u a)
    (hk : ∀ {t d}, F.Covers t (w.dict d) → ∀ input, (k' a).on t input = .ok (b, input)) :
    Carries F w (r >>= k') u b where
  notes := h.notes
  reads hcovers rest := (Decoder.on_bind_ok (h.reads hcovers rest)).trans (hk hcovers rest)
  cut hcovers part hpart hne := Decoder.on_bind_error (h.cut hcovers part hpart hne)

theorem map (f : α → β) (h : Carries F w r u a) :
    Carries F w (do let x ← r; return f x) u (f a) :=
  h.andThen fun _ _ => rfl

/-- A reader that looks at its table first, where all tables of the format are like `t`. -/
theorem ask {k : T → Decoder T B E α} {t : T} (hk : ∀ {t' d}, F.Covers t' d → k t' = k t)
    (h : Carries F w (k t) u a) : Carries F w (read >>= k) u a :=
  h.congr_reader fun hcovers _ => by rw [Decoder.on_read, hk hcovers]

theorem of_filter (h : Carries F w r u a) (hu : u.filter F.noted = v.filter F.noted) :
    Carries F w r v a :=
  ⟨fun d => hu ▸ h.notes d, h.reads, h.cut⟩

theorem of_eq (h : Carries F w r u a) (hu : u = v) (ha : a = a') : Carries F w r v a' :=
  hu ▸ ha ▸ h

/-- As many parts as the reader was told. -/
theorem forM {w : γ → Encoder S B Unit} {f : γ → α} {u : γ → List S} {l : List γ}
    (h : ∀ x ∈ l, Carries F (w x) r (u x) (f x)) :
    Carries F (l.forM w) (r.times l.length) (l.flatMap u) (l.map f) := by
  induction l with
  | nil => exact .pure []
  | cons x l ih =>
    have hrest := ih fun y hy => h y (List.mem_cons_of_mem _ hy)
    exact .bind (h x List.mem_cons_self) (hrest.map (f x :: ·))

end Carries

-- ---------------------------------------------------------------------------
-- With other symbols
-- ---------------------------------------------------------------------------

/-- With the symbols renamed, `w'` writes what `w` writes, whatever was noted before. -/
def Renames (noted : S → Bool) (f : S → S) (w w' : Encoder S B α) : Prop :=
  ∀ d, (∀ x ∈ d, noted x = true) → w' (d.map f) = (w.val d, w.out d, (w.dict d).map f) ∧
    ∀ x ∈ w.dict d, noted x = true

namespace Renames

variable {noted : S → Bool} {f : S → S} {w w' : Encoder S B α}

theorem pure (a : α) : Renames noted f (Pure.pure a : Encoder S B α) (Pure.pure a) :=
  fun _ hd => ⟨rfl, hd⟩

theorem put (bytes : List B) : Renames noted f (Encoder.put bytes) (Encoder.put bytes) :=
  fun _ hd => ⟨rfl, hd⟩

theorem bind {k k' : α → Encoder S B β} (h : Renames noted f w w')
    (hk : ∀ a, Renames noted f (k a) (k' a)) : Renames noted f (w >>= k) (w' >>= k') := by
  intro d hd
  obtain ⟨hfirst, hnoted⟩ := h d hd
  obtain ⟨hsecond, hnoted'⟩ := hk (w.val d) (w.dict d) hnoted
  refine ⟨?_, hnoted'⟩
  change (let (a, b, d₁) := w' (d.map f); let (c, b', d₂) := k' a d₁; (c, b ++ b', d₂)) = _
  rw [hfirst]
  dsimp only
  rw [hsecond]
  rfl

theorem forM {w w' : γ → Encoder S B Unit} {g : γ → γ} {l : List γ}
    (h : ∀ x ∈ l, Renames noted f (w x) (w' (g x))) :
    Renames noted f (l.forM w) ((l.map g).forM w') := by
  induction l with
  | nil => exact .pure ()
  | cons x l ih =>
    exact .bind (h x List.mem_cons_self) fun _ => ih fun y hy => h y (List.mem_cons_of_mem _ hy)

end Renames

end Codec
