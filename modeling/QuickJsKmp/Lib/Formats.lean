import QuickJsKmp.Lib.Boundaries
import Mathlib.Data.List.TakeWhile

/-!
# Formatted messages

A format is made of pieces: words of its own and arguments, which are C strings
and may have a precision. `snprintf` keeps the front part that its array has
room for. A message quotes its arguments well when what it shows of each is
whole code points.
-/

namespace Formats

open CodePoints

/-- A C string ends before the first NUL. -/
def untilNul (s : List UInt8) : List UInt8 := s.takeWhile (· ≠ 0)

/-- What a conversion shows: it reads no further than its precision. -/
def shownOf : Option ℕ → List UInt8 → List UInt8
  | none, s => untilNul s
  | some n, s => untilNul (s.take n)

/-- An excerpt shows what somebody else has made of its argument. -/
inductive Piece
  | lit (s : List UInt8)
  | quote (precision : Option ℕ) (arg : List UInt8)
  | excerpt (shown arg : List UInt8)
  deriving DecidableEq, Repr

def Piece.text : Piece → List UInt8
  | .lit s => s
  | .quote precision arg => shownOf precision arg
  | .excerpt shown _ => shown

def text (f : List Piece) : List UInt8 := f.flatMap Piece.text

def snprintf (size : ℕ) (f : List Piece) : List UInt8 := (text f).take (size - 1)

/-- What is shown of an argument is whole code points of it. -/
def Piece.Whole : Piece → Prop
  | .lit _ => True
  | .quote precision arg => TextPrefix (shownOf precision arg) arg
  | .excerpt shown arg => TextPrefix shown arg

/-- The message `m` ends inside of this piece or with it. -/
def Piece.Ends (m : List UInt8) : Piece → Prop
  | .lit s => m <+: s
  | .quote precision arg => m <+: shownOf precision arg ∧ TextPrefix m arg
  | .excerpt shown arg => m <+: shown ∧ TextPrefix m arg

/-- The message shows the pieces one after the other, and ends after the last one or before. What
it shows of an argument is whole code points. -/
def Quotes : List Piece → List UInt8 → Prop
  | [], m => m = []
  | p :: rest, m => p.Ends m ∨ p.Whole ∧ ∃ m', m = p.text ++ m' ∧ Quotes rest m'

theorem text_cons (p : Piece) (rest : List Piece) : text (p :: rest) = p.text ++ text rest := rfl

-- ---------------------------------------------------------------------------
-- C strings
-- ---------------------------------------------------------------------------

theorem untilNul_take (n : ℕ) (s : List UInt8) : untilNul (s.take n) = (untilNul s).take n := by
  induction s generalizing n with
  | nil => simp [untilNul]
  | cons b s ih =>
    cases n with
    | zero => rfl
    | succ n =>
      have hrest := ih n
      simp only [untilNul, List.take_succ_cons, List.takeWhile_cons] at hrest ⊢
      split
      · rw [hrest, List.take_succ_cons]
      · rfl

theorem untilNul_eq_take (s : List UInt8) : untilNul s = s.take (untilNul s).length :=
  List.prefix_iff_eq_take.mp (List.takeWhile_prefix _)

/-- A NUL is no continuing byte. -/
theorem whole_untilNul (s : List UInt8) : Whole (untilNul s).length s := by
  intro c hc
  have hsplit : untilNul s ++ s.dropWhile (· ≠ 0) = s := List.takeWhile_append_dropWhile
  rw [← hsplit, List.getElem?_append_right (by rw [hsplit]), hsplit, Nat.sub_self] at hc
  have hnul := List.head?_dropWhile_not (fun b : UInt8 => decide (b ≠ 0)) s
  rw [List.head?_eq_getElem?, hc] at hnul
  have hzero : c = 0 := by simpa using hnul
  subst hzero
  decide

theorem textPrefix_untilNul (cps : List CodePoint) :
    TextPrefix (untilNul (bytes cps)) (bytes cps) := by
  have h := (textPrefix_take_iff cps _).mpr (whole_untilNul (bytes cps))
  rwa [← untilNul_eq_take] at h

-- ---------------------------------------------------------------------------
-- Prefixes
-- ---------------------------------------------------------------------------

theorem bytes_prefix_iff : bytes a <+: bytes b ↔ a <+: b := by
  constructor
  · rintro ⟨tail, htail⟩
    have htake : (bytes b).take (bytes a).length = bytes a := by rw [← htail, List.take_left]
    obtain ⟨first, rest, rfl, hfirst⟩ :=
      (whole_iff b _).mp ((encoded_take_iff b _).mp ⟨a, htake⟩)
    rw [htake] at hfirst
    exact ⟨rest, by rw [bytes_injective hfirst]⟩
  · rintro ⟨rest, rfl⟩
    exact ⟨bytes rest, (bytes_append a rest).symm⟩

theorem textPrefix_bytes_iff : TextPrefix (bytes a) (bytes b) ↔ a <+: b := by
  constructor
  · rintro ⟨first, rest, hall, hfirst⟩
    exact ⟨rest, by rw [bytes_injective hfirst, bytes_injective hall]⟩
  · rintro ⟨rest, rfl⟩
    exact ⟨a, rest, rfl, rfl⟩

theorem textPrefix_iff : TextPrefix p (bytes b) ↔ ∃ a, p = bytes a ∧ a <+: b := by
  constructor
  · rintro ⟨a, rest, hall, rfl⟩
    exact ⟨a, rfl, rest, (bytes_injective hall).symm⟩
  · rintro ⟨a, rfl, h⟩
    exact textPrefix_bytes_iff.mpr h

/-- A front part that is encoded is a front part of the text. -/
theorem textPrefix_front (h : p <+: bytes b) : TextPrefix p (bytes b) ↔ Encoded p := by
  constructor
  · rintro ⟨a, -, -, ha⟩
    exact ⟨a, ha⟩
  · rintro ⟨a, rfl⟩
    exact textPrefix_bytes_iff.mpr (bytes_prefix_iff.mp h)

theorem prefix_append_iff {a b c : List α} :
    a <+: b ++ c ↔ a <+: b ∨ ∃ d, a = b ++ d ∧ d <+: c := by
  constructor
  · rintro ⟨t, ht⟩
    rcases List.append_eq_append_iff.mp ht with ⟨d, rfl, rfl⟩ | ⟨d, rfl, rfl⟩
    · exact .inl (List.prefix_append ..)
    · exact .inr ⟨d, rfl, List.prefix_append ..⟩
  · rintro (h | ⟨d, rfl, h⟩)
    · exact h.trans (List.prefix_append ..)
    · exact (List.prefix_append_right_inj b).mpr h

theorem textPrefix_append_iff :
    TextPrefix m (bytes b ++ bytes c) ↔
      TextPrefix m (bytes b) ∨ ∃ m', m = bytes b ++ m' ∧ TextPrefix m' (bytes c) := by
  rw [← bytes_append, textPrefix_iff, textPrefix_iff]
  constructor
  · rintro ⟨a, rfl, h⟩
    rcases prefix_append_iff.mp h with hleft | ⟨d, rfl, hright⟩
    · exact .inl ⟨a, rfl, hleft⟩
    · exact .inr ⟨bytes d, bytes_append b d, textPrefix_bytes_iff.mpr hright⟩
  · rintro (⟨a, rfl, h⟩ | ⟨m', rfl, h⟩)
    · exact ⟨a, rfl, prefix_append_iff.mpr (.inl h)⟩
    · obtain ⟨d, rfl, hright⟩ := textPrefix_iff.mp h
      exact ⟨b ++ d, (bytes_append b d).symm, prefix_append_iff.mpr (.inr ⟨d, rfl, hright⟩)⟩

-- ---------------------------------------------------------------------------
-- Quotations
-- ---------------------------------------------------------------------------

def Ascii (s : List UInt8) : Prop := ∀ b ∈ s, b.toNat < 0x80

instance (s : List UInt8) : Decidable (Ascii s) :=
  decidable_of_iff (s.all fun b => b.toNat < 0x80) (by simp [Ascii])

/-- A piece that is text: words in ASCII, or whole code points of an argument. -/
def Piece.Plain : Piece → Prop
  | .lit s => Ascii s
  | .quote precision arg => TextPrefix (shownOf precision arg) arg
  | .excerpt shown arg => TextPrefix shown arg

theorem Ascii.scalar (h : Ascii s) : ∃ cps, Scalar cps ∧ s = bytes cps := by
  induction s with
  | nil => exact ⟨[], by simp [Scalar], rfl⟩
  | cons b s ih =>
    obtain ⟨hb, hs⟩ := List.forall_mem_cons.mp h
    obtain ⟨cps, hcps, rfl⟩ := ih hs
    have hutf8 : utf8 ⟨b.toNat, by omega⟩ = [b] := by
      rw [utf8, if_pos hb]
      simp
    refine ⟨⟨b.toNat, by omega⟩ :: cps, List.forall_mem_cons.mpr ⟨?_, hcps⟩, ?_⟩
    · rintro ⟨hge, -⟩
      exact absurd hb (by simp only at hge; omega)
    · rw [bytes_cons, hutf8]
      rfl

theorem Ascii.encoded (h : Ascii s) : ∃ cps, s = bytes cps := by
  obtain ⟨cps, -, hcps⟩ := h.scalar
  exact ⟨cps, hcps⟩

theorem Ascii.textPrefix (h : Ascii s) (hm : m <+: s) : TextPrefix m s := by
  obtain ⟨cps, rfl⟩ := h.encoded
  have hfront : Ascii m := fun b hb => h b (hm.subset hb)
  exact (textPrefix_front hm).mpr hfront.encoded

theorem prefix_of_textPrefix (h : TextPrefix p q) : p <+: q := by
  obtain ⟨first, rest, rfl, rfl⟩ := h
  exact ⟨bytes rest, (bytes_append first rest).symm⟩

variable {p : Piece} {f : List Piece}

theorem Piece.Plain.encoded (h : p.Plain) : ∃ a, p.text = bytes a := by
  cases p with
  | lit s => exact Ascii.encoded h
  | quote precision arg =>
    obtain ⟨a, -, -, ha⟩ := h
    exact ⟨a, ha⟩
  | excerpt shown arg =>
    obtain ⟨a, -, -, ha⟩ := h
    exact ⟨a, ha⟩

theorem Piece.Plain.whole (h : p.Plain) : p.Whole := by
  cases p with
  | lit s => trivial
  | quote precision arg => exact h
  | excerpt shown arg => exact h

/-- A front part of whole code points. -/
theorem textPrefix_part (h : TextPrefix shown arg) :
    m <+: shown ∧ TextPrefix m arg ↔ TextPrefix m shown := by
  obtain ⟨a, rest, rfl, rfl⟩ := h
  constructor
  · rintro ⟨hm, b, rest', -, rfl⟩
    exact (textPrefix_front hm).mpr ⟨b, rfl⟩
  · intro hm
    obtain ⟨b, rfl, hb⟩ := textPrefix_iff.mp hm
    exact ⟨prefix_of_textPrefix hm, textPrefix_bytes_iff.mpr (hb.trans (List.prefix_append ..))⟩

theorem Piece.Plain.ends_iff (h : p.Plain) : p.Ends m ↔ TextPrefix m p.text := by
  cases p with
  | lit s => exact ⟨Ascii.textPrefix h, prefix_of_textPrefix⟩
  | quote precision arg => exact textPrefix_part h
  | excerpt shown arg => exact textPrefix_part h

theorem text_encoded (h : ∀ p ∈ f, p.Plain) : ∃ a, text f = bytes a := by
  induction f with
  | nil => exact ⟨[], rfl⟩
  | cons p f ih =>
    obtain ⟨hp, hf⟩ := List.forall_mem_cons.mp h
    obtain ⟨a, ha⟩ := hp.encoded
    obtain ⟨b, hb⟩ := ih hf
    exact ⟨a ++ b, by rw [text_cons, ha, hb, bytes_append]⟩

/-- A message that quotes well is the front part of what the format says in full. -/
theorem quotes_iff (h : ∀ p ∈ f, p.Plain) : Quotes f m ↔ TextPrefix m (text f) := by
  induction f generalizing m with
  | nil =>
    refine ⟨?_, fun hm => List.prefix_nil.mp (prefix_of_textPrefix hm)⟩
    rintro rfl
    exact ⟨[], [], rfl, rfl⟩
  | cons p f ih =>
    obtain ⟨hp, hf⟩ := List.forall_mem_cons.mp h
    obtain ⟨a, ha⟩ := hp.encoded
    obtain ⟨b, hb⟩ := text_encoded hf
    have hih (m : List UInt8) : Quotes f m ↔ TextPrefix m (text f) := ih hf
    rw [text_cons, ha, hb, textPrefix_append_iff, ← ha, ← hb, ← hp.ends_iff]
    simp only [Quotes, hp.whole, true_and, hih]

theorem quotes_text (h : ∀ p ∈ f, p.Whole) : Quotes f (text f) := by
  induction f with
  | nil => rfl
  | cons p f ih =>
    obtain ⟨hp, hf⟩ := List.forall_mem_cons.mp h
    exact .inr ⟨hp, text f, rfl, ih hf⟩

theorem Piece.Ends.front (h : p.Ends m) : m <+: p.text := by
  cases p with
  | lit s => exact h
  | quote precision arg => exact h.1
  | excerpt shown arg => exact h.1

theorem Piece.whole_of_ends (h : p.Ends p.text) : p.Whole := by
  cases p with
  | lit s => trivial
  | quote precision arg => exact h.2
  | excerpt shown arg => exact h.2

/-- A message goes on after whole code points only. -/
theorem quotes_cons_iff (hnil : Quotes f []) :
    Quotes (p :: f) (p.text ++ m) ↔ p.Whole ∧ Quotes f m := by
  constructor
  · rintro (hends | ⟨hwhole, m', hm, hquotes⟩)
    · have hlength := hends.front.length_le
      rw [List.length_append] at hlength
      obtain rfl : m = [] := List.eq_nil_of_length_eq_zero (by omega)
      rw [List.append_nil] at hends
      exact ⟨Piece.whole_of_ends hends, hnil⟩
    · exact ⟨hwhole, List.append_cancel_left hm ▸ hquotes⟩
  · rintro ⟨hwhole, hquotes⟩
    exact .inr ⟨hwhole, m, rfl, hquotes⟩

/-- What the array has room for has to end where a code point ends. -/
theorem quotes_snprintf_iff (h : ∀ p ∈ f, p.Plain) :
    Quotes f (snprintf size f) ↔ Whole (size - 1) (text f) := by
  obtain ⟨a, ha⟩ := text_encoded h
  rw [quotes_iff h, snprintf, ha]
  exact textPrefix_take_iff a _

theorem whole_quote (h : Encoded arg) : (Piece.quote none arg).Whole := by
  obtain ⟨cps, rfl⟩ := h
  exact textPrefix_untilNul cps

/-- A precision has to end where a code point ends. -/
theorem whole_quote_iff (h : Encoded arg) :
    (Piece.quote (some n) arg).Whole ↔ Whole n (untilNul arg) := by
  obtain ⟨cps, rfl⟩ := h
  obtain ⟨a, rest, hall, ha⟩ := textPrefix_untilNul cps
  have hprefix : untilNul ((bytes cps).take n) <+: bytes cps :=
    (List.takeWhile_prefix _).trans (List.take_prefix ..)
  rw [Piece.Whole, shownOf, textPrefix_front hprefix, untilNul_take, ha]
  exact encoded_take_iff a n

/-- Words after the argument show that the message does not end inside of it. -/
theorem not_quotes_of_cut (hne : after ≠ []) (h : ¬ (Piece.quote precision arg).Whole) :
    ¬ Quotes [.lit before, .quote precision arg, .lit after]
      (text [.lit before, .quote precision arg, .lit after]) := by
  have hpos : 0 < after.length := List.length_pos_of_ne_nil hne
  have htext : text [.lit before, .quote precision arg, .lit after] =
      before ++ (shownOf precision arg ++ after) := by
    simp [text, Piece.text]
  rw [htext]
  rintro (hends | ⟨-, m, hm, hquotes⟩)
  · have hlength := List.IsPrefix.length_le hends
    simp only [List.length_append] at hlength
    omega
  · obtain rfl := List.append_cancel_left hm
    rcases hquotes with ⟨hends, -⟩ | ⟨hwhole, -⟩
    · have hlength := hends.length_le
      rw [List.length_append] at hlength
      omega
    · exact h hwhole

-- ---------------------------------------------------------------------------
-- Seams
-- ---------------------------------------------------------------------------

theorem head_ascii (h : ∀ b ∈ (bytes (cp :: cps)).head?, b.toNat < 0x80) : cp.val < 0x80 := by
  obtain ⟨b, tail, hutf8, hweight, -⟩ := utf8_shape cp
  have hb : b.toNat < 0x80 := h b (by rw [bytes_cons, hutf8]; rfl)
  have htail : tail = [] := by
    rw [weight, if_pos hb] at hweight
    exact List.eq_nil_of_length_eq_zero (by omega)
  subst htail
  exact (ascii_utf8 hutf8).2 ▸ hb

theorem last_ascii (h : ∀ b ∈ (bytes (cps ++ [cp])).getLast?, b.toNat < 0x80) : cp.val < 0x80 := by
  obtain ⟨b, tail, hutf8, -, htail⟩ := utf8_shape cp
  have hbytes : bytes (cps ++ [cp]) = bytes cps ++ b :: tail := by
    rw [bytes_append, bytes_cons, hutf8, bytes_nil, List.append_nil]
  rw [hbytes, List.getLast?_append_of_ne_nil _ (List.cons_ne_nil b tail)] at h
  rcases List.eq_nil_or_concat tail with rfl | ⟨front, c, rfl⟩
  · exact (ascii_utf8 hutf8).2 ▸ h b rfl
  · rw [List.concat_eq_append, ← List.cons_append, List.getLast?_concat] at h
    have hc := h c rfl
    have hcontinuing := (htail c (by simp)).1
    omega

/-- Where texts meet at an ASCII byte, no surrogates meet. -/
theorem unpaired_append (ha : Unpaired a) (hb : Unpaired b)
    (h : (∀ x ∈ (bytes a).getLast?, x.toNat < 0x80) ∨ ∀ x ∈ (bytes b).head?, x.toNat < 0x80) :
    Unpaired (a ++ b) := by
  refine List.isChain_append.mpr ⟨ha, hb, ?_⟩
  rintro x hx y hy ⟨⟨hhigh, -⟩, hlow, -⟩
  rcases h with h | h
  · obtain ⟨front, rfl⟩ := List.getLast?_eq_some_iff.mp hx
    have := last_ascii h
    omega
  · obtain ⟨rest, rfl⟩ := List.head?_eq_some_iff.mp hy
    have := head_ascii h
    omega

end Formats
