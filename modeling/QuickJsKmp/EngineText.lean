import QuickJsKmp.CStrings
import QuickJsKmp.Lib.Boundaries
import QuickJsKmp.Lib.Piecewise

/-!
# Texts of the engine

How `quickjs.c` reads bytes into a string and writes a string as bytes. Bytes
that are not generalized UTF-8 are read too, a U+FFFD for each stretch of them.
-/

namespace QuickJsKmp.EngineText

open CodePoints Piecewise

-- ---------------------------------------------------------------------------
-- JS_NewStringLen
-- ---------------------------------------------------------------------------

/-- How many bytes follow a leading byte, `utf8_first_code_mask` and
`utf8_min_code`. -/
def sequence (c : ℕ) : Option (ℕ × ℕ × ℕ) :=
  if c < 0xC0 then none
  else if c < 0xE0 then some (1, 0x1F, 0x80)
  else if c < 0xF0 then some (2, 0x0F, 0x800)
  else if c < 0xF8 then some (3, 0x07, 0x10000)
  else if c < 0xFC then some (4, 0x03, 0x200000)
  else if c < 0xFE then some (5, 0x01, 0x4000000)
  else none

def isTail (b : UInt8) : Bool := 0x80 ≤ b.toNat ∧ b.toNat < 0xC0

/-- The code, and how many bytes it takes besides the first; `none` is -1. -/
def unicodeFromUtf8 (b : UInt8) (rest : Bytes) : Option (ℕ × ℕ) :=
  if b.toNat < 0x80 then some (b.toNat, 0)
  else
    match sequence b.toNat with
    | none => none
    | some (l, mask, min) =>
      if rest.length < l ∨ ¬ (rest.take l).all isTail then none
      else
        let c := (rest.take l).foldl (fun c b => (c <<< 6) ||| (b.toNat &&& 0x3F)) (b.toNat &&& mask)
        if c < min then none else some (c, l)

/-- The bytes that are skipped after an error, besides the first. -/
def skipped (b : UInt8) (rest : Bytes) : ℕ :=
  if isTail b then
    let tails := (rest.takeWhile isTail).length
    match rest.drop tails with
    | [] => tails
    | _ :: rest => tails + 1 + (rest.takeWhile isTail).length
  else (rest.takeWhile isTail).length

/-- A round of the loop of `JS_NewStringLen`. -/
def readChar : Reader UInt8 UInt16 := fun b rest =>
  match unicodeFromUtf8 b rest with
  | some (c, n) =>
    if c < 0x10000 then ([c.toUInt16], n)
    else if c ≤ 0x10FFFF then
      ([(0xD800 + (c - 0x10000) / 1024).toUInt16, (0xDC00 + (c - 0x10000) % 1024).toUInt16], n)
    else ([0xFFFD], skipped b rest)
  | none => ([0xFFFD], skipped b rest)

def newStringLen (b : Bytes) : Text := run readChar b

/-- `JS_ToCStringLen`: a high surrogate takes the low one after it along. -/
def toCString (text : Text) : Bytes := bytes (codePoints text)

-- ---------------------------------------------------------------------------
-- JS_AtomGetStr
-- ---------------------------------------------------------------------------

/-- The string of an atom, with its `is_wide_char`. -/
structure Atom where
  wide : Bool
  text : Text
  deriving DecidableEq, Repr

/-- `ATOM_GET_STR_BUF_SIZE` less `UTF8_CHAR_LEN_MAX`. -/
def atomRoom : ℕ := 64 - 6

/-- The loop, after `q - buf` bytes. A surrogate is encoded like any other unit. -/
def atomLoop : ℕ → Text → Bytes
  | _, [] => []
  | written, c :: rest =>
    if written ≥ atomRoom then []
    else utf8 (ofUnit c) ++ atomLoop (written + (utf8 (ofUnit c)).length) rest

/-- A narrow string of ASCII alone is handed out as it is. -/
def atomGetStr (atom : Atom) : Bytes :=
  if !atom.wide && atom.text.all (fun c => c.toNat < 0x80) then bytes (atom.text.map ofUnit)
  else atomLoop 0 atom.text

/-- Whole units of the text. -/
theorem atomLoop_eq (written : ℕ) (text : Text) :
    ∃ first, first <+: text ∧ atomLoop written text = bytes (first.map ofUnit) := by
  induction text generalizing written with
  | nil => exact ⟨[], List.prefix_refl _, rfl⟩
  | cons c rest ih =>
    rw [atomLoop]
    split
    · exact ⟨[], List.nil_prefix, rfl⟩
    · obtain ⟨first, hfirst, hbytes⟩ := ih (written + (utf8 (ofUnit c)).length)
      refine ⟨c :: first, (List.prefix_cons_inj c).mpr hfirst, ?_⟩
      rw [hbytes, List.map_cons, bytes_cons]

theorem atomGetStr_eq (atom : Atom) :
    ∃ first, first <+: atom.text ∧ atomGetStr atom = bytes (first.map ofUnit) := by
  unfold atomGetStr
  split
  · exact ⟨atom.text, List.prefix_refl _, rfl⟩
  · exact atomLoop_eq 0 atom.text

-- ---------------------------------------------------------------------------
-- Code points are read back
-- ---------------------------------------------------------------------------

theorem isTail_continuing (h : Continuing b) : isTail b = true := decide_eq_true h

theorem tail_step (c n : ℕ) :
    (c <<< 6) ||| ((0x80 + n % 64).toUInt8.toNat &&& 0x3F) = c * 64 + n % 64 := by
  rw [toNat_toUInt8 (by omega), Wtf8.and_tail, Wtf8.shift_or 6 c (by omega)]
  omega

theorem sequence_two (h : n < 32) : sequence (0xC0 + n) = some (1, 0x1F, 0x80) := by
  rw [sequence, if_neg (by omega), if_pos (by omega)]

theorem sequence_three (h : n < 16) : sequence (0xE0 + n) = some (2, 0x0F, 0x800) := by
  rw [sequence, if_neg (by omega), if_neg (by omega), if_pos (by omega)]

theorem sequence_four (h : n < 8) : sequence (0xF0 + n) = some (3, 0x07, 0x10000) := by
  rw [sequence, if_neg (by omega), if_neg (by omega), if_neg (by omega), if_pos (by omega)]

theorem mask_two (h : n < 32) : (0xC0 + n) &&& 0x1F = n := by
  rw [show 0x1F = 2 ^ 5 - 1 from rfl, Nat.and_two_pow_sub_one_eq_mod]
  omega

theorem mask_three (h : n < 16) : (0xE0 + n) &&& 0x0F = n := by
  rw [show 0x0F = 2 ^ 4 - 1 from rfl, Nat.and_two_pow_sub_one_eq_mod]
  omega

theorem mask_four (h : n < 8) : (0xF0 + n) &&& 0x07 = n := by
  rw [show 0x07 = 2 ^ 3 - 1 from rfl, Nat.and_two_pow_sub_one_eq_mod]
  omega

/-- The code of a sequence, from its leading byte and the bytes after it. -/
def code (mask : ℕ) (b : UInt8) (tail : Bytes) : ℕ :=
  tail.foldl (fun c b => (c <<< 6) ||| (b.toNat &&& 0x3F)) (b.toNat &&& mask)

/-- A code point of more than one byte is led by its sequence, and is its code. -/
theorem sequence_utf8 (h : utf8 cp = b :: tail) (hne : tail ≠ []) :
    ∃ mask least, 0x80 ≤ b.toNat ∧ isTail b = false ∧
      sequence b.toNat = some (tail.length, mask, least) ∧ code mask b tail = cp.val ∧
      least ≤ cp.val := by
  have hcp := cp.isLt
  have hlead (n : ℕ) (hn : 0xC0 ≤ n) : decide (0x80 ≤ n ∧ n < 0xC0) = false :=
    decide_eq_false (by omega)
  unfold utf8 at h
  split at h
  · obtain ⟨-, rfl⟩ := List.cons.inj h
    exact absurd rfl hne
  split at h
  · obtain ⟨rfl, rfl⟩ := List.cons.inj h
    rw [isTail, toNat_toUInt8 (by omega)]
    refine ⟨_, _, by omega, hlead _ (by omega), sequence_two (by omega), ?_, by omega⟩
    rw [code, toNat_toUInt8 (by omega), mask_two (by omega), List.foldl_cons, tail_step,
      List.foldl_nil]
    omega
  split at h
  · obtain ⟨rfl, rfl⟩ := List.cons.inj h
    rw [isTail, toNat_toUInt8 (by omega)]
    refine ⟨_, _, by omega, hlead _ (by omega), sequence_three (by omega), ?_, by omega⟩
    rw [code, toNat_toUInt8 (by omega), mask_three (by omega), List.foldl_cons, tail_step,
      List.foldl_cons, tail_step, List.foldl_nil]
    omega
  · obtain ⟨rfl, rfl⟩ := List.cons.inj h
    rw [isTail, toNat_toUInt8 (by omega)]
    refine ⟨_, _, by omega, hlead _ (by omega), sequence_four (by omega), ?_, by omega⟩
    rw [code, toNat_toUInt8 (by omega), mask_four (by omega), List.foldl_cons, tail_step,
      List.foldl_cons, tail_step, List.foldl_cons, tail_step, List.foldl_nil]
    omega

theorem all_isTail {tail : Bytes} (h : ∀ c ∈ tail, Continuing c) : tail.all isTail = true :=
  List.all_eq_true.mpr fun c hc => isTail_continuing (h c hc)

theorem unicodeFromUtf8_utf8 (h : utf8 cp = b :: tail) (htail : ∀ c ∈ tail, Continuing c)
    (rest : Bytes) : unicodeFromUtf8 b (tail ++ rest) = some (cp.val, tail.length) := by
  rcases eq_or_ne tail [] with rfl | hne
  · obtain ⟨hlt, hval⟩ := ascii_utf8 h
    rw [unicodeFromUtf8, if_pos hlt, hval]
    rfl
  · obtain ⟨mask, least, hge, -, hseq, hcode, hleast⟩ := sequence_utf8 h hne
    have hthere : ¬ ((tail ++ rest).length < tail.length ∨ ¬ tail.all isTail = true) :=
      not_or.mpr ⟨by rw [List.length_append]; omega, not_not_intro (all_isTail htail)⟩
    rw [unicodeFromUtf8, if_neg (by omega), hseq]
    simp only [List.take_left]
    rw [if_neg hthere, show tail.foldl _ _ = cp.val from hcode, if_neg (by omega)]

theorem readChar_utf8 (h : utf8 cp = b :: tail) (htail : ∀ c ∈ tail, Continuing c) (rest : Bytes) :
    readChar b (tail ++ rest) = (utf16 cp, tail.length) := by
  have hcp := cp.isLt
  unfold readChar
  rw [unicodeFromUtf8_utf8 h htail]
  simp only [utf16]
  split
  · rfl
  · rw [if_pos (by omega)]

theorem newStringLen_cons (cp : CodePoint) (rest : Bytes) :
    newStringLen (utf8 cp ++ rest) = utf16 cp ++ newStringLen rest := by
  obtain ⟨b, tail, hutf8, -, htail⟩ := utf8_shape cp
  rw [newStringLen, hutf8, List.cons_append, run_cons, readChar_utf8 hutf8 htail, List.drop_left]
  rfl

/-- Generalized UTF-8 is read as the units of its code points. -/
theorem newStringLen_bytes_append (cps : List CodePoint) (rest : Bytes) :
    newStringLen (bytes cps ++ rest) = units cps ++ newStringLen rest := by
  induction cps with
  | nil => rfl
  | cons cp cps ih =>
    rw [bytes_cons, List.append_assoc, newStringLen_cons, ih, units_cons, List.append_assoc]

theorem newStringLen_bytes (cps : List CodePoint) : newStringLen (bytes cps) = units cps := by
  have h := newStringLen_bytes_append cps []
  rwa [List.append_nil, show newStringLen [] = [] from rfl, List.append_nil] at h

/-- An ASCII byte is a unit of its own. -/
theorem newStringLen_ascii (h : b.toNat < 0x80) (rest : Bytes) :
    newStringLen (b :: rest) = b.toNat.toUInt16 :: newStringLen rest := by
  have hutf8 : utf8 ⟨b.toNat, by omega⟩ = [b] := by
    rw [utf8, if_pos h]
    simp
  have hutf16 : utf16 ⟨b.toNat, by omega⟩ = [b.toNat.toUInt16] := by
    rw [utf16, if_pos (by simp only; omega)]
  have hcons := newStringLen_cons ⟨b.toNat, by omega⟩ rest
  rwa [hutf8, hutf16] at hcons

def engineStrings : EngineStrings where
  newStringLen := newStringLen
  newStringLen_bytes cps _ := newStringLen_bytes cps

-- ---------------------------------------------------------------------------
-- A code point that is not there in full
-- ---------------------------------------------------------------------------

/-- The front part of a code point is read as one U+FFFD. -/
theorem newStringLen_inside (cp : CodePoint) (hk : 0 < k) (hlt : k < (utf8 cp).length) :
    newStringLen ((utf8 cp).take k) = [0xFFFD] := by
  obtain ⟨b, tail, hutf8, -, htail⟩ := utf8_shape cp
  obtain ⟨k, rfl⟩ := Nat.exists_eq_succ_of_ne_zero hk.ne'
  rw [hutf8, List.length_cons] at hlt
  have hne : tail ≠ [] := by
    rintro rfl
    simp at hlt
  obtain ⟨mask, least, hge, hfirst, hseq, -, -⟩ := sequence_utf8 hutf8 hne
  have hshort : (tail.take k).length < tail.length := by
    rw [List.length_take]
    omega
  have hall : (tail.take k).takeWhile isTail = tail.take k :=
    List.takeWhile_eq_self_iff.mpr fun c hc => isTail_continuing (htail c (List.mem_of_mem_take hc))
  have herror : unicodeFromUtf8 b (tail.take k) = none := by
    rw [unicodeFromUtf8, if_neg (by omega), hseq]
    exact if_pos (.inl hshort)
  have hskipped : skipped b (tail.take k) = (tail.take k).length := by
    rw [skipped, hfirst, if_neg Bool.false_ne_true, hall]
  have hread : readChar b (tail.take k) = ([0xFFFD], (tail.take k).length) := by
    rw [readChar, herror, hskipped]
  rw [hutf8, List.take_succ_cons, newStringLen, run_cons, hread, List.drop_length, run_nil]
  rfl

end QuickJsKmp.EngineText
