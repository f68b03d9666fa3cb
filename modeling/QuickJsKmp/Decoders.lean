import QuickJsKmp.Wtf8
import QuickJsKmp.Lib.Utf8Replacing

/-!
# The two decoders

`Wtf8.decode` leaves bytes without `0xED` to Kotlin's decoder and reads all
others in a loop of its own. Both go piece by piece, and they read a piece alike
unless the loop takes bytes that are no sequence, or is left with the beginning
of one.
-/

namespace QuickJsKmp.Wtf8

open CodePoints Piecewise

/-- One round of the loop of `decode`: the branches of its `when` in their order. -/
def readLoop : Reader UInt8 UInt16 := fun b rest =>
  let b0 := b.toNat
  if b0 < 0x80 then ([toChar b0], 0)
  else
    match decide (b0 &&& 0xE0 = 0xC0), decide (b0 &&& 0xF0 = 0xE0), decide (b0 &&& 0xF8 = 0xF0),
      rest with
    | true, _, _, b1 :: _ => ([toChar (((b0 &&& 0x1F) <<< 6) ||| cont b1 : ℕ)], 1)
    | _, true, _, b1 :: b2 :: _ =>
      ([toChar (((b0 &&& 0x0F) <<< 12) ||| (cont b1 <<< 6) ||| cont b2 : ℕ)], 2)
    | _, _, true, b1 :: b2 :: b3 :: _ =>
      let cp : ℕ := ((b0 &&& 0x07) <<< 18) ||| (cont b1 <<< 12) ||| (cont b2 <<< 6) ||| cont b3
      let v : ℤ := cp - 0x10000
      ([toChar (0xD800 + v / 2 ^ 10), toChar (0xDC00 + v % 2 ^ 10)], 3)
    | _, _, _, _ => ([0xFFFD], 0)

/-- Kotlin's decoder, which replaces malformed bytes with U+FFFD. -/
def replacingCodec : Utf8Codec :=
  { jvmCodec with
    decodeToString := decodeUtf8
    decode_bytes := fun _ h => decodeUtf8_bytes h }

/-- How many bytes the loop asks for after this one. -/
def wants (b : ℕ) : ℕ :=
  if b < 0x80 then 0
  else if b &&& 0xE0 = 0xC0 then 1
  else if b &&& 0xF0 = 0xE0 then 2
  else if b &&& 0xF8 = 0xF0 then 3
  else 0

/-- Where the loop asks for more bytes and they are there, they are a sequence; where they are
not, the array does not end in the first bytes of one. -/
def Whole (b : UInt8) (rest : Bytes) : Prop :=
  0 < wants b.toNat →
    if wants b.toNat ≤ rest.length then
      ∃ cp : CodePoint, ¬ Surrogate cp.val ∧ utf8 cp = b :: rest.take (wants b.toNat)
    else
      ∀ (cp : CodePoint) b₁, ¬ Surrogate cp.val → rest.head? = some b₁ → ¬ [b, b₁] <+: utf8 cp

/-- Every multi-byte sequence that the loop meets is well formed, and none is cut off at the end
after more than its first byte. -/
def InStep (b : Bytes) : Prop := Along readLoop Whole b

-- ---------------------------------------------------------------------------
-- The loop, piece by piece
-- ---------------------------------------------------------------------------

theorem decodeLoop_cons (b : UInt8) (rest : Bytes) :
    decodeLoop (b :: rest) = (readLoop b rest).1 ++ decodeLoop (rest.drop (readLoop b rest).2) := by
  rw [decodeLoop.eq_def, readLoop.eq_def]
  simp only
  split
  · rfl
  · generalize decide (b.toNat &&& 0xE0 = 0xC0) = two, decide (b.toNat &&& 0xF0 = 0xE0) = three,
      decide (b.toNat &&& 0xF8 = 0xF0) = four
    cases two <;> cases three <;> cases four <;>
      rcases rest with _ | ⟨b1, _ | ⟨b2, _ | ⟨b3, rest⟩⟩⟩ <;> rfl

theorem decodeLoop_eq_run (b : Bytes) : decodeLoop b = run readLoop b := by
  induction b using pieces_induction readLoop with
  | nil => rfl
  | cons b rest ih => rw [decodeLoop_cons, run_cons, ih]

theorem masks (n : ℕ) : (n &&& 0xE0 = 0xC0 → n &&& 0xF0 ≠ 0xE0 ∧ n &&& 0xF8 ≠ 0xF0) ∧
    (n &&& 0xF0 = 0xE0 → n &&& 0xF8 ≠ 0xF0) := by
  have hbit (i : ℕ) (x y : ℕ) (h : n &&& x = y) (hx : x.testBit i) : n.testBit i = y.testBit i := by
    rw [← h, Nat.testBit_and, hx, Bool.and_true]
  refine ⟨fun h => ⟨fun h' => ?_, fun h' => ?_⟩, fun h h' => ?_⟩
  · exact absurd ((hbit 5 _ _ h (by decide)).symm.trans (hbit 5 _ _ h' (by decide))) (by decide)
  · exact absurd ((hbit 5 _ _ h (by decide)).symm.trans (hbit 5 _ _ h' (by decide))) (by decide)
  · exact absurd ((hbit 4 _ _ h (by decide)).symm.trans (hbit 4 _ _ h' (by decide))) (by decide)

/-- What the loop takes after the first byte. -/
theorem readLoop_taken (b : UInt8) (rest : Bytes) :
    (readLoop b rest).2 = if wants b.toNat ≤ rest.length then wants b.toNat else 0 := by
  rw [readLoop.eq_def, wants]
  simp only
  obtain ⟨htwo, hthree⟩ := masks b.toNat
  by_cases hlow : b.toNat < 0x80
  · simp [hlow]
  by_cases h2 : b.toNat &&& 0xE0 = 0xC0
  · rcases rest with _ | ⟨b1, rest⟩ <;> simp [hlow, h2, htwo h2]
  by_cases h3 : b.toNat &&& 0xF0 = 0xE0
  · rcases rest with _ | ⟨b1, _ | ⟨b2, rest⟩⟩ <;> simp [hlow, h2, h3, hthree h3]
  by_cases h4 : b.toNat &&& 0xF8 = 0xF0
  · rcases rest with _ | ⟨b1, _ | ⟨b2, _ | ⟨b3, rest⟩⟩⟩ <;> simp [hlow, h2, h3, h4]
  · simp [hlow, h2, h3, h4]

/-- Where it takes nothing after a byte beyond ASCII, it replaces that byte. -/
theorem readLoop_replaces (hb : ¬ b.toNat < 0x80) (h : (readLoop b rest).2 = 0) :
    readLoop b rest = ([0xFFFD], 0) := by
  rw [readLoop.eq_def] at h ⊢
  simp only [hb, if_false] at h ⊢
  generalize decide (b.toNat &&& 0xE0 = 0xC0) = two, decide (b.toNat &&& 0xF0 = 0xE0) = three,
    decide (b.toNat &&& 0xF8 = 0xF0) = four at h ⊢
  cases two <;> cases three <;> cases four <;>
    rcases rest with _ | ⟨b1, _ | ⟨b2, _ | ⟨b3, rest⟩⟩⟩ <;> first | rfl | cases h

theorem local_readLoop : Local readLoop where
  within := by
    intro b rest
    rw [readLoop_taken]
    split
    · assumption
    · exact Nat.zero_le _
  take := by
    intro b rest n hn
    rw [readLoop.eq_def] at hn ⊢
    rw [readLoop.eq_def]
    simp only at hn ⊢
    split
    · rfl
    · rw [if_neg ‹_›] at hn
      generalize decide (b.toNat &&& 0xE0 = 0xC0) = two, decide (b.toNat &&& 0xF0 = 0xE0) = three,
        decide (b.toNat &&& 0xF8 = 0xF0) = four at hn ⊢
      rcases n with _ | _ | _ | n <;> cases two <;> cases three <;> cases four <;>
        rcases rest with _ | ⟨b1, _ | ⟨b2, _ | ⟨b3, rest⟩⟩⟩ <;>
          first | rfl | simp at hn

-- ---------------------------------------------------------------------------
-- Where the pieces agree
-- ---------------------------------------------------------------------------

theorem wants_two (hge : 0xC0 ≤ n) (hlt : n < 0xE0) : wants n = 1 := by
  rw [wants, if_neg (by omega), if_pos (two_mask n (by omega) hge hlt)]

theorem wants_three (hge : 0xE0 ≤ n) (hlt : n < 0xF0) : wants n = 2 := by
  obtain ⟨htwo, hthree⟩ := three_mask n (by omega) hge hlt
  rw [wants, if_neg (by omega), if_neg htwo, if_pos hthree]

theorem wants_four (hge : 0xF0 ≤ n) (hlt : n < 0xF8) : wants n = 3 := by
  obtain ⟨htwo, hthree, hfour⟩ := four_mask n (by omega) hge hlt
  rw [wants, if_neg (by omega), if_neg htwo, if_neg hthree, if_pos hfour]

theorem wants_zero : ∀ n < 256, n < 0xC0 ∨ 0xF8 ≤ n → wants n = 0 := by decide +kernel

theorem wants_sequence (h : Sequence cp b tail) : wants b.toNat = tail.length := by
  cases h with
  | one hb => exact wants_zero _ b.toNat_lt (.inl (by omega))
  | two hge hlt => exact wants_two (by omega) hlt
  | three hge hlt => exact wants_three hge hlt
  | four hge hlt => exact wants_four hge (by omega)

/-- For a byte that leads a sequence, the loop asks for what the sequence needs. -/
theorem wants_eq_following (hge : 0xC0 ≤ n) (hlt : n < 0xF8) : wants n = following n := by
  unfold following
  split
  · exact wants_two hge ‹_›
  split
  · exact wants_three (by omega) ‹_›
  · exact wants_four (by omega) hlt

theorem readLoop_sequence (h : Sequence cp b tail) (rest : Bytes) :
    readLoop b (tail ++ rest) = (utf16 cp, tail.length) := by
  have htaken : (readLoop b tail).2 = tail.length := by
    rw [readLoop_taken, wants_sequence h, if_pos (le_refl _)]
  have hunits : (readLoop b tail).1 = utf16 cp := by
    have hread := decodeLoop_append cp []
    rwa [List.append_nil, h.utf8.1, decodeLoop_cons, htaken, List.drop_length, decodeLoop,
      List.append_nil, List.append_nil] at hread
  have htaken' : (readLoop b (tail ++ rest)).2 ≤ tail.length := by
    rw [readLoop_taken, wants_sequence h, if_pos (by simp)]
  rw [← local_readLoop.take b _ _ htaken', List.take_left' rfl]
  exact Prod.ext hunits htaken

theorem readLoop_ascii (hb : b.toNat < 0x80) (rest : Bytes) :
    readLoop b rest = readUtf8 b rest := by
  have hseq : Sequence ⟨b.toNat, by omega⟩ b [] := .one hb rfl
  exact (readLoop_sequence hseq rest).trans (readUtf8_sequence hseq rest).symm

theorem whole_iff (b : UInt8) (rest : Bytes) :
    Whole b rest ↔ readLoop b rest = readUtf8 b rest := by
  by_cases hb : b.toNat < 0x80
  · have hzero : wants b.toNat = 0 := if_pos hb
    exact ⟨fun _ => readLoop_ascii hb rest, fun _ hpos => absurd hpos (by omega)⟩
  have htaken := readLoop_taken b rest
  rcases readUtf8_cases hb rest with ⟨n, cp, hseq, hread, hle⟩ | ⟨hunits, hfew, hbegins⟩
  · have hwants := wants_sequence hseq
    rw [List.length_take_of_le hle] at hwants
    have hloop := readLoop_sequence hseq (rest.drop n)
    rw [List.take_append_drop, List.length_take_of_le hle] at hloop
    refine ⟨fun _ => hloop.trans hread.symm, fun _ _ => ?_⟩
    rw [if_pos (hwants ▸ hle)]
    exact ⟨cp, hseq.utf8.2, by rw [hwants]; exact hseq.utf8.1⟩
  by_cases hwants : wants b.toNat = 0
  · rw [hwants, if_pos (Nat.zero_le _)] at htaken
    have hnone : ¬ 0 < (readUtf8 b rest).2 := fun hpos => by
      obtain ⟨cp, b₁, tail, -, hseq⟩ := hbegins.mp hpos
      have hlength := wants_sequence hseq
      simp [hwants] at hlength
    refine ⟨fun _ => ?_, fun _ hpos => absurd hpos (by omega)⟩
    rw [readLoop_replaces hb htaken]
    exact Prod.ext hunits.symm (by omega)
  have hrange : 0xC0 ≤ b.toNat ∧ b.toNat < 0xF8 := by
    by_contra hout
    exact hwants (wants_zero _ b.toNat_lt (by omega))
  have hfollowing := wants_eq_following hrange.1 hrange.2
  by_cases hthere : wants b.toNat ≤ rest.length
  · rw [if_pos hthere] at htaken
    have hne : readLoop b rest ≠ readUtf8 b rest := fun h => by
      rw [h] at htaken
      omega
    refine ⟨fun h => ?_, fun h => absurd h hne⟩
    have hwhole := h (Nat.pos_of_ne_zero hwants)
    rw [if_pos hthere] at hwhole
    obtain ⟨cp, hs, hutf8⟩ := hwhole
    have hread := readUtf8_sequence (sequence_of_utf8 hutf8 hs) (rest.drop (wants b.toNat))
    rw [List.take_append_drop, List.length_take_of_le hthere] at hread
    rw [hread] at hfew
    omega
  · rw [if_neg hthere] at htaken
    have hwhole : Whole b rest ↔ ¬ 0 < (readUtf8 b rest).2 := by
      rw [hbegins]
      constructor
      · rintro h ⟨cp, b₁, tail, hhead, hseq⟩
        have hcut := h (Nat.pos_of_ne_zero hwants)
        rw [if_neg hthere] at hcut
        exact hcut cp b₁ hseq.utf8.2 hhead ⟨tail, hseq.utf8.1.symm⟩
      · intro hnone _
        rw [if_neg hthere]
        rintro cp b₁ hs hhead ⟨tail, hutf8⟩
        exact hnone ⟨cp, b₁, tail, hhead, sequence_of_utf8 hutf8.symm hs⟩
    rw [hwhole, readLoop_replaces hb htaken]
    constructor
    · exact fun h => Prod.ext hunits.symm (by omega)
    · exact fun h => by rw [← h]; exact Nat.lt_irrefl 0

-- ---------------------------------------------------------------------------
-- Where they do not
-- ---------------------------------------------------------------------------

theorem cont_le (b : UInt8) : cont b ≤ 0x3F := Nat.and_le_right

/-- Four bytes that the loop takes are not read as a replacement. -/
theorem readLoop_three_ne (hrange : 0xF0 ≤ b.toNat ∧ b.toNat < 0xF8) (b₁ b₂ b₃ : UInt8)
    (rest : Bytes) : (readLoop b (b₁ :: b₂ :: b₃ :: rest)).1.head? ≠ some 0xFFFD := by
  obtain ⟨htwo, hthree, hfour⟩ := four_mask _ b.toNat_lt hrange.1 hrange.2
  rw [readLoop.eq_def]
  simp only [show ¬ b.toNat < 0x80 by omega, if_false, htwo, hthree, hfour, decide_true,
    decide_false, List.head?_cons]
  have hcp : ((b.toNat &&& 0x07) <<< 18) ||| (cont b₁ <<< 12) ||| (cont b₂ <<< 6) ||| cont b₃
      < 2 ^ 21 := by
    have hlead : b.toNat &&& 0x07 ≤ 7 := Nat.and_le_right
    have h₁ := cont_le b₁
    have h₂ := cont_le b₂
    have h₃ := cont_le b₃
    simp only [Nat.shiftLeft_eq]
    refine Nat.or_lt_two_pow (Nat.or_lt_two_pow (Nat.or_lt_two_pow ?_ ?_) ?_) ?_ <;> omega
  generalize ((b.toNat &&& 0x07) <<< 18) ||| (cont b₁ <<< 12) ||| (cont b₂ <<< 6) ||| cont b₃ = cp
    at hcp
  intro h
  have hnat := congrArg UInt16.toNat (Option.some.inj h)
  have hvalue : (0xD800 + ((cp : ℤ) - 0x10000) / 2 ^ 10).toNat < 0x10000 ∧
      (0xD800 + ((cp : ℤ) - 0x10000) / 2 ^ 10).toNat ≠ 0xFFFD ∧
      0 ≤ 0xD800 + ((cp : ℤ) - 0x10000) / 2 ^ 10 := by omega
  rw [← Int.toNat_of_nonneg hvalue.2.2, toChar_unit hvalue.1, CodePoints.toNat_toUInt16 hvalue.1] at hnat
  exact hvalue.2.1 hnat

theorem readLoop_length (b : UInt8) (h : rest.length ≤ 2) : (readLoop b rest).1.length = 1 := by
  rw [readLoop.eq_def]
  simp only
  split
  · rfl
  · generalize decide (b.toNat &&& 0xE0 = 0xC0) = two, decide (b.toNat &&& 0xF0 = 0xE0) = three,
      decide (b.toNat &&& 0xF8 = 0xF0) = four
    rcases rest with _ | ⟨b1, _ | ⟨b2, _ | ⟨b3, rest⟩⟩⟩
    · cases two <;> cases three <;> cases four <;> rfl
    · cases two <;> cases three <;> cases four <;> rfl
    · cases two <;> cases three <;> cases four <;> rfl
    · simp at h

theorem run_ne_nil {read : Reader UInt8 UInt16} (hread : ∀ b rest, (read b rest).1 ≠ [])
    (h : l ≠ []) : run read l ≠ [] := by
  cases l with
  | nil => exact absurd rfl h
  | cons b rest =>
    rw [run_cons]
    exact fun hnil => hread b rest (List.append_eq_nil_iff.mp hnil).1

theorem readUtf8_ne_nil (b : UInt8) (rest : Bytes) : (readUtf8 b rest).1 ≠ [] := by
  by_cases hb : b.toNat < 0x80
  · rw [readUtf8, if_pos hb]
    simp
  · rcases readUtf8_cases hb rest with ⟨n, cp, -, hread, -⟩ | ⟨hunits, -⟩
    · rw [hread]
      exact utf16_ne_nil cp
    · rw [hunits]
      simp

/-- Bytes that the loop takes for a sequence and that are none: Kotlin's decoder reads
them as something else. -/
theorem decoders_differ_whole (hwants : 0 < wants b.toNat) (hthere : wants b.toNat = tail.length)
    (hno : ∀ cp, ¬ Sequence cp b tail) : run readLoop (b :: tail) ≠ run readUtf8 (b :: tail) := by
  have hrange : 0xC0 ≤ b.toNat ∧ b.toNat < 0xF8 := by
    by_contra hout
    exact absurd (wants_zero _ b.toNat_lt (by omega)) (by omega)
  have hfollowing := wants_eq_following hrange.1 hrange.2
  have htaken := readLoop_taken b tail
  rw [if_pos hthere.le, hthere] at htaken
  rw [run_cons, run_cons, htaken, List.drop_length, run_nil, List.append_nil]
  rcases readUtf8_cases (b := b) (by omega) tail with ⟨n, cp, hseq, -, hle⟩ | ⟨hunits, hfew, -⟩
  · have hlength := wants_sequence hseq
    rw [List.length_take_of_le hle, hthere] at hlength
    rw [← hlength, List.take_length] at hseq
    exact absurd hseq (hno cp)
  · have hrest : tail.drop (readUtf8 b tail).2 ≠ [] := by
      rw [ne_eq, List.drop_eq_nil_iff]
      omega
    have hmore := List.length_pos_iff.mpr (run_ne_nil readUtf8_ne_nil hrest)
    intro heq
    by_cases hthree : tail.length ≤ 2
    · have hlength := congrArg List.length heq
      rw [readLoop_length b hthree, hunits, List.length_append, List.length_singleton] at hlength
      omega
    · have hthree' : tail.length = 3 := by
        have : wants b.toNat ≤ 3 := by
          unfold wants
          repeat' split
          all_goals decide
        omega
      have hfour : 0xF0 ≤ b.toNat ∧ b.toNat < 0xF8 := by
        by_contra hout
        have hle : wants b.toNat ≤ 2 := by
          rw [hfollowing, following]
          repeat' split
          all_goals omega
        omega
      obtain ⟨b₁, b₂, b₃, rfl⟩ := List.length_eq_three.mp hthree'
      refine readLoop_three_ne hfour b₁ b₂ b₃ [] ?_
      rw [heq, hunits]
      rfl

theorem run_single (read : Reader UInt8 UInt16) (hread : ∀ b, (read b []).1.length = 1) (b : UInt8) :
    (run read [b]).length = 1 := by
  rw [run_cons, List.drop_nil, run_nil, List.append_nil, hread]

theorem readUtf8_single (b : UInt8) : (readUtf8 b []).1.length = 1 := by
  by_cases hb : b.toNat < 0x80
  · rw [readUtf8, if_pos hb]
    rfl
  · rcases readUtf8_cases hb [] with ⟨n, cp, hseq, hread, -⟩ | ⟨hunits, -⟩
    · rw [List.take_nil] at hseq
      cases hseq with
      | one hb' => exact absurd hb' hb
    · rw [hunits]
      rfl

/-- A sequence that the array cuts off is one replacement for Kotlin's decoder and several for
the loop. -/
theorem decoders_differ_cut (hcut : ¬ wants b.toNat ≤ (b₁ :: rest).length)
    (hseq : Sequence cp b (b₁ :: tail)) :
    run readLoop (b :: b₁ :: rest) ≠ run readUtf8 (b :: b₁ :: rest) := by
  obtain ⟨hge, hlt, hsecond⟩ := hseq.second
  obtain ⟨hlow, hhigh, -⟩ := hsecond
  have hshort : rest.length ≤ 1 := by
    have : wants b.toNat ≤ 3 := by
      unfold wants
      repeat' split
      all_goals decide
    rw [List.length_cons] at hcut
    omega
  have hfirst : readLoop b (b₁ :: rest) = ([0xFFFD], 0) :=
    readLoop_replaces (by omega) (by rw [readLoop_taken, if_neg hcut])
  have hnext : readLoop b₁ rest = ([0xFFFD], 0) := by
    refine readLoop_replaces (by omega) ?_
    rw [readLoop_taken, wants_zero _ b₁.toNat_lt (.inl (by omega)), if_pos (Nat.zero_le _)]
  have hsingle (x : UInt8) : (readLoop x []).1.length = 1 := readLoop_length x (Nat.zero_le _)
  intro heq
  have hlength := congrArg List.length heq
  rcases readUtf8_cases (b := b) (by omega) (b₁ :: rest) with
    ⟨n, cp', hseq', -, hle⟩ | ⟨hunits, -, hbegins⟩
  · have hwants := wants_sequence hseq'
    rw [List.length_take_of_le hle] at hwants
    exact hcut (hwants ▸ hle)
  · have hpos := hbegins.mpr ⟨cp, b₁, tail, rfl, hseq⟩
    rw [run_cons, run_cons, hfirst, List.drop_zero, run_cons, hnext, List.drop_zero, hunits] at hlength
    simp only [List.length_append, List.length_singleton] at hlength
    obtain ⟨k, hk⟩ := Nat.exists_eq_succ_of_ne_zero hpos.ne'
    rw [hk, List.drop_succ_cons] at hlength
    match rest, hshort with
    | [], _ =>
      rw [List.drop_nil, run_nil, run_nil, List.length_nil] at hlength
      omega
    | [x], _ =>
      rw [run_single readLoop hsingle] at hlength
      cases k with
      | zero =>
        rw [List.drop_zero, run_single readUtf8 readUtf8_single] at hlength
        omega
      | succ k =>
        rw [List.drop_succ_cons, List.drop_nil, run_nil, List.length_nil] at hlength
        omega

-- ---------------------------------------------------------------------------
-- Whole arrays
-- ---------------------------------------------------------------------------

theorem agree_of_inStep (h : InStep b) (hfront : Front readLoop front b) :
    decodeLoop front = decodeUtf8 front := by
  have hpieces : Along readLoop (fun b rest => readLoop b rest = readUtf8 b rest) b :=
    h.imp (whole_iff _ _).mp
  rw [decodeLoop_eq_run]
  exact hpieces.run_front local_readLoop local_readUtf8 hfront

/-- Where the two read a first piece alike, the rest of what is read alike is so too. -/
theorem agree_rest (hsame : readLoop b rest = readUtf8 b rest)
    (hall : ∀ front, Front readLoop front (b :: rest) → run readLoop front = run readUtf8 front)
    (hfront : Front readLoop front (rest.drop (readLoop b rest).2)) :
    run readLoop front = run readUtf8 front := by
  have hlonger := hall _ (.cons hfront)
  obtain ⟨n, rfl⟩ := hfront.take
  rw [local_readLoop.run_front, hsame, local_readUtf8.run_front] at hlonger
  rw [hsame]
  exact List.append_cancel_left hlonger

/-- Where the first piece is not read alike, some front part is not. -/
theorem whole_of_agree
    (hall : ∀ front, Front readLoop front (b :: rest) → run readLoop front = run readUtf8 front) :
    Whole b rest := by
  intro hwants
  have htaken := readLoop_taken b rest
  split
  · rename_i hthere
    rw [if_pos hthere] at htaken
    have hpiece := hall _ (.cons (.nil _))
    rw [List.append_nil, htaken] at hpiece
    by_contra hno
    refine decoders_differ_whole hwants (List.length_take_of_le hthere).symm (fun cp hseq => ?_)
      hpiece
    exact hno ⟨cp, hseq.utf8.2, hseq.utf8.1⟩
  · rename_i hcut
    rintro cp b₁ hs hhead ⟨tail, hutf8⟩
    cases rest with
    | nil => cases hhead
    | cons b₁' rest =>
      obtain rfl := Option.some.inj hhead
      exact decoders_differ_cut hcut (sequence_of_utf8 hutf8.symm hs) (hall _ (.whole ..))

theorem inStep_of_agree
    (hall : ∀ front, Front readLoop front b → run readLoop front = run readUtf8 front) :
    InStep b := by
  induction b using pieces_induction readLoop with
  | nil => trivial
  | cons b rest ih =>
    have hwhole := whole_of_agree hall
    exact along_cons.mpr ⟨hwhole, ih fun front hfront =>
      agree_rest ((whole_iff b rest).mp hwhole) hall hfront⟩

/-- The loop decodes an array and all of its front parts that are whole pieces like Kotlin's
decoder if and only if each multi-byte sequence that it meets is well formed and none is cut off
by the end. In particular it decodes the array itself alike then. -/
theorem decoders_agree_iff (b : Bytes) :
    ((∀ front, Front readLoop front b → decodeLoop front = replacingCodec.decodeToString front) ↔
      InStep b) ∧
      (InStep b → decodeLoop b = replacingCodec.decodeToString b) := by
  refine ⟨⟨fun hall => inStep_of_agree fun front hfront => ?_, fun h front hfront => ?_⟩,
    fun h => agree_of_inStep h (.whole ..)⟩
  · rw [← decodeLoop_eq_run]
    exact hall front hfront
  · exact agree_of_inStep h hfront

/-- A leading byte, and an apostrophe where it continues. -/
theorem decoders_disagree :
    ¬ ∀ b : Bytes, 0xED ∉ b → decodeLoop b = replacingCodec.decodeToString b := by
  intro h
  have hsame := h [0xC3, 0x27] (by decide)
  rw [decodeLoop_eq_run] at hsame
  exact absurd hsame (by decide)

end QuickJsKmp.Wtf8
