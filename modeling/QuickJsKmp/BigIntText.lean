import QuickJsKmp.Echo

/-!
# The text of a `BigInt`

`JsValue.BigInt` takes digits in the sense of `Char.isDigit`, which are those of
every script, and the engine's constructor takes those of ASCII. The two grammars
differ in nothing else.
-/

namespace QuickJsKmp.BigIntText

open CodePoints

/-- An optional minus and at least one digit. -/
def Signed (digit : UInt16 → Prop) (text : Text) : Prop :=
  ∃ digits, (text = digits ∨ text = minus :: digits) ∧ digits ≠ [] ∧ ∀ u ∈ digits, digit u

/-- `-?[0-9]+`. -/
def Matches (text : Text) : Prop := Signed IsDigit text

/-- A signed number that is not written in ASCII digits alone. -/
def OtherDigits (kotlin : Kotlin) (text : Text) : Prop :=
  Signed (fun u => kotlin.isDigit u) text ∧ ¬ Matches text

def Constructed (kotlin : Kotlin) (text : Text) : Prop := kotlin.bigInt text = .ok (.bigInt text)

/-- It enters the engine, as the integer that its text denotes. -/
def Enters (kotlin : Kotlin) (engine : Engine) (platform : Platform) (text : Text) : Prop :=
  ∃ n, decimal text = some n ∧ send kotlin engine platform (.bigInt text) = some (.bigInt n)

/-- The constructor of the engine reads decimal texts and knows no other digits, and a minus
is none to Kotlin. -/
structure OnlyAscii (kotlin : Kotlin) (engine : Engine) : Prop where
  minus : kotlin.isDigit minus = false
  accepts : ∀ text n s, decimal text = some n →
    engine.newStringLen (bytes (codePoints text)) = some s → engine.callBigInt s = some n
  rejects : ∀ text s, OtherDigits kotlin text →
    engine.newStringLen (bytes (codePoints text)) = some s → engine.callBigInt s = none

variable {kotlin : Kotlin} {engine : Engine} {text : Text} {n : ℤ}

-- ---------------------------------------------------------------------------
-- The grammars
-- ---------------------------------------------------------------------------

theorem natural_isSome : (natural text).isSome ↔ text ≠ [] ∧ ∀ u ∈ text, IsDigit u := by
  unfold natural
  split <;> simp_all

theorem matches_iff : Matches text ↔ (decimal text).isSome := by
  constructor
  · rintro ⟨digits, htext, hne, hdigits⟩
    have hnat : (natural digits).isSome := natural_isSome.mpr ⟨hne, hdigits⟩
    rcases htext with rfl | rfl
    · cases text with
      | nil => exact absurd rfl hne
      | cons u rest =>
        have hu : u ≠ minus := fun h => minus_notMem hdigits (h ▸ List.mem_cons_self)
        rw [decimal, if_neg hu, Option.isSome_map]
        exact hnat
    · rw [decimal, if_pos rfl, Option.isSome_map]
      exact hnat
  · intro h
    cases text with
    | nil => cases h
    | cons u rest =>
      rw [decimal] at h
      split at h
      next hminus =>
        rw [Option.isSome_map] at h
        obtain ⟨hne, hdigits⟩ := natural_isSome.mp h
        exact ⟨rest, .inr (hminus ▸ rfl), hne, hdigits⟩
      next =>
        rw [Option.isSome_map] at h
        obtain ⟨hne, hdigits⟩ := natural_isSome.mp h
        exact ⟨u :: rest, .inl rfl, hne, hdigits⟩

theorem signed_of_isInteger (h : kotlin.isInteger text) :
    Signed (fun u => kotlin.isDigit u) text := by
  obtain ⟨hne, hall, htail, hminus⟩ : text ≠ [] ∧ (∀ c ∈ text, kotlin.isDigit c ∨ c = minus) ∧
      minus ∉ text.tail ∧ text ≠ [minus] := by
    simpa [Kotlin.isInteger] using h
  cases text with
  | nil => exact absurd rfl hne
  | cons u rest =>
    have hrest : ∀ c ∈ rest, kotlin.isDigit c := by
      intro c hc
      refine (hall c (List.mem_cons_of_mem _ hc)).resolve_right ?_
      rintro rfl
      exact htail hc
    rcases hall u List.mem_cons_self with hu | rfl
    · refine ⟨u :: rest, .inl rfl, by simp, fun c hc => ?_⟩
      rcases List.mem_cons.mp hc with rfl | hc
      · exact hu
      · exact hrest c hc
    · exact ⟨rest, .inr rfl, fun hnil => hminus (by rw [hnil]), hrest⟩

theorem isInteger_of_signed (hminus : kotlin.isDigit minus = false)
    (h : Signed (fun u => kotlin.isDigit u) text) : kotlin.isInteger text := by
  obtain ⟨digits, htext, hne, hdigits⟩ := h
  have hnot : minus ∉ digits := fun hmem => absurd (hdigits minus hmem) (by simp [hminus])
  have hall : ∀ c ∈ digits, kotlin.isDigit c = true ∨ c = minus := fun c hc => .inl (hdigits c hc)
  rcases htext with rfl | rfl
  · have htail : minus ∉ text.tail := fun hmem => hnot (List.mem_of_mem_tail hmem)
    have hone : text ≠ [minus] := fun h => hnot (h ▸ List.mem_singleton_self _)
    simpa [Kotlin.isInteger, hne, htail, hone] using hall
  · simpa [Kotlin.isInteger, hne, hnot] using hall

theorem constructed_iff (hminus : kotlin.isDigit minus = false) :
    Constructed kotlin text ↔ Signed (fun u => kotlin.isDigit u) text := by
  have hinteger : Constructed kotlin text ↔ kotlin.isInteger text := by
    unfold Constructed Kotlin.bigInt
    split <;> simp_all
  exact hinteger.trans ⟨signed_of_isInteger, isInteger_of_signed hminus⟩

theorem signed_of_matches (h : Matches text) : Signed (fun u => kotlin.isDigit u) text := by
  obtain ⟨digits, htext, hne, hdigits⟩ := h
  exact ⟨digits, htext, hne, fun u hu =>
    kotlin.isDigit_ascii u (hdigits u hu).1 (hdigits u hu).2⟩

-- ---------------------------------------------------------------------------
-- Into the engine
-- ---------------------------------------------------------------------------

theorem send_bigInt (kotlin : Kotlin) (law : engine.Lawful) (platform : Platform) (text : Text) :
    ∃ s, engine.newStringLen (bytes (codePoints text)) = some s ∧
      send kotlin engine platform (.bigInt text) = (engine.callBigInt s).map .bigInt := by
  obtain ⟨s, hnew, -⟩ := law.string_back _ (wellFormed_text text)
  refine ⟨s, hnew, ?_⟩
  rw [send_eq engine platform rfl rfl (writeTo_text ..)]
  simp only [Engine.valueFromHost, published, KmpjsValue.text, readBytes, Option.map_some,
    List.take_length, Option.getD_some, hnew, Option.bind_eq_bind, Option.bind_some]
  cases engine.callBigInt s <;> rfl

theorem enters_iff (law : engine.Lawful) (only : OnlyAscii kotlin engine) (platform : Platform) :
    Enters kotlin engine platform text ↔ Matches text := by
  obtain ⟨s, hnew, hsend⟩ := send_bigInt kotlin law platform text
  constructor
  · rintro ⟨n, hdecimal, -⟩
    exact matches_iff.mpr (by simp [hdecimal])
  · intro hmatches
    obtain ⟨n, hdecimal⟩ := Option.isSome_iff_exists.mp (matches_iff.mp hmatches)
    refine ⟨n, hdecimal, ?_⟩
    rw [hsend, only.accepts text n s hdecimal hnew, Option.map_some]

theorem other_digits_raise (law : engine.Lawful) (only : OnlyAscii kotlin engine)
    (platform : Platform) (h : OtherDigits kotlin text) :
    send kotlin engine platform (.bigInt text) = none := by
  obtain ⟨s, hnew, hsend⟩ := send_bigInt kotlin law platform text
  rw [hsend, only.rejects text s h hnew, Option.map_none]

/-- The text of a `BigInt` that leaves the engine is one that can be constructed. -/
def Leaves (kotlin : Kotlin) (engine : Engine) (platform : Platform) (n : ℤ) : Prop :=
  ∀ refs out, engine.valueToOut refs (.bigInt n) = some out →
    ∃ back, Constructed kotlin back ∧ decimal back = some n ∧
      decodeValue kotlin (platform.toRaw kotlin.toUtf8Codec out) = .ok (.bigInt back)

theorem leaves (law : engine.Lawful) (platform : Platform) (n : ℤ) :
    Leaves kotlin engine platform n := by
  intro refs out hout
  obtain ⟨back, hdecimal, hback⟩ := law.bigInt_text n
  obtain ⟨out', hout', hraw⟩ := textToOut_of KmpjsTag.bigInt hback kotlin.toUtf8Codec (by decide)
  obtain rfl : out' = out := Option.some.inj (hout'.symm.trans hout)
  have hinteger := isInteger_of_decimal kotlin hdecimal
  refine ⟨back, by simp [Constructed, Kotlin.bigInt, hinteger], hdecimal, ?_⟩
  rw [toRaw_eq, hraw]
  simp [decodeValue, Kotlin.bigInt, hinteger]

/-- The constructor's grammar is `-?[0-9]+`, and what it accepts enters the engine. -/
structure Agrees (kotlin : Kotlin) (engine : Engine) (platform : Platform) (text : Text) : Prop where
  grammar : Constructed kotlin text ↔ Matches text
  enters : Constructed kotlin text → Enters kotlin engine platform text
  leaves : ∀ n, Leaves kotlin engine platform n

/-- The grammars agree on every text but a number in other digits, which is constructed and
raises an exception in the engine. -/
theorem bigInt_grammar_iff (law : engine.Lawful) (only : OnlyAscii kotlin engine)
    (platform : Platform) (text : Text) :
    (Agrees kotlin engine platform text ↔ ¬ OtherDigits kotlin text) ∧
      (OtherDigits kotlin text →
        Constructed kotlin text ∧ send kotlin engine platform (.bigInt text) = none) := by
  have hsigned : Constructed kotlin text ↔ Signed (fun u => kotlin.isDigit u) text :=
    constructed_iff only.minus
  refine ⟨⟨fun h => ?_, fun h => ?_⟩, fun h => ?_⟩
  · rintro ⟨hother, hnot⟩
    exact hnot (h.grammar.mp (hsigned.mpr hother))
  · have hmatches (hcons : Constructed kotlin text) : Matches text := by
      by_contra hnot
      exact h ⟨hsigned.mp hcons, hnot⟩
    refine ⟨⟨hmatches, fun hm => hsigned.mpr (signed_of_matches hm)⟩, fun hcons => ?_,
      leaves law platform⟩
    exact (enters_iff law only platform).mpr (hmatches hcons)
  · exact ⟨hsigned.mpr h.1, other_digits_raise law only platform h⟩

/-- A Kotlin that knows the Arabic-Indic digits besides. -/
def arabic : Kotlin where
  toUtf8Codec := Wtf8.jvmCodec
  isDigit := fun u => IsDigit u ∨ 0x660 ≤ u.toNat ∧ u.toNat ≤ 0x669
  isDigit_ascii := fun _ hge hle => decide_eq_true (.inl ⟨hge, hle⟩)

theorem arabic_onlyAscii : OnlyAscii arabic (unitEngine decimal) where
  minus := by decide
  accepts := by
    intro text n s hdecimal hnew
    rw [unitEngine_newStringLen hnew]
    exact hdecimal
  rejects := by
    intro text s hother hnew
    rw [unitEngine_newStringLen hnew]
    have hnone : ¬ (decimal text).isSome := fun h => hother.2 (matches_iff.mpr h)
    exact Option.not_isSome_iff_eq_none.mp hnone

theorem bigInt_grammar_iff_minus :
    (Agrees arabic (unitEngine decimal) .android [0x2D, 0x37] ↔ ¬ OtherDigits arabic [0x2D, 0x37]) ∧
      (OtherDigits arabic [0x2D, 0x37] → Constructed arabic [0x2D, 0x37] ∧
        send arabic (unitEngine decimal) .android (.bigInt [0x2D, 0x37]) = none) :=
  bigInt_grammar_iff (unitEngine_lawful _) arabic_onlyAscii .android [0x2D, 0x37]

/-- The digits one and two in Arabic-Indic. -/
theorem other_digits_constructed :
    ¬ ∀ (kotlin : Kotlin) (engine : Engine) platform text, engine.Lawful →
      OnlyAscii kotlin engine → Agrees kotlin engine platform text := by
  intro h
  have hagrees := h arabic (unitEngine decimal) .android [0x661, 0x662] (unitEngine_lawful _) arabic_onlyAscii
  have hcons : Constructed arabic [0x661, 0x662] := rfl
  have hmatches := matches_iff.mp (hagrees.grammar.mp hcons)
  exact absurd hmatches (by decide)

end QuickJsKmp.BigIntText
