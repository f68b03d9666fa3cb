import QuickJsKmp.Wtf8
import Mathlib.Data.List.TakeWhile

/-!
# Names as C strings

Every name a Kotlin caller gives reaches the shim as bytes with a NUL behind
them, and the shim and the engine read it up to the first NUL. The bindings do
not encode all parameters alike.
-/

namespace QuickJsKmp

open CodePoints

inductive Platform
  | apple
  | android
  deriving DecidableEq, Repr

/-- The parameters that carry a name: the file name of `evaluate` and of
`compile`, the key of `JsRef.get` and `JsRef.set`, the names of `registerModule`
and `evaluateModule`, and `moduleScheme` of the configuration. -/
inductive NameUse
  | fileName
  | propertyKey
  | registeredModule
  | evaluatedModule
  | moduleScheme
  deriving DecidableEq, Repr

/-- The check `JsEngineConfig` makes; no other name is checked. -/
def NameUse.Accepts (use : NameUse) (text : Text) : Prop :=
  use = .moduleScheme → text ≠ [] ∧ 0x3A ∉ text

/-- `MemScope.cString` of the Apple binding. -/
def cString (codec : Utf8Codec) (text : Text) : Option Bytes := do
  let bytes ← Wtf8.encode codec text
  return bytes ++ [0]

/-- The array each member of the Android `NativeEngine` passes down. -/
def nativeName (codec : Utf8Codec) : NameUse → Text → Option Bytes
  | .moduleScheme, text => some (codec.encodeToByteArray text)
  | _, text => Wtf8.encode codec text

def dupCstring (arr : Bytes) : Bytes := arr ++ [0]

/-- What the shim is given for a name. -/
def givenName (codec : Utf8Codec) : Platform → NameUse → Text → Option Bytes
  | .apple, _, text => cString codec text
  | .android, use, text => (nativeName codec use text).map dupCstring

/-- The bytes that `strlen`, `strcmp`, `strdup` and `JS_NewAtom` take. -/
def readCString (p : Bytes) : Bytes := p.takeWhile (· ≠ 0)

/-- The bytes the shim keeps or compares; `kmpjs_create` takes an empty scheme
for none at all. -/
def NameUse.read : NameUse → Bytes → Bytes
  | .moduleScheme, p => if readCString p = [] then ascii "kmp" else readCString p
  | _, p => readCString p

def shimName (codec : Utf8Codec) (platform : Platform) (use : NameUse) (text : Text) :
    Option Bytes :=
  (givenName codec platform use text).map use.read

/-- `JS_NewStringLen`, which takes generalized UTF-8 to its units. What it makes
of malformed bytes is left open. -/
structure EngineStrings where
  newStringLen : Bytes → Text
  newStringLen_bytes : ∀ cps, Unpaired cps → newStringLen (bytes cps) = units cps

def engineName (engine : EngineStrings) (codec : Utf8Codec) (platform : Platform) (use : NameUse)
    (text : Text) : Option Text :=
  (shimName codec platform use text).map engine.newStringLen

/-- The names that pass unharmed: without U+0000, and for the scheme on Android
without a lone surrogate, which `encodeToByteArray` replaces. -/
def Passes (platform : Platform) (use : NameUse) (text : Text) : Prop :=
  0 ∉ text ∧ (platform = .android → use = .moduleScheme → Scalar (codePoints text))

-- ---------------------------------------------------------------------------
-- Reading up to the first NUL
-- ---------------------------------------------------------------------------

def NonZero (cp : CodePoint) : Bool := cp.val ≠ 0

theorem utf8_zero (h : ¬ NonZero cp) : utf8 cp = [0] := by
  have hval : cp.val = 0 := by simpa [NonZero] using h
  simp [utf8, hval]

theorem toUInt8_ne_zero (hpos : 0 < n) (hlt : n < 0x100) : n.toUInt8 ≠ 0 := by
  intro h
  have hnat : n = 0 := by
    rw [← toNat_toUInt8 hlt, h]
    rfl
  omega

theorem utf8_nonzero (h : NonZero cp) : ∀ b ∈ utf8 cp, b ≠ 0 := by
  have hcp := cp.isLt
  have hval : cp.val ≠ 0 := by simpa [NonZero] using h
  unfold utf8
  repeat' split
  all_goals
    simp only [List.forall_mem_cons, List.not_mem_nil, false_implies, implies_true, and_true]
    repeat' constructor
    all_goals exact toUInt8_ne_zero (by omega) (by omega)

theorem readCString_bytes (cps : List CodePoint) :
    readCString (bytes cps ++ [0]) = bytes (cps.takeWhile NonZero) := by
  induction cps with
  | nil => rfl
  | cons cp rest ih =>
    by_cases h : NonZero cp
    · have htake : ∀ b ∈ utf8 cp, decide (b ≠ 0) = true := by
        intro b hb
        simpa using utf8_nonzero h b hb
      rw [readCString, bytes_cons, List.append_assoc, List.takeWhile_append_of_pos htake,
        List.takeWhile_cons_of_pos h, bytes_cons]
      exact congrArg (utf8 cp ++ ·) ih
    · rw [readCString, bytes_cons, utf8_zero h, List.takeWhile_cons_of_neg h]
      rfl

theorem toUInt16_ne_zero (hpos : 0 < n) (hlt : n < 0x10000) : n.toUInt16 ≠ 0 := by
  intro h
  have hnat : n = 0 := by
    rw [← toNat_toUInt16 hlt, h]
    rfl
  omega

theorem utf16_nonzero (h : NonZero cp) : 0 ∉ utf16 cp := by
  have hcp := cp.isLt
  have hval : cp.val ≠ 0 := by simpa [NonZero] using h
  unfold utf16
  split
  · rw [List.mem_singleton]
    exact (toUInt16_ne_zero (by omega) (by omega)).symm
  · rw [List.mem_pair, not_or]
    exact ⟨(toUInt16_ne_zero (by omega) (by omega)).symm,
      (toUInt16_ne_zero (by omega) (by omega)).symm⟩

theorem utf16_zero (h : ¬ NonZero cp) : 0 ∈ utf16 cp := by
  have hval : cp.val = 0 := by simpa [NonZero] using h
  simp [utf16, hval]

theorem zero_notMem_units : 0 ∉ units cps ↔ ∀ cp ∈ cps, NonZero cp := by
  constructor
  · intro h cp hcp
    by_contra hz
    exact h (List.mem_flatMap.mpr ⟨cp, hcp, utf16_zero hz⟩)
  · intro h hmem
    obtain ⟨cp, hcp, hz⟩ := List.mem_flatMap.mp hmem
    exact utf16_nonzero (h cp hcp) hz

theorem takeWhile_nonzero (h : 0 ∉ text) :
    (codePoints text).takeWhile NonZero = codePoints text := by
  refine List.takeWhile_eq_self_iff.mpr (zero_notMem_units.mp ?_)
  rwa [units_codePoints]

-- ---------------------------------------------------------------------------
-- What each binding sends
-- ---------------------------------------------------------------------------

/-- The code points whose bytes a binding passes for a name. -/
def sent (codec : Utf8Codec) (platform : Platform) (use : NameUse) (text : Text) :
    List CodePoint :=
  if platform = .android ∧ use = .moduleScheme then (codePoints text).map codec.replace
  else codePoints text

theorem givenName_eq (codec : Utf8Codec) (platform : Platform) (use : NameUse) (text : Text) :
    givenName codec platform use text = some (bytes (sent codec platform use text) ++ [0]) := by
  cases platform with
  | apple => simp [givenName, cString, Wtf8.encode_eq, sent]
  | android =>
    cases use
    all_goals simp [givenName, nativeName, dupCstring, Wtf8.encode_eq, sent,
      Utf8Codec.encodeToByteArray]

theorem Utf8Codec.replaced_scalar (codec : Utf8Codec) (cps : List CodePoint) :
    Scalar (cps.map codec.replace) := by
  intro cp hcp
  obtain ⟨orig, -, rfl⟩ := List.mem_map.mp hcp
  unfold Utf8Codec.replace
  split
  · exact codec.scalar
  · assumption

theorem sent_unpaired (codec : Utf8Codec) (platform : Platform) (use : NameUse) (text : Text) :
    Unpaired (sent codec platform use text) := by
  unfold sent
  split
  · exact (codec.replaced_scalar _).unpaired
  · exact codePoints_unpaired text

theorem sent_of_passes (codec : Utf8Codec) (h : Passes platform use text) :
    sent codec platform use text = codePoints text := by
  unfold sent
  split
  next hp => exact Wtf8.replace_scalar codec (h.2 hp.1 hp.2)
  next => rfl

theorem utf8_ne_nil (cp : CodePoint) : utf8 cp ≠ [] := by
  unfold utf8
  repeat' split
  all_goals simp

theorem bytes_eq_nil : bytes cps = [] ↔ cps = [] := by
  cases cps with
  | nil => simp
  | cons cp rest => simp [utf8_ne_nil]

/-- The scheme that stands for an empty one. -/
def defaultScheme : List CodePoint := [⟨0x6B, by decide⟩, ⟨0x6D, by decide⟩, ⟨0x70, by decide⟩]

theorem defaultScheme_scalar : Scalar defaultScheme := by decide

theorem bytes_defaultScheme : bytes defaultScheme = ascii "kmp" := by decide

/-- The code points that are left of a name after reading it. -/
def kept (use : NameUse) (cps : List CodePoint) : List CodePoint :=
  if use = .moduleScheme ∧ cps.takeWhile NonZero = [] then defaultScheme
  else cps.takeWhile NonZero

theorem read_bytes (use : NameUse) (cps : List CodePoint) :
    use.read (bytes cps ++ [0]) = bytes (kept use cps) := by
  cases use
  case moduleScheme =>
    simp only [NameUse.read, kept, readCString_bytes, bytes_eq_nil, true_and]
    split
    · exact bytes_defaultScheme.symm
    · rfl
  all_goals simp [NameUse.read, kept, readCString_bytes]

theorem shimName_eq (codec : Utf8Codec) (platform : Platform) (use : NameUse) (text : Text) :
    shimName codec platform use text = some (bytes (kept use (sent codec platform use text))) := by
  rw [shimName, givenName_eq, Option.map_some, read_bytes]

theorem takeWhile_unpaired (h : Unpaired cps) : Unpaired (cps.takeWhile NonZero) :=
  List.IsChain.prefix h (List.takeWhile_prefix _)

theorem kept_unpaired (use : NameUse) (h : Unpaired cps) : Unpaired (kept use cps) := by
  unfold kept
  split
  · exact defaultScheme_scalar.unpaired
  · exact takeWhile_unpaired h

theorem engineName_eq (engine : EngineStrings) (codec : Utf8Codec) (platform : Platform)
    (use : NameUse) (text : Text) :
    engineName engine codec platform use text
      = some (units (kept use (sent codec platform use text))) := by
  rw [engineName, shimName_eq, Option.map_some,
    engine.newStringLen_bytes _ (kept_unpaired use (sent_unpaired ..))]

/-- A name that passes is kept whole. -/
theorem kept_of_passes (codec : Utf8Codec) (ha : use.Accepts text)
    (h : Passes platform use text) : kept use (sent codec platform use text) = codePoints text := by
  rw [sent_of_passes codec h, kept, takeWhile_nonzero h.1]
  refine if_neg ?_
  rintro ⟨huse, hnil⟩
  refine (ha huse).1 ?_
  rw [← units_codePoints text, hnil, units_nil]

/-- A name of which the code points sent are all kept passes. -/
theorem passes_of_kept (codec : Utf8Codec)
    (h : codePoints text = (sent codec platform use text).takeWhile NonZero) :
    Passes platform use text := by
  constructor
  · rw [← units_codePoints text, zero_notMem_units, h]
    exact fun cp hcp => List.mem_takeWhile_imp hcp
  · intro hplatform huse
    rw [h, sent, if_pos ⟨hplatform, huse⟩]
    exact fun cp hcp => codec.replaced_scalar _ cp ((List.takeWhile_prefix _).subset hcp)

/-- The default does not pass for the name it replaces: were it the name, it
would not have been read as empty. -/
theorem sent_defaultScheme (codec : Utf8Codec) (platform : Platform) (use : NameUse)
    (h : codePoints text = defaultScheme) :
    (sent codec platform use text).takeWhile NonZero = defaultScheme := by
  unfold sent
  rw [h]
  split
  · rw [Wtf8.replace_scalar codec defaultScheme_scalar]
    decide
  · decide

theorem passes_of_seen (codec : Utf8Codec)
    (h : units (kept use (sent codec platform use text)) = text) : Passes platform use text := by
  have hcps : codePoints text = kept use (sent codec platform use text) := by
    rw [← codePoints_units (kept_unpaired use (sent_unpaired codec platform use text)), h]
  unfold kept at hcps
  split at hcps
  next hempty =>
    have hdefault := sent_defaultScheme codec platform use hcps
    rw [hempty.2] at hdefault
    cases hdefault
  next => exact passes_of_kept codec hcps

/-- The shim and the engine see exactly the name that was given. -/
def SeenIntact (engine : EngineStrings) (codec : Utf8Codec) (platform : Platform) (use : NameUse)
    (text : Text) : Prop :=
  shimName codec platform use text = Wtf8.encode codec text ∧
    engineName engine codec platform use text = some text

theorem seenIntact_iff (engine : EngineStrings) (codec : Utf8Codec) (platform : Platform)
    (ha : use.Accepts text) :
    SeenIntact engine codec platform use text ↔ Passes platform use text := by
  constructor
  · rintro ⟨-, h⟩
    rw [engineName_eq] at h
    exact passes_of_seen codec (Option.some.inj h)
  · intro h
    have hkept := kept_of_passes codec ha h
    constructor
    · rw [shimName_eq, hkept, Wtf8.encode_eq]
    · rw [engineName_eq, hkept, units_codePoints]

/-- A name is seen as it was given exactly when it passes; names that pass are
told apart, and both platforms see the same of one that passes on both. -/
theorem names_seen_intact (engine : EngineStrings) (codec : Utf8Codec) (use : NameUse) (text : Text)
    (ha : use.Accepts text) :
    (∀ platform, SeenIntact engine codec platform use text ↔ Passes platform use text) ∧
      (∀ platform other, use.Accepts other → Passes platform use text →
        Passes platform use other → shimName codec platform use text
          = shimName codec platform use other → text = other) ∧
      ((∀ platform, Passes platform use text) →
        shimName codec .apple use text = shimName codec .android use text ∧
          engineName engine codec .apple use text = engineName engine codec .android use text) := by
  refine ⟨fun platform => seenIntact_iff engine codec platform ha, ?_, ?_⟩
  · intro platform other hother hpass hpass' hsame
    rw [shimName_eq, shimName_eq, kept_of_passes codec ha hpass,
      kept_of_passes codec hother hpass'] at hsame
    rw [← units_codePoints text, ← units_codePoints other]
    rw [← Wtf8.decodeLoop_bytes, ← Wtf8.decodeLoop_bytes, Option.some.inj hsame]
  · intro hpass
    have happle := (seenIntact_iff engine codec .apple ha).mpr (hpass .apple)
    have handroid := (seenIntact_iff engine codec .android ha).mpr (hpass .android)
    exact ⟨happle.1.trans handroid.1.symm, happle.2.trans handroid.2.symm⟩

/-- An engine that reads malformed bytes as the hand-written decoder does. -/
def wtf8Strings : EngineStrings where
  newStringLen := Wtf8.decodeLoop
  newStringLen_bytes := fun cps _ => Wtf8.decodeLoop_bytes cps

theorem names_seen_intact_key :
    NameUse.propertyKey.Accepts [0x61, 0xD800] ∧
      ∀ platform, SeenIntact wtf8Strings Wtf8.jvmCodec platform .propertyKey [0x61, 0xD800] := by
  have ha : NameUse.propertyKey.Accepts [0x61, 0xD800] := fun h => by cases h
  refine ⟨ha, fun platform => ?_⟩
  refine ((names_seen_intact wtf8Strings Wtf8.jvmCodec .propertyKey _ ha).1 platform).mpr ?_
  exact ⟨by decide, fun _ h => by cases h⟩

/-- A key with U+0000 reads another property on both platforms, and a scheme
with a lone surrogate is another one on Android. -/
theorem names_truncated :
    (∀ platform, engineName wtf8Strings Wtf8.jvmCodec platform .propertyKey [0x61, 0, 0x62]
        = engineName wtf8Strings Wtf8.jvmCodec platform .propertyKey [0x61]) ∧
      (∀ platform, ¬ SeenIntact wtf8Strings Wtf8.jvmCodec platform .propertyKey
        [0x61, 0, 0x62]) ∧
      engineName wtf8Strings Wtf8.jvmCodec .apple .moduleScheme [0x61, 0xD800]
        = some [0x61, 0xD800] ∧
      engineName wtf8Strings Wtf8.jvmCodec .android .moduleScheme [0x61, 0xD800]
        = some [0x61, 0x3F] := by
  refine ⟨fun platform => ?_, fun platform => ?_, by decide +kernel, by decide +kernel⟩
  · cases platform <;> decide +kernel
  · rintro ⟨-, h⟩
    cases platform <;> exact absurd h (by decide +kernel)

end QuickJsKmp
