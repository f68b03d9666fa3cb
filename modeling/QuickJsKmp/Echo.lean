import QuickJsKmp.CStrings
import Mathlib.Data.Nat.Digits.Defs

/-!
# Values across the boundary

A value goes in through `JsEngine.encode`, the binding and `value_from_host`,
and comes out, as a call result or as an argument of a host function, through
`value_to_out`, the binding and `JsEngine.decode`. The C heap is assumed to give
the memory that is asked for.
-/

namespace QuickJsKmp

open CodePoints

-- ---------------------------------------------------------------------------
-- The shapes of a value
-- ---------------------------------------------------------------------------

/-- A `JsRef` with what `encode` checks of it. -/
structure JsRef where
  id : Handle
  kind : UInt64
  owned : Bool
  valid : Bool
  deriving DecidableEq, Repr

/-- A double is carried as its bit pattern. -/
inductive JsValue
  | undefined
  | null
  | bool (value : Bool)
  | num (value : UInt64)
  | str (value : Text)
  | json (json : Option Text)
  | bigInt (value : Text)
  | bytes (value : Bytes)
  | ref (ref : JsRef)
  deriving DecidableEq, Repr

structure RawValue where
  tag : ℕ
  ref : Handle := 0
  num : UInt64 := 0
  str : Option Text := none
  stack : Option Text := none
  bytes : Option Bytes := none
  deriving DecidableEq, Repr

/-- `NativeValue` of the Android binding. -/
structure NativeValue where
  tag : ℕ
  ref : Handle
  num : UInt64
  str : Option Bytes
  stack : Option Bytes
  deriving DecidableEq, Repr

/-- `kmpjs_value`; a pointer is the block it points to, and `none` is NULL. -/
structure KmpjsValue where
  tag : ℕ := 0
  ref : Handle := 0
  num : UInt64 := 0
  str : Option Bytes := none
  strLen : ℕ := 0
  stack : Option Bytes := none
  stackLen : ℕ := 0
  deriving DecidableEq, Repr

namespace NativeTag

@[match_pattern] abbrev undefined : ℕ := 0
@[match_pattern] abbrev null : ℕ := 1
@[match_pattern] abbrev bool : ℕ := 2
@[match_pattern] abbrev number : ℕ := 3
@[match_pattern] abbrev string : ℕ := 4
@[match_pattern] abbrev object : ℕ := 5
@[match_pattern] abbrev exception : ℕ := 6
@[match_pattern] abbrev ref : ℕ := 7
@[match_pattern] abbrev bigInt : ℕ := 8
@[match_pattern] abbrev binary : ℕ := 9

end NativeTag

namespace KmpjsTag

@[match_pattern] abbrev undefined : ℕ := 0
@[match_pattern] abbrev null : ℕ := 1
@[match_pattern] abbrev bool : ℕ := 2
@[match_pattern] abbrev number : ℕ := 3
@[match_pattern] abbrev string : ℕ := 4
@[match_pattern] abbrev object : ℕ := 5
@[match_pattern] abbrev exception : ℕ := 6
@[match_pattern] abbrev ref : ℕ := 7
@[match_pattern] abbrev bigInt : ℕ := 8
@[match_pattern] abbrev binary : ℕ := 9

end KmpjsTag

def one : UInt64 := 0x3FF0000000000000

/-- `bits == 0.0`, which holds of both zeros. -/
def isZero (bits : UInt64) : Bool := bits = 0 ∨ bits = 0x8000000000000000

def isNaN (bits : UInt64) : Bool := bits.toNat % 2 ^ 63 > 0x7FF0000000000000

-- ---------------------------------------------------------------------------
-- The Kotlin side
-- ---------------------------------------------------------------------------

/-- What the conversions use of Kotlin besides its codec. -/
structure Kotlin extends Utf8Codec where
  isDigit : UInt16 → Bool
  isDigit_ascii : ∀ u : UInt16, 0x30 ≤ u.toNat → u.toNat ≤ 0x39 → isDigit u = true

inductive Thrown
  | foreignRef
  | closedRef
  | jsException (message : Text) (stack : Option Text)
  | notAnInteger (value : Text)
  | unknownTag (tag : ℕ)
  deriving DecidableEq, Repr

def encodeValue : JsValue → Except Thrown RawValue
  | .undefined => .ok { tag := NativeTag.undefined }
  | .null => .ok { tag := NativeTag.null }
  | .bool value => .ok { tag := NativeTag.bool, num := if value then one else 0 }
  | .num value => .ok { tag := NativeTag.number, num := value }
  | .str value => .ok { tag := NativeTag.string, str := some value }
  | .json json => .ok { tag := NativeTag.object, str := json }
  | .bigInt value => .ok { tag := NativeTag.bigInt, str := some value }
  | .bytes value => .ok { tag := NativeTag.binary, bytes := some value }
  | .ref r =>
    if !r.owned then .error .foreignRef
    else if !r.valid then .error .closedRef
    else .ok { tag := NativeTag.ref, ref := r.id }

def minus : UInt16 := 0x2D

/-- The `require` of `JsValue.BigInt`. -/
def Kotlin.isInteger (kotlin : Kotlin) (value : Text) : Bool :=
  value ≠ [] ∧ (value.all fun c => kotlin.isDigit c ∨ c = minus) ∧ minus ∉ value.tail ∧
    value ≠ [minus]

def Kotlin.bigInt (kotlin : Kotlin) (value : Text) : Except Thrown JsValue :=
  if kotlin.isInteger value then .ok (.bigInt value) else .error (.notAnInteger value)

def kotlinText (s : String) : Text := s.toList.map fun c => c.toNat.toUInt16

def decodeValue (kotlin : Kotlin) (raw : RawValue) : Except Thrown JsValue :=
  match raw.tag with
  | NativeTag.undefined => .ok .undefined
  | NativeTag.null => .ok .null
  | NativeTag.bool => .ok (.bool (!isZero raw.num))
  | NativeTag.number => .ok (.num raw.num)
  | NativeTag.string => .ok (.str (raw.str.getD []))
  | NativeTag.object => .ok (.json raw.str)
  | NativeTag.ref => .ok (.ref { id := raw.ref, kind := raw.num, owned := true, valid := true })
  | NativeTag.bigInt => kotlin.bigInt (raw.str.getD (kotlinText "0"))
  | NativeTag.binary => .ok (.bytes (raw.bytes.getD []))
  | NativeTag.exception =>
    .error (.jsException (raw.str.getD (kotlinText "unknown exception")) raw.stack)
  | tag => .error (.unknownTag tag)

-- ---------------------------------------------------------------------------
-- The bindings
-- ---------------------------------------------------------------------------

/-- `str?.let(Wtf8::encode)`. -/
def encodeText (codec : Utf8Codec) : Option Text → Option (Option Bytes)
  | none => some none
  | some text => (Wtf8.encode codec text).map some

/-- `bytes ?: str?.let(Wtf8::encode)`. -/
def RawValue.payload (codec : Utf8Codec) (raw : RawValue) : Option (Option Bytes) :=
  match raw.bytes with
  | some bytes => some (some bytes)
  | none => encodeText codec raw.str

/-- `RawValue.writeTo` of the Apple binding. -/
def RawValue.writeTo (codec : Utf8Codec) (raw : RawValue) : Option KmpjsValue := do
  let payload ← raw.payload codec
  let out : KmpjsValue := { tag := raw.tag, ref := raw.ref, num := raw.num }
  match payload with
  | none => return out
  | some bytes => return { out with str := some bytes, strLen := bytes.length }

/-- `p?.readBytes(len)`. -/
def readBytes (p : Option Bytes) (len : ℕ) : Option Bytes := p.map fun block => block.take len

/-- `kmpjs_value.toRaw` of the Apple binding. -/
def KmpjsValue.toRaw (codec : Utf8Codec) (v : KmpjsValue) : RawValue :=
  if v.tag = NativeTag.binary then
    { tag := v.tag, bytes := some ((readBytes v.str v.strLen).getD []) }
  else
    { tag := v.tag
      ref := v.ref
      num := v.num
      str := (readBytes v.str v.strLen).map (Wtf8.decode codec)
      stack := (readBytes v.stack v.stackLen).map (Wtf8.decode codec) }

/-- `RawValue.toNative` of the Android binding. -/
def RawValue.toNative (codec : Utf8Codec) (raw : RawValue) : Option NativeValue := do
  let payload ← raw.payload codec
  let stack ← encodeText codec raw.stack
  return { tag := raw.tag, ref := raw.ref, num := raw.num, str := payload, stack := stack }

/-- `copy_bytes`: the block and its length. -/
def copyBytes : Option Bytes → Option Bytes × ℕ
  | none => (none, 0)
  | some arr => (some arr, arr.length)

def readValue (obj : NativeValue) : KmpjsValue :=
  let (str, strLen) := copyBytes obj.str
  let (stack, stackLen) := copyBytes obj.stack
  { tag := obj.tag, ref := obj.ref, num := obj.num, str, strLen, stack, stackLen }

/-- `new_value`, with `new_bytes` for the two texts. -/
def newValue (v : KmpjsValue) : NativeValue where
  tag := v.tag
  ref := v.ref
  num := v.num
  str := readBytes v.str v.strLen
  stack := readBytes v.stack v.stackLen

/-- `NativeValue.toRaw` of the Android binding. -/
def NativeValue.toRaw (codec : Utf8Codec) (v : NativeValue) : RawValue :=
  if v.tag = NativeTag.binary then { tag := v.tag, bytes := some (v.str.getD []) }
  else
    { tag := v.tag
      ref := v.ref
      num := v.num
      str := v.str.map (Wtf8.decode codec)
      stack := v.stack.map (Wtf8.decode codec) }

def Platform.writeTo (codec : Utf8Codec) : Platform → RawValue → Option KmpjsValue
  | .apple, raw => raw.writeTo codec
  | .android, raw => (raw.toNative codec).map readValue

def Platform.toRaw (codec : Utf8Codec) : Platform → KmpjsValue → RawValue
  | .apple, v => v.toRaw codec
  | .android, v => (newValue v).toRaw codec

-- ---------------------------------------------------------------------------
-- The shim
-- ---------------------------------------------------------------------------

/-- An `object` is whatever is none of the others. -/
inductive EngineValue (Str Obj : Type)
  | undefined
  | null
  | bool (b : Bool)
  | number (bits : UInt64)
  | string (s : Str)
  | bigInt (n : ℤ)
  | object (o : Obj)

/-- What the two conversions call in the engine, and the slots. `none` is a
pending exception; `arrayBuffer` is `none` for what is no buffer and no view of
one, and `some none` for a detached one. -/
structure Engine where
  JSString : Type
  JSObject : Type
  newStringLen : Bytes → Option JSString
  toCStringLen : JSString → Option Bytes
  newFloat64 : UInt64 → UInt64
  callBigInt : JSString → Option ℤ
  bigIntToString : ℤ → JSString
  newArrayBufferCopy : Bytes → Option JSObject
  arrayBuffer : JSObject → Option (Option Bytes)
  isFunction : JSObject → Bool
  parseJSON : Bytes → Option (EngineValue JSString JSObject)
  jsonStringify : JSObject → Option (Option JSString)
  slotGet : Handle → Option (EngineValue JSString JSObject)
  slotNew : JSObject → Option Handle
  objectKind : JSObject → UInt64

abbrev Engine.Value (engine : Engine) : Type := EngineValue engine.JSString engine.JSObject

/-- `v->str ? v->str : ""` with `v->str_len`. -/
def KmpjsValue.text (v : KmpjsValue) : Bytes := (readBytes v.str v.strLen).getD []

def Engine.valueFromHost (engine : Engine) (v : KmpjsValue) : Option engine.Value :=
  match v.tag with
  | KmpjsTag.undefined => some .undefined
  | KmpjsTag.null => some .null
  | KmpjsTag.bool => some (.bool (!isZero v.num))
  | KmpjsTag.number => some (.number (engine.newFloat64 v.num))
  | KmpjsTag.string => (engine.newStringLen v.text).map .string
  | KmpjsTag.object =>
    match v.str with
    | none => some .undefined
    | some _ => engine.parseJSON v.text
  | KmpjsTag.ref => engine.slotGet v.ref
  | KmpjsTag.bigInt => do
    let text ← engine.newStringLen v.text
    let n ← engine.callBigInt text
    return .bigInt n
  | KmpjsTag.binary => (engine.newArrayBufferCopy v.text).map .object
  -- `throw_message`
  | _ => none

/-- `publish`, on an output that is cleared otherwise. -/
def published (tag : ℕ) (bytes : Bytes) : KmpjsValue :=
  { tag := tag, str := some bytes, strLen := bytes.length }

def Engine.textToOut (engine : Engine) (tag : ℕ) (s : engine.JSString) : Option KmpjsValue :=
  (engine.toCStringLen s).map (published tag)

def Engine.objectToOut (engine : Engine) (o : engine.JSObject) : Option KmpjsValue :=
  if engine.isFunction o then some { tag := KmpjsTag.object }
  else
    match engine.arrayBuffer o with
    | some (some bytes) => some (published KmpjsTag.binary bytes)
    | some none => none
    | none => do
      match ← engine.jsonStringify o with
      | some json => engine.textToOut KmpjsTag.object json
      | none => return { tag := KmpjsTag.object }

def Engine.valueToOut (engine : Engine) (refObjects : Bool) : engine.Value → Option KmpjsValue
  | .undefined => some { tag := KmpjsTag.undefined }
  | .null => some { tag := KmpjsTag.null }
  | .bool b => some { tag := KmpjsTag.bool, num := if b then one else 0 }
  | .number bits => some { tag := KmpjsTag.number, num := bits }
  | .string s => engine.textToOut KmpjsTag.string s
  | .bigInt n => engine.textToOut KmpjsTag.bigInt (engine.bigIntToString n)
  | .object o =>
    if refObjects then do
      let ref ← engine.slotNew o
      return { tag := KmpjsTag.ref, num := engine.objectKind o, ref := ref }
    else engine.objectToOut o

-- ---------------------------------------------------------------------------
-- There and back
-- ---------------------------------------------------------------------------

def send (kotlin : Kotlin) (engine : Engine) (platform : Platform) (v : JsValue) :
    Option engine.Value := do
  let raw ← (encodeValue v).toOption
  let out ← platform.writeTo kotlin.toUtf8Codec raw
  engine.valueFromHost out

/-- Under the JSON transport. -/
def receive (kotlin : Kotlin) (engine : Engine) (platform : Platform) (v : engine.Value) :
    Option JsValue := do
  let out ← engine.valueToOut false v
  (decodeValue kotlin (platform.toRaw kotlin.toUtf8Codec out)).toOption

def IsDigit (u : UInt16) : Prop := 0x30 ≤ u.toNat ∧ u.toNat ≤ 0x39

instance (u : UInt16) : Decidable (IsDigit u) := inferInstanceAs (Decidable (_ ∧ _))

def natural (text : Text) : Option ℕ :=
  if text ≠ [] ∧ text.all fun u => IsDigit u then
    some (Nat.ofDigits 10 (text.reverse.map fun u => u.toNat - 0x30))
  else none

/-- The value of a text of the form `-?[0-9]+`. -/
def decimal : Text → Option ℤ
  | [] => none
  | u :: rest =>
    if u = minus then (natural rest).map fun n : ℕ => -(n : ℤ)
    else (natural (u :: rest)).map fun n : ℕ => (n : ℤ)

/-- The digits that `js_bigint_from_string` counts: those after the sign and the zeros. -/
def significant (text : Text) : Text :=
  (if text.head? = some minus then text.tail else text).dropWhile fun u => u = 0x30

/-- `JS_BIGINT_MAX_SIZE`, in limbs. -/
def bigIntMaxSize (limbBits : ℕ) : ℕ := 1024 * 1024 / limbBits

/-- The limbs that a decimal text of so many digits is given. -/
def bigIntLimbs (limbBits nDigits : ℕ) : ℕ :=
  let nBits := (nDigits * 27 + 7) / 8
  max 1 (nBits / limbBits + 1)

/-- Neither `js_bigint_from_string` nor `js_bigint_new` finds the number too large. -/
def BigIntFits (limbBits : ℕ) (text : Text) : Prop :=
  (significant text).length ≤ bigIntMaxSize limbBits * limbBits ∧
    bigIntLimbs limbBits (significant text).length ≤ bigIntMaxSize limbBits

instance : Decidable (BigIntFits limbBits text) := inferInstanceAs (Decidable (_ ∧ _))

def bigIntMaxDigits : ℕ := 310688

/-- The limit is the same for both widths of a limb. -/
theorem bigIntFits_iff (h : limbBits = 32 ∨ limbBits = 64) :
    BigIntFits limbBits text ↔ (significant text).length ≤ bigIntMaxDigits := by
  unfold BigIntFits bigIntLimbs bigIntMaxSize bigIntMaxDigits
  rcases h with rfl | rfl <;> simp only <;> omega

def SameNum (a b : UInt64) : Prop := a = b ∨ isNaN a ∧ isNaN b

/-- The engine's conversions are inverse: on WTF-8 for strings, up to the NaN
for numbers, and on the bytes of a buffer. A `BigInt` is written in decimal. -/
structure Engine.Lawful (engine : Engine) : Prop where
  string_back : ∀ b, Wtf8.WellFormed b →
    ∃ s, engine.newStringLen b = some s ∧ engine.toCStringLen s = some b
  number_back : ∀ bits, SameNum (engine.newFloat64 bits) bits
  bigInt_text : ∀ n, ∃ text, decimal text = some n ∧
    engine.toCStringLen (engine.bigIntToString n) = some (bytes (codePoints text))
  buffer_back : ∀ b, ∃ o, engine.newArrayBufferCopy b = some o ∧ engine.isFunction o = false ∧
    engine.arrayBuffer o = some (some b)

/-- The constructor reads a decimal text that is not too large, and raises a `RangeError`
for any other. -/
structure Engine.ReadsBigInt (engine : Engine) (limbBits : ℕ) : Prop where
  limb : limbBits = 32 ∨ limbBits = 64
  called : ∀ text n s, decimal text = some n → BigIntFits limbBits text →
    engine.newStringLen (bytes (codePoints text)) = some s → engine.callBigInt s = some n
  refused : ∀ text s, (decimal text).isSome → ¬ BigIntFits limbBits text →
    engine.newStringLen (bytes (codePoints text)) = some s → engine.callBigInt s = none

/-- The values that are carried as what they are. -/
def JsValue.Carried : JsValue → Prop
  | .bigInt text => (decimal text).isSome
  | .json _ | .ref _ => False
  | _ => True

/-- The engine has a `BigInt` for it. -/
def JsValue.Fits : JsValue → Prop
  | .bigInt text => (significant text).length ≤ bigIntMaxDigits
  | _ => True

def JsValue.Same : JsValue → JsValue → Prop
  | .num a, .num b => SameNum a b
  | .bigInt a, .bigInt b => decimal a = decimal b
  | a, b => a = b

-- ---------------------------------------------------------------------------
-- The bindings do the same
-- ---------------------------------------------------------------------------

theorem writeTo_eq (codec : Utf8Codec) (platform : Platform) (h : raw.stack = none) :
    platform.writeTo codec raw = raw.writeTo codec := by
  cases platform with
  | apple => rfl
  | android =>
    simp only [Platform.writeTo, RawValue.toNative, RawValue.writeTo, h, encodeText]
    cases raw.payload codec with
    | none => rfl
    | some payload => cases payload <;> rfl

theorem toRaw_eq (codec : Utf8Codec) (platform : Platform) (v : KmpjsValue) :
    platform.toRaw codec v = v.toRaw codec := by
  cases platform <;> rfl

theorem writeTo_text (codec : Utf8Codec) (tag : ℕ) (text : Text) :
    RawValue.writeTo codec { tag := tag, str := some text }
      = some (published tag (bytes (codePoints text))) := by
  simp [RawValue.writeTo, RawValue.payload, encodeText, Wtf8.encode_eq, published]

theorem writeTo_bytes (codec : Utf8Codec) (tag : ℕ) (b : Bytes) :
    RawValue.writeTo codec { tag := tag, bytes := some b } = some (published tag b) := rfl

theorem toRaw_published (codec : Utf8Codec) (h : tag ≠ NativeTag.binary) :
    (published tag b).toRaw codec = { tag := tag, str := some (Wtf8.decode codec b) } := by
  simp [published, KmpjsValue.toRaw, readBytes, h]

theorem toRaw_binary (codec : Utf8Codec) (b : Bytes) :
    (published NativeTag.binary b).toRaw codec = { tag := NativeTag.binary, bytes := some b } := by
  simp [published, KmpjsValue.toRaw, readBytes]

-- ---------------------------------------------------------------------------
-- Decimal texts
-- ---------------------------------------------------------------------------

theorem natural_digits (h : natural text = some n) : text ≠ [] ∧ ∀ u ∈ text, IsDigit u := by
  unfold natural at h
  split at h
  · rename_i hc
    simpa using hc
  · cases h

theorem minus_notMem {text : Text} (h : ∀ u ∈ text, IsDigit u) : minus ∉ text :=
  fun hmem => absurd (h minus hmem) (by decide)

/-- A decimal text passes the check that `JsValue.BigInt` makes. -/
theorem isInteger_of_decimal (kotlin : Kotlin) (h : decimal text = some n) :
    kotlin.isInteger text := by
  have hdigit (u : UInt16) (hu : IsDigit u) : kotlin.isDigit u = true :=
    kotlin.isDigit_ascii u hu.1 hu.2
  cases text with
  | nil => cases h
  | cons u rest =>
    simp only [decimal] at h
    split at h
    next hminus =>
      obtain ⟨m, hm, -⟩ := Option.map_eq_some_iff.mp h
      obtain ⟨hne, hdigits⟩ := natural_digits hm
      have hall : ∀ c ∈ rest, kotlin.isDigit c = true ∨ c = minus :=
        fun c hc => .inl (hdigit c (hdigits c hc))
      simpa [Kotlin.isInteger, hminus, hne, minus_notMem hdigits] using hall
    next hminus =>
      obtain ⟨m, hm, -⟩ := Option.map_eq_some_iff.mp h
      obtain ⟨-, hdigits⟩ := natural_digits hm
      have hrest : ∀ c ∈ rest, IsDigit c := fun c hc => hdigits c (List.mem_cons_of_mem _ hc)
      have hall : ∀ c ∈ rest, kotlin.isDigit c = true ∨ c = minus :=
        fun c hc => .inl (hdigit c (hrest c hc))
      simpa [Kotlin.isInteger, hminus, hdigit u (hdigits u List.mem_cons_self),
        minus_notMem hrest] using hall

-- ---------------------------------------------------------------------------
-- Every carried value comes back
-- ---------------------------------------------------------------------------

theorem wellFormed_text (text : Text) : Wtf8.WellFormed (bytes (codePoints text)) :=
  ⟨codePoints text, codePoints_unpaired text, rfl⟩

theorem decode_text (codec : Utf8Codec) (text : Text) :
    Wtf8.decode codec (bytes (codePoints text)) = text := by
  rw [Wtf8.decode_bytes, units_codePoints]

/-- The value arrives in the engine and leaves it as the same one. -/
def Echoes (kotlin : Kotlin) (engine : Engine) (platform : Platform) (v : JsValue) : Prop :=
  ∃ e back, send kotlin engine platform v = some e ∧
    receive kotlin engine platform e = some back ∧ v.Same back

theorem send_eq (engine : Engine) (platform : Platform) (henc : encodeValue v = .ok raw)
    (hstack : raw.stack = none) (hout : raw.writeTo kotlin.toUtf8Codec = some out) :
    send kotlin engine platform v = engine.valueFromHost out := by
  simp only [send, henc, Except.toOption, Option.bind_eq_bind, Option.bind_some,
    writeTo_eq _ platform hstack, hout]

theorem receive_eq {engine : Engine} {e : engine.Value} (platform : Platform)
    (hout : engine.valueToOut false e = some out)
    (hdec : decodeValue kotlin (out.toRaw kotlin.toUtf8Codec) = .ok v) :
    receive kotlin engine platform e = some v := by
  simp only [receive, hout, Option.bind_eq_bind, Option.bind_some, toRaw_eq, hdec,
    Except.toOption]

/-- A text that leaves the engine comes back under its tag. -/
theorem textToOut_of {engine : Engine} {s : engine.JSString} (tag : ℕ)
    (h : engine.toCStringLen s = some (bytes (codePoints text)))
    (codec : Utf8Codec) (htag : tag ≠ NativeTag.binary) :
    ∃ out, engine.textToOut tag s = some out ∧
      out.toRaw codec = { tag := tag, str := some text } := by
  refine ⟨published tag (bytes (codePoints text)), ?_, ?_⟩
  · rw [Engine.textToOut, h, Option.map_some]
  · rw [toRaw_published codec htag, decode_text]

section
variable {engine : Engine} (kotlin : Kotlin) (platform : Platform)

theorem echoes_bool (value : Bool) : Echoes kotlin engine platform (.bool value) := by
  refine ⟨.bool value, .bool value, ?_, ?_, rfl⟩
  · rw [send_eq engine platform rfl rfl rfl]
    cases value <;> rfl
  · refine receive_eq platform rfl ?_
    cases value <;> rfl

variable (law : engine.Lawful)

include law

theorem echoes_num (value : UInt64) : Echoes kotlin engine platform (.num value) := by
  refine ⟨.number (engine.newFloat64 value), .num (engine.newFloat64 value), ?_, ?_, ?_⟩
  · rw [send_eq engine platform rfl rfl rfl]
    rfl
  · exact receive_eq platform rfl rfl
  · rcases law.number_back value with h | h
    · exact .inl h.symm
    · exact .inr h.symm

theorem echoes_str (value : Text) : Echoes kotlin engine platform (.str value) := by
  obtain ⟨s, hnew, hback⟩ := law.string_back _ (wellFormed_text value)
  refine ⟨.string s, .str value, ?_, ?_, rfl⟩
  · rw [send_eq engine platform rfl rfl (writeTo_text ..)]
    simp [Engine.valueFromHost, published, KmpjsValue.text, readBytes, hnew]
  · obtain ⟨out, hout, hraw⟩ := textToOut_of KmpjsTag.string hback kotlin.toUtf8Codec (by decide)
    refine receive_eq platform hout ?_
    rw [hraw]
    rfl

theorem echoes_bytes (value : Bytes) : Echoes kotlin engine platform (.bytes value) := by
  obtain ⟨o, hnew, hfun, hback⟩ := law.buffer_back value
  refine ⟨.object o, .bytes value, ?_, ?_, rfl⟩
  · rw [send_eq engine platform rfl rfl (writeTo_bytes ..)]
    simp [Engine.valueFromHost, published, KmpjsValue.text, readBytes, hnew]
  · have hout : engine.valueToOut false (.object o) = some (published KmpjsTag.binary value) := by
      simp [Engine.valueToOut, Engine.objectToOut, hfun, hback]
    refine receive_eq platform hout ?_
    rw [toRaw_binary]
    rfl

theorem echoes_bigInt (reads : engine.ReadsBigInt limbBits) (h : decimal value = some n)
    (hfits : (significant value).length ≤ bigIntMaxDigits) :
    Echoes kotlin engine platform (.bigInt value) := by
  obtain ⟨s, hnew, -⟩ := law.string_back _ (wellFormed_text value)
  obtain ⟨back, hdecimal, hback⟩ := law.bigInt_text n
  have hcall := reads.called value n s h ((bigIntFits_iff reads.limb).mpr hfits) hnew
  refine ⟨.bigInt n, .bigInt back, ?_, ?_, h.trans hdecimal.symm⟩
  · rw [send_eq engine platform rfl rfl (writeTo_text ..)]
    simp [Engine.valueFromHost, published, KmpjsValue.text, readBytes, hnew, hcall]
  · obtain ⟨out, hout, hraw⟩ := textToOut_of KmpjsTag.bigInt hback kotlin.toUtf8Codec (by decide)
    refine receive_eq platform hout ?_
    rw [hraw]
    simp [decodeValue, Kotlin.bigInt, isInteger_of_decimal kotlin hdecimal]

/-- A number that is too large does not get in. -/
theorem send_large_bigInt (reads : engine.ReadsBigInt limbBits) (h : (decimal value).isSome)
    (hlarge : bigIntMaxDigits < (significant value).length) :
    send kotlin engine platform (.bigInt value) = none := by
  obtain ⟨s, hnew, -⟩ := law.string_back _ (wellFormed_text value)
  have hfits : ¬ BigIntFits limbBits value := fun hfits =>
    absurd ((bigIntFits_iff reads.limb).mp hfits) (by omega)
  rw [send_eq engine platform rfl rfl (writeTo_text ..)]
  simp [Engine.valueFromHost, published, KmpjsValue.text, readBytes, hnew,
    reads.refused value s h hfits hnew]

end

/-- Sending a value in and taking it back yields an equal one, on either
binding. -/
theorem values_echo (kotlin : Kotlin) (engine : Engine) (law : engine.Lawful)
    (reads : engine.ReadsBigInt limbBits) (platform : Platform) (v : JsValue) (h : v.Carried)
    (hfits : v.Fits) : Echoes kotlin engine platform v := by
  cases v with
  | undefined =>
    refine ⟨.undefined, .undefined, ?_, receive_eq platform rfl rfl, rfl⟩
    rw [send_eq engine platform rfl rfl rfl]
    rfl
  | null =>
    refine ⟨.null, .null, ?_, receive_eq platform rfl rfl, rfl⟩
    rw [send_eq engine platform rfl rfl rfl]
    rfl
  | bool value => exact echoes_bool kotlin platform value
  | num value => exact echoes_num kotlin platform law value
  | str value => exact echoes_str kotlin platform law value
  | json json => exact h.elim
  | bigInt value =>
    obtain ⟨n, hn⟩ := Option.isSome_iff_exists.mp h
    exact echoes_bigInt kotlin platform law reads hn hfits
  | bytes value => exact echoes_bytes kotlin platform law value
  | ref r => exact h.elim

-- ---------------------------------------------------------------------------
-- An engine with these laws
-- ---------------------------------------------------------------------------

def digitText (d : ℕ) : UInt16 := (0x30 + d).toUInt16

theorem digitText_toNat (h : d < 10) : (digitText d).toNat = 0x30 + d :=
  toNat_toUInt16 (by omega)

def natText (n : ℕ) : Text :=
  if n = 0 then [digitText 0] else (Nat.digits 10 n).reverse.map digitText

def intText (n : ℤ) : Text :=
  if n < 0 then minus :: natText n.natAbs else natText n.natAbs

theorem natural_map (hne : ds ≠ []) (hlt : ∀ d ∈ ds, d < 10) :
    natural (ds.reverse.map digitText) = some (Nat.ofDigits 10 ds) := by
  have hdigit : (ds.reverse.map digitText).all fun u => IsDigit u := by
    refine List.all_eq_true.mpr fun u hu => decide_eq_true ?_
    obtain ⟨d, hd, rfl⟩ := List.mem_map.mp hu
    have hd10 := hlt d (List.mem_reverse.mp hd)
    rw [IsDigit, digitText_toNat hd10]
    omega
  have hback : (ds.reverse.map digitText).reverse.map (fun u => u.toNat - 0x30) = ds := by
    rw [← List.map_reverse, List.reverse_reverse, List.map_map]
    refine List.map_congr_left (fun d hd => ?_) |>.trans (List.map_id ds)
    rw [Function.comp_apply, digitText_toNat (hlt d hd), Nat.add_sub_cancel_left, id]
  rw [natural, if_pos ⟨by simpa using hne, hdigit⟩, hback]

theorem natural_natText (n : ℕ) : natural (natText n) = some n := by
  unfold natText
  split
  next h =>
    subst h
    decide
  next h =>
    have hlt : ∀ d ∈ Nat.digits 10 n, d < 10 := fun d hd => Nat.digits_lt_base (by decide) hd
    rw [natural_map (Nat.digits_ne_nil_iff_ne_zero.mpr h) hlt, Nat.ofDigits_digits]

theorem decimal_natText (n : ℕ) : decimal (natText n) = some (n : ℤ) := by
  have hnat := natural_natText n
  obtain ⟨hne, hdigits⟩ := natural_digits hnat
  generalize natText n = text at *
  cases text with
  | nil => exact absurd rfl hne
  | cons u rest =>
    have hu : u ≠ minus := fun h => minus_notMem hdigits (h ▸ List.mem_cons_self)
    rw [decimal, if_neg hu, hnat, Option.map_some]

theorem decimal_intText (n : ℤ) : decimal (intText n) = some n := by
  unfold intText
  split
  · rw [decimal, if_pos rfl, natural_natText, Option.map_some]
    congr 1
    omega
  · rw [decimal_natText]
    congr 1
    omega

/-- Strings are their units and objects are buffers. -/
def unitEngine (callBigInt : Text → Option ℤ) : Engine where
  JSString := Text
  JSObject := Bytes
  newStringLen := fun b => some (Wtf8.decodeLoop b)
  toCStringLen := fun s => some (bytes (codePoints s))
  newFloat64 := id
  callBigInt := callBigInt
  bigIntToString := intText
  newArrayBufferCopy := some
  arrayBuffer := fun o => some (some o)
  isFunction := fun _ => false
  parseJSON := fun _ => none
  jsonStringify := fun _ => none
  slotGet := fun _ => none
  slotNew := fun _ => none
  objectKind := fun _ => 0

theorem unitEngine_newStringLen {callBigInt : Text → Option ℤ} {s : Text}
    (h : (unitEngine callBigInt).newStringLen (bytes (codePoints text)) = some s) : s = text := by
  have hs : units (codePoints text) = s :=
    (Wtf8.decodeLoop_bytes _).symm.trans (Option.some.inj h)
  rw [← hs, units_codePoints]

theorem unitEngine_lawful (callBigInt : Text → Option ℤ) : (unitEngine callBigInt).Lawful where
  string_back := by
    rintro b ⟨cps, hcps, rfl⟩
    refine ⟨units cps, congrArg some (Wtf8.decodeLoop_bytes cps), ?_⟩
    exact congrArg (fun cs => some (bytes cs)) (codePoints_units hcps)
  number_back := fun bits => .inl rfl
  bigInt_text := fun n => ⟨intText n, decimal_intText n, rfl⟩
  buffer_back := fun b => ⟨b, rfl, rfl, rfl⟩

def boundedDecimal (text : Text) : Option ℤ := if BigIntFits 64 text then decimal text else none

theorem bounded_readsBigInt : (unitEngine boundedDecimal).ReadsBigInt 64 where
  limb := .inr rfl
  called := by
    intro text n s hdecimal hfits hnew
    rw [unitEngine_newStringLen hnew]
    exact (if_pos hfits).trans hdecimal
  refused := by
    intro text s _ hlarge hnew
    rw [unitEngine_newStringLen hnew]
    exact if_neg hlarge

def jvm : Kotlin where
  toUtf8Codec := Wtf8.jvmCodec
  isDigit := fun u => IsDigit u
  isDigit_ascii := fun _ hge hle => decide_eq_true ⟨hge, hle⟩

theorem values_echo_bigInt :
    (JsValue.bigInt [0x2D, 0x30, 0x37]).Carried ∧ (JsValue.bigInt [0x2D, 0x30, 0x37]).Fits ∧
      ∀ platform, Echoes jvm (unitEngine boundedDecimal) platform (.bigInt [0x2D, 0x30, 0x37]) := by
  have h : (JsValue.bigInt [0x2D, 0x30, 0x37]).Carried := show (decimal _).isSome by decide +kernel
  have hfits : (JsValue.bigInt [0x2D, 0x30, 0x37]).Fits :=
    show (significant _).length ≤ 310688 by decide
  exact ⟨h, hfits, fun platform =>
    values_echo jvm _ (unitEngine_lawful _) bounded_readsBigInt platform _ h hfits⟩

/-- So many ones. -/
def onesText (n : ℕ) : Text := List.replicate n 0x31

theorem onesText_decimal (h : n ≠ 0) : (decimal (onesText n)).isSome := by
  obtain ⟨m, rfl⟩ := Nat.exists_eq_succ_of_ne_zero h
  have hminus : (0x31 : UInt16) ≠ minus := by decide
  have hall : (onesText (m + 1)).all fun u => IsDigit u :=
    List.all_eq_true.mpr fun u hu => List.eq_of_mem_replicate hu ▸ by decide
  have hnat : (natural (onesText (m + 1))).isSome := by
    rw [natural, if_pos ⟨List.cons_ne_nil _ _, hall⟩]
    rfl
  change (decimal (0x31 :: onesText m)).isSome
  rw [decimal, if_neg hminus, Option.isSome_map]
  exact hnat

theorem onesText_significant (n : ℕ) : (significant (onesText n)).length = n := by
  cases n with
  | zero => rfl
  | succ n =>
    have hminus : (onesText (n + 1)).head? ≠ some minus := by
      rw [onesText, List.replicate_succ, List.head?_cons]
      decide
    have hzero : ¬ decide ((0x31 : UInt16) = 0x30) = true := by decide
    rw [significant, if_neg hminus, onesText, List.replicate_succ, List.dropWhile_cons, if_neg hzero,
      List.length_cons, List.length_replicate]

/-- A number of one digit more than a `BigInt` may have. -/
theorem large_bigInt_refused :
    ¬ ∀ (kotlin : Kotlin) (engine : Engine) limbBits, engine.Lawful →
      engine.ReadsBigInt limbBits → ∀ platform (v : JsValue), v.Carried →
        Echoes kotlin engine platform v := by
  intro h
  have hdecimal := onesText_decimal (n := bigIntMaxDigits + 1) (by decide)
  obtain ⟨e, back, hsend, -⟩ := h jvm _ 64 (unitEngine_lawful _) bounded_readsBigInt .android
    (.bigInt (onesText (bigIntMaxDigits + 1))) hdecimal
  have hnone := send_large_bigInt jvm .android (unitEngine_lawful _) bounded_readsBigInt hdecimal
    (by rw [onesText_significant]; exact Nat.lt_succ_self _)
  rw [hnone] at hsend
  cases hsend

end QuickJsKmp
