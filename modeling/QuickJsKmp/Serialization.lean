import QuickJsKmp.Echo
import QuickJsKmp.Lib.Binary64

/-!
# Values of serializable types

A primitive becomes a JSON element and then a `JsValue`, and comes back the same
way. An integer becomes a double on the way, which keeps 53 of its bits. JSON
texts are kotlinx's own affair.
-/

namespace QuickJsKmp.Serialization

open Binary64

def ofAscii (s : String) : Text := s.toList.map fun c => c.toNat.toUInt16

/-- `JsonNull`, a `JsonPrimitive`, or one of `JsonObject` and `JsonArray` with its `toString`. -/
inductive JsonElement
  | null
  | primitive (isString : Bool) (content : Text)
  | structured (text : Text)
  deriving DecidableEq, Repr

inductive BaseType
  | boolean
  | int
  | long
  | string
  deriving DecidableEq, Repr

def BaseType.Value : BaseType → Type
  | .boolean => Bool
  | .int => BitVec 32
  | .long => BitVec 64
  | .string => Text

inductive KType
  | plain (base : BaseType)
  | nullable (base : BaseType)
  deriving DecidableEq, Repr

def KType.Value : KType → Type
  | .plain base => base.Value
  | .nullable base => Option base.Value

/-- The ways in which a `SerializationException` comes about. -/
inductive Failure
  | notSerializable
  | mismatch
  deriving DecidableEq, Repr

/-- What is left to Kotlin and kotlinx: the text of a double, which has a point or is a word, the
double of a text that is no integer, and reading JSON text. `refToJson` is `JsRef.toJson`. -/
structure Kotlinx where
  doubleText : UInt64 → Text
  notInteger : ∀ d, decimal (doubleText d) = none
  toDouble : Text → UInt64
  decodeString : (T : KType) → Text → Except Failure T.Value
  refToJson : JsRef → Option Text

section
variable (kotlinx : Kotlinx)

-- ---------------------------------------------------------------------------
-- From a value
-- ---------------------------------------------------------------------------

def boolText (b : Bool) : Text := if b then ofAscii "true" else ofAscii "false"

def encodeBase : (base : BaseType) → base.Value → JsonElement
  | .boolean, b => .primitive false (boolText b)
  | .int, n => .primitive false (intText (BitVec.toInt n))
  | .long, n => .primitive false (intText (BitVec.toInt n))
  | .string, s => .primitive true s

def encodeToJsonElement : (T : KType) → T.Value → JsonElement
  | .plain base, x => encodeBase base x
  | .nullable _, none => .null
  | .nullable base, some x => encodeBase base x

def contentToDouble (content : Text) : UInt64 :=
  match decimal content with
  | some n => if n = 0 ∧ content.head? = some minus then 0x8000000000000000 else ofInt n
  | none => kotlinx.toDouble content

def JsonElement.toJsValue : JsonElement → JsValue
  | .null => .null
  | .primitive isString content =>
    if isString then .str content
    else if content = ofAscii "true" then .bool true
    else if content = ofAscii "false" then .bool false
    else .num (contentToDouble kotlinx content)
  | .structured text => .json (some text)

def encodeToJsValue (T : KType) (x : T.Value) : JsValue :=
  (encodeToJsonElement T x).toJsValue kotlinx

-- ---------------------------------------------------------------------------
-- To a value
-- ---------------------------------------------------------------------------

def longMin : ℤ := -2 ^ 63

def longMax : ℤ := 2 ^ 63 - 1

def toJsonPrimitive (d : UInt64) : JsonElement :=
  let whole := (number (ofInt longMin)).le (number d) && (number d).lt (number (ofInt longMax)) &&
    (number d).eq (number (ofInt (number d).toLong))
  if whole then .primitive false (intText (number d).toLong)
  else .primitive false (kotlinx.doubleText d)

/-- `toString` of an array of the bytes, which are signed. -/
def bytesText (b : Bytes) : Text :=
  ofAscii "[" ++ (ofAscii ",").intercalate (b.map fun x => intText x.toInt8.toInt) ++ ofAscii "]"

def decodeBase : (base : BaseType) → JsonElement → Except Failure base.Value
  | .boolean, .primitive _ content =>
    if content = ofAscii "true" then .ok true
    else if content = ofAscii "false" then .ok false
    else .error .mismatch
  | .int, .primitive _ content =>
    match decimal content with
    | some n => if -2 ^ 31 ≤ n ∧ n < 2 ^ 31 then .ok (BitVec.ofInt 32 n) else .error .mismatch
    | none => .error .mismatch
  | .long, .primitive _ content =>
    match decimal content with
    | some n => if longMin ≤ n ∧ n ≤ longMax then .ok (BitVec.ofInt 64 n) else .error .mismatch
    | none => .error .mismatch
  | .string, .primitive isString content =>
    if isString then .ok content else .error .mismatch
  | _, _ => .error .mismatch

def decodeFromJsonElement : (T : KType) → JsonElement → Except Failure T.Value
  | .plain base, element => decodeBase base element
  | .nullable _, .null => .ok none
  | .nullable base, element => (decodeBase base element).map some

def decodeFromJsValue (T : KType) : JsValue → Except Failure T.Value
  | .json (some json) => kotlinx.decodeString T json
  | .json none => .error .notSerializable
  | .ref r =>
    match kotlinx.refToJson r with
    | some json => kotlinx.decodeString T json
    | none => .error .notSerializable
  | .undefined => decodeFromJsonElement T .null
  | .null => decodeFromJsonElement T .null
  | .bool value => decodeFromJsonElement T (.primitive false (boolText value))
  | .str value => decodeFromJsonElement T (.primitive true value)
  | .num value => decodeFromJsonElement T (toJsonPrimitive kotlinx value)
  | .bigInt value => decodeFromJsonElement T (.primitive false value)
  | .bytes value => decodeFromJsonElement T (.structured (bytesText value))

end

-- ---------------------------------------------------------------------------
-- Integers on the way
-- ---------------------------------------------------------------------------

variable {kotlinx : Kotlinx}

theorem intText_ne (n : ℤ) : intText n ≠ ofAscii "true" ∧ intText n ≠ ofAscii "false" := by
  have h := decimal_intText n
  have htrue : decimal (ofAscii "true") = none := by decide
  have hfalse : decimal (ofAscii "false") = none := by decide
  refine ⟨fun heq => ?_, fun heq => ?_⟩
  · rw [heq, htrue] at h
    cases h
  · rw [heq, hfalse] at h
    cases h

/-- It stands for the double that the integer is rounded to. -/
theorem contentToDouble_intText (n : ℤ) : contentToDouble kotlinx (intText n) = ofInt n := by
  rw [contentToDouble, decimal_intText]
  refine if_neg ?_
  rintro ⟨rfl, hminus⟩
  cases hminus

theorem number_longMin : number (ofInt longMin) = .finite (longMin : ℚ) := by
  rw [number_ofInt (by decide)]
  rfl

theorem number_longMax : number (ofInt longMax) = .finite (2 ^ 63 : ℤ) := by
  rw [number_ofInt (by decide)]
  rfl

/-- The double of a `Long` is whole as long as it is below 2⁶³, and then a text of its number. -/
theorem toJsonPrimitive_ofInt (hge : longMin ≤ n) (hle : n ≤ longMax) :
    toJsonPrimitive kotlinx (ofInt n) =
      if roundInt n < 2 ^ 63 then .primitive false (intText (roundInt n))
      else .primitive false (kotlinx.doubleText (ofInt n)) := by
  simp only [longMin, longMax] at hge hle
  have hsize : n.natAbs ≤ 2 ^ 63 := by omega
  have hlog (m : ℤ) (hm : m.natAbs ≤ 2 ^ 63) : m.natAbs.log2 < 1023 := by
    rcases Nat.eq_zero_or_pos m.natAbs with hzero | hpos
    · rw [hzero]
      decide
    · have := (Nat.log2_lt hpos.ne').mpr (lt_of_le_of_lt hm (show 2 ^ 63 < 2 ^ 64 by decide))
      omega
  have hnumber := number_ofInt (hlog n hsize)
  obtain ⟨hlow, hhigh⟩ := roundInt_bounds hsize
  unfold toJsonPrimitive
  rw [hnumber, number_longMin, number_longMax]
  by_cases hlt : roundInt n < 2 ^ 63
  · have hlong : (Number.finite (roundInt n)).toLong = roundInt n := toLong_intCast hlow hlt
    have hagain := number_ofInt (hlog (roundInt n) (by omega))
    rw [roundInt_roundInt] at hagain
    have hlow' : ((longMin : ℤ) : ℚ) ≤ (roundInt n : ℚ) := by exact_mod_cast hlow
    have hlt' : (roundInt n : ℚ) < ((2 ^ 63 : ℤ) : ℚ) := by exact_mod_cast hlt
    rw [hlong, hagain, if_pos hlt]
    simp only [Number.le_finite, Number.lt_finite, Number.eq_finite, hlow', hlt', decide_true,
      Bool.and_self, if_true]
  · have hlt' : ¬ (roundInt n : ℚ) < ((2 ^ 63 : ℤ) : ℚ) := by exact_mod_cast hlt
    rw [if_neg hlt]
    simp only [Number.lt_finite, hlt', decide_false, Bool.and_false, Bool.false_and,
      Bool.false_eq_true, if_false]

-- ---------------------------------------------------------------------------
-- There and back
-- ---------------------------------------------------------------------------

/-- What comes back of a value: a `Long` with the bits that a double keeps, if it is one still. -/
def keptBase : (base : BaseType) → base.Value → Except Failure base.Value
  | .boolean, b => .ok b
  | .int, n => .ok n
  | .long, n =>
    if roundInt (BitVec.toInt n) < 2 ^ 63 then .ok (BitVec.ofInt 64 (roundInt (BitVec.toInt n)))
    else .error .mismatch
  | .string, s => .ok s

def kept : (T : KType) → T.Value → Except Failure T.Value
  | .plain base, x => keptBase base x
  | .nullable _, none => .ok none
  | .nullable base, some x => (keptBase base x).map some

def ExactBase : (base : BaseType) → base.Value → Prop
  | .long, n => Representable (BitVec.toInt n).natAbs
  | _, _ => True

/-- A `Long` has a significand of 53 bits; every other value is as it may be. -/
def Exact : (T : KType) → T.Value → Prop
  | .plain base, x => ExactBase base x
  | .nullable _, none => True
  | .nullable base, some x => ExactBase base x

/-- The element that an integer has become when it is decoded. -/
def returned (kotlinx : Kotlinx) (n : ℤ) : JsonElement :=
  if roundInt n < 2 ^ 63 then .primitive false (intText (roundInt n))
  else .primitive false (kotlinx.doubleText (ofInt n))

theorem decode_integer (kotlinx : Kotlinx) (hge : longMin ≤ n) (hle : n ≤ longMax) (base : BaseType) :
    decodeFromJsValue kotlinx (.plain base)
        ((JsonElement.primitive false (intText n)).toJsValue kotlinx) =
        decodeBase base (returned kotlinx n) ∧
      decodeFromJsValue kotlinx (.nullable base)
        ((JsonElement.primitive false (intText n)).toJsValue kotlinx) =
        (decodeBase base (returned kotlinx n)).map some := by
  obtain ⟨htrue, hfalse⟩ := intText_ne n
  rw [JsonElement.toJsValue, if_neg Bool.false_ne_true, if_neg htrue, if_neg hfalse,
    contentToDouble_intText, decodeFromJsValue, decodeFromJsValue, toJsonPrimitive_ofInt hge hle,
    returned]
  split <;> exact ⟨rfl, rfl⟩

theorem toInt_bounds (n : BitVec 64) : longMin ≤ n.toInt ∧ n.toInt ≤ longMax := by
  have hge := BitVec.le_toInt n
  have hlt := BitVec.toInt_lt (x := n)
  simp only [longMin, longMax]
  omega

theorem decode_long (n : BitVec 64) :
    decodeBase .long (returned kotlinx n.toInt) = keptBase .long n := by
  obtain ⟨hge, hle⟩ := toInt_bounds n
  simp only [longMin, longMax] at hge hle
  have hlow := (roundInt_bounds (n := n.toInt) (k := 63) (by omega)).1
  simp only [keptBase, returned]
  split
  · simp only [decodeBase, decimal_intText]
    refine if_pos ?_
    simp only [longMin, longMax]
    omega
  · simp only [decodeBase, kotlinx.notInteger]

theorem roundInt_int (n : BitVec 32) : roundInt n.toInt = n.toInt := by
  have hge := BitVec.le_toInt n
  have hlt := BitVec.toInt_lt (x := n)
  exact roundInt_eq_self_iff.mpr ⟨n.toInt.natAbs, 0, by omega, by simp⟩

theorem decode_int (n : BitVec 32) :
    decodeBase .int (returned kotlinx n.toInt) = keptBase .int n := by
  have hge := BitVec.le_toInt n
  have hlt := BitVec.toInt_lt (x := n)
  rw [returned, roundInt_int, if_pos (by omega)]
  simp only [decodeBase, decimal_intText, keptBase]
  rw [if_pos (by omega), BitVec.ofInt_toInt]

theorem int_bounds (n : BitVec 32) : longMin ≤ n.toInt ∧ n.toInt ≤ longMax := by
  have hge := BitVec.le_toInt n
  have hlt := BitVec.toInt_lt (x := n)
  simp only [longMin, longMax]
  omega

/-- Every element that a primitive was encoded as is decoded to what is kept of it. -/
theorem decode_encodeBase (base : BaseType) (x : base.Value) :
    decodeFromJsValue kotlinx (.plain base) ((encodeBase base x).toJsValue kotlinx) =
        keptBase base x ∧
      decodeFromJsValue kotlinx (.nullable base) ((encodeBase base x).toJsValue kotlinx) =
        (keptBase base x).map some := by
  cases base with
  | boolean => cases x <;> exact ⟨rfl, rfl⟩
  | int =>
    obtain ⟨hge, hle⟩ := int_bounds x
    obtain ⟨hplain, hnullable⟩ := decode_integer kotlinx hge hle .int
    exact ⟨hplain.trans (decode_int x), hnullable.trans (congrArg _ (decode_int x))⟩
  | long =>
    obtain ⟨hge, hle⟩ := toInt_bounds x
    obtain ⟨hplain, hnullable⟩ := decode_integer kotlinx hge hle .long
    exact ⟨hplain.trans (decode_long x), hnullable.trans (congrArg _ (decode_long x))⟩
  | string => exact ⟨rfl, rfl⟩

theorem decode_encode (kotlinx : Kotlinx) (T : KType) (x : T.Value) :
    decodeFromJsValue kotlinx T (encodeToJsValue kotlinx T x) = kept T x := by
  cases T with
  | plain base => exact (decode_encodeBase base x).1
  | nullable base =>
    cases x with
    | none => rfl
    | some x => exact (decode_encodeBase base x).2

theorem keptBase_eq_ok_iff (base : BaseType) (x : base.Value) :
    keptBase base x = .ok x ↔ ExactBase base x := by
  cases base with
  | long =>
    show (if roundInt (BitVec.toInt x) < 2 ^ 63 then _ else _) = _ ↔ Representable _
    rw [← roundInt_eq_self_iff]
    obtain ⟨hge, hle⟩ := toInt_bounds x
    simp only [longMin, longMax] at hge hle
    have hlow := (roundInt_bounds (n := BitVec.toInt x) (k := 63) (by omega)).1
    constructor
    · intro h
      split at h
      · have hvalue := congrArg BitVec.toInt (Except.ok.inj h)
        rwa [BitVec.toInt_ofInt_eq_self (by decide) hlow (by assumption)] at hvalue
      · cases h
    · intro h
      rw [h, if_pos (by omega)]
      exact congrArg _ (BitVec.ofInt_toInt ..)
  | _ => exact ⟨fun _ => trivial, fun _ => rfl⟩

theorem kept_eq_ok_iff (T : KType) (x : T.Value) : kept T x = .ok x ↔ Exact T x := by
  cases T with
  | plain base => exact keptBase_eq_ok_iff base x
  | nullable base =>
    cases x with
    | none => exact ⟨fun _ => trivial, fun _ => rfl⟩
    | some x =>
      refine Iff.trans ⟨fun h => ?_, fun h => ?_⟩ (keptBase_eq_ok_iff base x)
      · cases hx : keptBase base x with
        | error e =>
          rw [kept, hx] at h
          cases h
        | ok y =>
          rw [kept, hx] at h
          exact congrArg _ (Option.some.inj (Except.ok.inj h))
      · rw [kept, h]
        rfl

/-- Every value comes back as what a double keeps of it, and as itself if and only if it is exact
in one. -/
theorem serialization_round_trip (kotlinx : Kotlinx) (T : KType) (x : T.Value) :
    decodeFromJsValue kotlinx T (encodeToJsValue kotlinx T x) = kept T x ∧
      (decodeFromJsValue kotlinx T (encodeToJsValue kotlinx T x) = .ok x ↔ Exact T x) := by
  have h := decode_encode kotlinx T x
  exact ⟨h, h ▸ kept_eq_ok_iff T x⟩

/-- Doubles with a point, and no JSON text. -/
def pointed : Kotlinx where
  doubleText := fun _ => ofAscii "9.223372036854776E18"
  notInteger := fun _ => by decide
  toDouble := fun _ => 0
  decodeString := fun _ _ => .error .mismatch
  refToJson := fun _ => none

/-- The `Long` 2⁵³ + 1. -/
theorem odd_long_rounded :
    ¬ ∀ kotlinx T x, decodeFromJsValue kotlinx T (encodeToJsValue kotlinx T x) = .ok x := by
  intro h
  have hkept : kept (.plain .long) (9007199254740993#64) = .ok (9007199254740993#64) :=
    (decode_encode pointed (.plain .long) _).symm.trans (h pointed (.plain .long) _)
  have hexact := (kept_eq_ok_iff (.plain .long) (9007199254740993#64)).mp hkept
  exact absurd (round_eq_self_iff.mpr hexact) (by decide)

end QuickJsKmp.Serialization
