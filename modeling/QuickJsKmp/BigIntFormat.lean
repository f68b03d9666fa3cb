import QuickJsKmp.ObjectParts

/-!
# BigInts in an object file

A BigInt is written as the bytes of its two's complement, no more of them than it needs. They do
not depend on the width of a limb, so that an engine with other limbs reads the same integer, and
in its own normal form.
-/

namespace QuickJsKmp.ObjectFormat

open Codec (Encoder Decoder Carries)
open LittleEndian (Within signed)

variable {k k' : ℕ} {T : Transfer}

/-- Limbs in front of an integer. -/
def limbsInt : List (BitVec (8 * k)) → ℤ → ℤ
  | [], x => x
  | limb :: limbs, x => limb.toNat + (256 ^ k : ℕ) * limbsInt limbs x

/-- The integer that the limbs stand for. -/
def JSBigInt.toInt (p : JSBigInt k) : ℤ := limbsInt p.low p.top.toInt

def limbBytes (limbs : List (BitVec (8 * k))) : Bytes :=
  limbs.flatMap fun v => LittleEndian.bytes k v.toNat

/-- What is written of a BigInt behind its length. -/
def JSBigInt.bytes (p : JSBigInt k) : Bytes :=
  if p.low = [] ∧ p.top = 0 then []
  else limbBytes p.low ++ LittleEndian.bytes (significant p.top k) p.top.toNat

/-- `js_bigint_normalize1` leaves it as it is. -/
def JSBigInt.Normal (p : JSBigInt k) : Prop :=
  ∀ limb ∈ p.low.getLast?, (p.top ≠ 0 ∧ p.top ≠ -1) ∨ p.top &&& 1 ≠ limb >>> (8 * k - 1)

-- ---------------------------------------------------------------------------
-- The bytes that are left out
-- ---------------------------------------------------------------------------

theorem limb_toNat_lt (v : BitVec (8 * k)) : v.toNat < 256 ^ k := by
  have := v.isLt
  rwa [Nat.pow_mul] at this

theorem limb_toInt (v : BitVec (8 * k)) : v.toInt = signed (LittleEndian.bytes k v.toNat) := by
  rw [BitVec.toInt_eq_toNat_bmod, signed, LittleEndian.length_bytes,
    LittleEndian.value_bytes_of_lt (limb_toNat_lt v), Nat.pow_mul]

theorem limb_fits (hk : 0 < k) (v : BitVec (8 * k)) : Within k v.toInt := by
  rw [limb_toInt]
  have hne : LittleEndian.bytes k v.toNat ≠ [] := by
    rw [← List.length_pos_iff, LittleEndian.length_bytes]
    exact hk
  have h := LittleEndian.within_signed hne
  rwa [LittleEndian.length_bytes] at h

/-- A limb is found in as many bytes as it needs. -/
theorem signed_limb {v : BitVec (8 * k)} {n : ℕ} (hn : n ≤ k) (h : Within n v.toInt) :
    signed (LittleEndian.bytes n v.toNat) = v.toInt := by
  refine LittleEndian.signed_bytes ?_ h
  have hdvd : ((256 ^ n : ℕ) : ℤ) ∣ (2 ^ (8 * k) : ℕ) := by
    rw [Nat.pow_mul]
    exact_mod_cast Nat.pow_dvd_pow 256 hn
  rw [BitVec.toInt_eq_toNat_bmod, ← Int.emod_emod_of_dvd (Int.bmod _ _) hdvd, Int.bmod_emod,
    Int.emod_emod_of_dvd _ hdvd]

theorem pow_eight (n : ℕ) : 2 ^ (8 * n) = 256 ^ n := Nat.pow_mul 2 8 n

theorem highest_bit {s : ℕ} (v : ℕ) : v >>> s &&& 1 =
    if v % 2 ^ (s + 1) * 2 < 2 ^ (s + 1) then 0 else 1 := by
  have hmod : v % 2 ^ (s + 1) = v % 2 ^ s + 2 ^ s * (v / 2 ^ s % 2) := by
    rw [Nat.pow_succ, Nat.mod_mul]
  have hlo : v % 2 ^ s < 2 ^ s := Nat.mod_lt _ (Nat.two_pow_pos s)
  rw [Nat.shiftRight_eq_div_pow, Nat.and_one_is_mod, hmod, Nat.pow_succ]
  rcases Nat.mod_two_eq_zero_or_one (v / 2 ^ s) with hbit | hbit
  · rw [hbit, if_pos (by omega)]
  · rw [hbit, if_neg (by omega)]

/-- The test of the loop. -/
theorem redundant_iff {v : BitVec (8 * k)} {n : ℕ} (hn : n + 2 ≤ k) (h : Within (n + 2) v.toInt) :
    Within (n + 1) v.toInt ↔
      ¬((v.toNat >>> (8 * (n + 1)) &&& 0xff ≠ 0 ∧ v.toNat >>> (8 * (n + 1)) &&& 0xff ≠ 0xff) ∨
        (v.toNat >>> (8 * (n + 1)) &&& 0xff) &&& 1 ≠ v.toNat >>> (8 * (n + 1) - 1) &&& 1) := by
  have hbyte : v.toNat >>> (8 * (n + 1)) &&& 0xff = v.toNat / 256 ^ (n + 1) % 256 := by
    rw [Nat.shiftRight_eq_div_pow, pow_eight]
    exact Nat.and_two_pow_sub_one_eq_mod _ 8
  have hbit : v.toNat >>> (8 * (n + 1) - 1) &&& 1 =
      if v.toNat % 256 ^ (n + 1) * 2 < 256 ^ (n + 1) then 0 else 1 := by
    rw [highest_bit, ← pow_eight, show 8 * (n + 1) - 1 + 1 = 8 * (n + 1) by omega]
  rw [hbyte, hbit, Nat.and_one_is_mod, ← signed_limb hn h, LittleEndian.within_pred]
  generalize v.toNat / 256 ^ (n + 1) % 256 = b
  split <;> omega

theorem significant_bounds (v : BitVec (8 * k)) {n : ℕ} (hn : 0 < n) :
    0 < significant v n ∧ significant v n ≤ n := by
  induction n with
  | zero => omega
  | succ n ih =>
    cases n with
    | zero => exact ⟨Nat.one_pos, Nat.le_refl _⟩
    | succ n =>
      rw [significant]
      split
      · omega
      · have := ih (Nat.succ_pos n)
        omega

/-- The bytes that are written are enough, and the fewest that are. -/
theorem significant_spec {v : BitVec (8 * k)} {n : ℕ} (hn : 0 < n) (hk : n ≤ k)
    (h : Within n v.toInt) : Within (significant v n) v.toInt ∧
      (1 < significant v n → ¬Within (significant v n - 1) v.toInt) := by
  induction n with
  | zero => omega
  | succ n ih =>
    cases n with
    | zero => exact ⟨h, fun hlt => absurd hlt (Nat.lt_irrefl 1)⟩
    | succ n =>
      have hred := redundant_iff hk h
      rw [significant]
      split
      case isTrue hneeded => exact ⟨h, fun _ hfits => hred.mp hfits hneeded⟩
      case isFalse hleft => exact ih (Nat.succ_pos n) (by omega) (hred.mpr hleft)

-- ---------------------------------------------------------------------------
-- What is written
-- ---------------------------------------------------------------------------

theorem limbBytes_cons (limb : BitVec (8 * k)) (limbs : List (BitVec (8 * k))) :
    limbBytes (limb :: limbs) = LittleEndian.bytes k limb.toNat ++ limbBytes limbs := rfl

theorem length_limbBytes (limbs : List (BitVec (8 * k))) :
    (limbBytes limbs).length = k * limbs.length :=
  length_flatMap_bytes ..

theorem length_bytes (p : JSBigInt k) : p.bytes.length = p.byteLength := by
  rw [JSBigInt.bytes, JSBigInt.byteLength]
  split
  · rfl
  · rw [List.length_append, length_limbBytes, LittleEndian.length_bytes]

/-- The limbs as far as they are whole, and the bytes of the rest. -/
theorem written_bytes (hk : 0 < k) (p : JSBigInt k) :
    limbBytes ((p.low ++ [p.top]).take (p.byteLength / k)) ++
      LittleEndian.bytes (p.byteLength % k) p.top.toNat = p.bytes := by
  obtain ⟨hpos, hle⟩ := significant_bounds p.top hk
  rw [JSBigInt.byteLength, JSBigInt.bytes]
  split
  · rw [Nat.zero_div, Nat.zero_mod]
    rfl
  · rcases Nat.lt_or_eq_of_le hle with hlt | hall
    · rw [Nat.mul_add_div hk, Nat.div_eq_of_lt hlt, Nat.mul_add_mod, Nat.mod_eq_of_lt hlt,
        Nat.add_zero, List.take_left]
    · have htake : (p.low ++ [p.top]).take (p.low.length + 1) = p.low ++ [p.top] :=
        List.take_of_length_le (by simp)
      rw [hall, Nat.mul_add_div hk, Nat.div_self hk, Nat.mul_add_mod, Nat.mod_self, htake,
        limbBytes, List.flatMap_append]
      simp [limbBytes, LittleEndian.bytes]

/-- The bytes are those of the integer. -/
theorem signed_append_limbs (limbs : List (BitVec (8 * k))) {bytes : Bytes} (hne : bytes ≠ []) :
    signed (limbBytes limbs ++ bytes) = limbsInt limbs (signed bytes) := by
  induction limbs with
  | nil => rfl
  | cons limb limbs ih =>
    have hrest : limbBytes limbs ++ bytes ≠ [] := by simp [hne]
    rw [limbBytes_cons, List.append_assoc, LittleEndian.signed_append hrest,
      LittleEndian.length_bytes, LittleEndian.value_bytes_of_lt (limb_toNat_lt limb),
      limbsInt, ← ih]

theorem signed_bytes_eq_toInt (hk : 0 < k) (p : JSBigInt k) : signed p.bytes = p.toInt := by
  rw [JSBigInt.bytes, JSBigInt.toInt]
  split
  case isTrue hzero =>
    rw [hzero.1, hzero.2]
    simp [signed, LittleEndian.value, limbsInt]
  case isFalse =>
    have hspec := significant_spec (v := p.top) hk (Nat.le_refl k) (limb_fits hk p.top)
    have hbounds := significant_bounds p.top hk
    have hne : LittleEndian.bytes (significant p.top k) p.top.toNat ≠ [] := by
      rw [← List.length_pos_iff, LittleEndian.length_bytes]
      exact hbounds.1
    rw [signed_append_limbs _ hne, signed_limb hbounds.2 hspec.1]

-- ---------------------------------------------------------------------------
-- What is read
-- ---------------------------------------------------------------------------

/-- `n` limbs of `k` bytes each. -/
def limbsOf (k : ℕ) : ℕ → Bytes → List (BitVec (8 * k))
  | 0, _ => []
  | n + 1, bytes =>
    BitVec.ofNat (8 * k) (LittleEndian.value (bytes.take k)) :: limbsOf k n (bytes.drop k)

/-- What `JS_ReadBigInt` makes of the bytes. -/
def JSBigInt.ofBytes (k : ℕ) (bytes : Bytes) : JSBigInt k :=
  let n := bytes.length / k
  let limbs := limbsOf k n bytes
  if bytes.length % k = 0 then ⟨limbs.dropLast, limbs.getLastD 0⟩
  else
    let v := BitVec.ofNat (8 * k) (LittleEndian.value (bytes.drop (k * n)))
    let shift := 8 * k - 8 * (bytes.length % k)
    ⟨limbs, (v <<< shift).sshiftRight shift⟩

/-- The number in an engine with limbs of `k'` bytes. -/
def JSBigInt.convert (k' : ℕ) (p : JSBigInt k) : JSBigInt k' := .ofBytes k' p.bytes

theorem carries_limbs {n : ℕ} {bytes : Bytes} (hlen : k * n ≤ bytes.length) :
    Carries T.format (Encoder.put (bytes.take (k * n))) ((bcGetLimb k).times n) []
      (limbsOf k n bytes) := by
  induction n generalizing bytes with
  | zero => exact .pure []
  | succ n ih =>
    rw [Nat.mul_succ] at hlen
    have htake : (bytes.take k).length = k := by rw [List.length_take]; omega
    have hfirst : Carries T.format (Encoder.put (bytes.take k)) (bcGetLimb k) []
        (BitVec.ofNat (8 * k) (LittleEndian.value (bytes.take k))) := (carries_buf htake).map _
    have hdrop : k * n ≤ (bytes.drop k).length := by rw [List.length_drop]; omega
    have hrest := ih hdrop
    rw [Nat.mul_succ, Nat.add_comm, List.take_add]
    exact .bind_put rfl hfirst (hrest.map _)

theorem carries_u8s (bytes : Bytes) :
    Carries T.format (Encoder.put bytes) (bcGetU8.times bytes.length) [] bytes := by
  induction bytes with
  | nil => exact .pure []
  | cons b bytes ih => exact .bind_put rfl (carries_u8 b) (ih.map (b :: ·))

theorem length_lt_of_fits {len : ℕ} (hk : 0 < k) (hfits : (len - 1) / k + 1 ≤ jsBigIntMaxSize k) :
    len < 2 ^ 32 := by
  have hmax : 8 * k * jsBigIntMaxSize k ≤ 1024 * 1024 := Nat.mul_div_le ..
  have hlen : len - 1 < k * ((len - 1) / k + 1) := Nat.lt_mul_div_succ _ hk
  have hle : k * ((len - 1) / k + 1) ≤ k * jsBigIntMaxSize k := Nat.mul_le_mul_left _ hfits
  rw [Nat.mul_assoc] at hmax
  omega

theorem ofBytes_nil : JSBigInt.ofBytes k [] = ⟨[], 0⟩ := by simp [JSBigInt.ofBytes, limbsOf]

/-- `JS_ReadBigInt` behind the tag. -/
theorem carries_bigInt_bytes {bytes : Bytes} (hk : 0 < k)
    (hfits : (bytes.length - 1) / k + 1 ≤ jsBigIntMaxSize k) :
    Carries T.format (do bcPutLeb128 (BitVec.ofNat 32 bytes.length); Encoder.put bytes)
      (jsReadBigInt k) [] (.ofBytes k bytes) := by
  have hlen : (BitVec.ofNat 32 bytes.length).toNat = bytes.length := by
    rw [BitVec.toNat_ofNat, Nat.mod_eq_of_lt (length_lt_of_fits hk hfits)]
  refine .bind (carries_leb128 _) (v := []) ?_
  dsimp only
  rw [hlen]
  split
  case isTrue hnil =>
    have hnil : bytes = [] := List.eq_nil_of_length_eq_zero hnil
    rw [hnil, ofBytes_nil]
    exact .pure _
  case isFalse hne =>
    have hsplit := Nat.div_add_mod bytes.length k
    have hlimbs := carries_limbs (T := T) (Nat.mul_div_le bytes.length k)
    rw [if_neg (Nat.not_lt.mpr hfits), JSBigInt.ofBytes]
    dsimp only
    split
    case isTrue hwhole =>
      have htake : bytes.take (k * (bytes.length / k)) = bytes :=
        List.take_of_length_le (by omega)
      rw [htake] at hlimbs
      exact hlimbs.map _
    case isFalse hpart =>
      have hdrop : (bytes.drop (k * (bytes.length / k))).length = bytes.length % k := by
        rw [List.length_drop]
        omega
      have hhigh := carries_u8s (T := T) (bytes.drop (k * (bytes.length / k)))
      rw [hdrop] at hhigh
      exact .bind_put (List.take_append_drop ..) hlimbs (hhigh.map _)

/-- `JS_WriteBigInt` behind the tag. -/
def writeBigInt (p : JSBigInt k) : BCWriter Unit := do
  bcPutLeb128 (BitVec.ofNat 32 p.bytes.length)
  Encoder.put p.bytes

theorem jsWriteBigInt_eq (hk : 0 < k) (p : JSBigInt k) :
    jsWriteBigInt p = (do bcPutTag .bigInt; writeBigInt p) := by
  rw [jsWriteBigInt, writeBigInt, length_bytes, ← written_bytes hk]
  rfl

theorem carries_bigInt (hk' : 0 < k') {p : JSBigInt k}
    (hfits : (p.byteLength - 1) / k' + 1 ≤ jsBigIntMaxSize k') :
    Carries T.format (writeBigInt p) (jsReadBigInt k') [] (p.convert k') := by
  rw [← length_bytes] at hfits
  exact carries_bigInt_bytes hk' hfits

-- ---------------------------------------------------------------------------
-- The integer is kept
-- ---------------------------------------------------------------------------

theorem length_limbsOf (n : ℕ) (bytes : Bytes) : (limbsOf k n bytes).length = n := by
  induction n generalizing bytes with
  | zero => rfl
  | succ n ih => rw [limbsOf, List.length_cons, ih]

theorem limbBytes_limbsOf {n : ℕ} {bytes : Bytes} (hlen : k * n ≤ bytes.length) :
    limbBytes (limbsOf k n bytes) = bytes.take (k * n) := by
  induction n generalizing bytes with
  | zero => rfl
  | succ n ih =>
    rw [Nat.mul_succ] at hlen
    have htake : (bytes.take k).length = k := by rw [List.length_take]; omega
    have hlimb : LittleEndian.bytes k
        (BitVec.ofNat (8 * k) (LittleEndian.value (bytes.take k))).toNat = bytes.take k := by
      have hlt := LittleEndian.value_lt (bytes.take k)
      have hback := LittleEndian.bytes_value (bytes.take k)
      rw [htake] at hlt hback
      rw [BitVec.toNat_ofNat, pow_eight, Nat.mod_eq_of_lt hlt, hback]
    rw [limbsOf, limbBytes_cons, hlimb, ih (by rw [List.length_drop]; omega), Nat.mul_succ,
      Nat.add_comm (k * n), List.take_add]

theorem limbsOf_limbBytes (limbs : List (BitVec (8 * k))) (rest : Bytes) :
    limbsOf k limbs.length (limbBytes limbs ++ rest) = limbs := by
  induction limbs with
  | nil => rfl
  | cons limb limbs ih =>
    have hlen : (LittleEndian.bytes k limb.toNat).length = k := LittleEndian.length_bytes ..
    rw [List.length_cons, limbsOf, limbBytes_cons, List.append_assoc, List.take_left' hlen,
      List.drop_left' hlen, ofNat_value_bytes, ih]

/-- The highest limb gets the sign of the bytes that are there. -/
theorem toInt_signExtended {high : Bytes} (hpos : 0 < high.length) (hlt : high.length < k) :
    ((BitVec.ofNat (8 * k) (LittleEndian.value high) <<< (8 * k - 8 * high.length)).sshiftRight
      (8 * k - 8 * high.length)).toInt = signed high := by
  obtain ⟨z, rfl⟩ := Nat.exists_eq_add_of_le (Nat.le_of_lt hlt)
  have hshift : 8 * (high.length + z) - 8 * high.length = 8 * z := by omega
  have hne : high ≠ [] := List.length_pos_iff.mp hpos
  have hvalue : LittleEndian.value (List.replicate z 0 ++ high) =
      LittleEndian.value high * 256 ^ z := by
    rw [LittleEndian.value_append, LittleEndian.value_zeros, List.length_replicate, Nat.zero_add,
      Nat.mul_comm]
  have hshifted : (BitVec.ofNat (8 * (high.length + z)) (LittleEndian.value high) <<<
      (8 * z)).toNat = LittleEndian.value (List.replicate z 0 ++ high) := by
    have hall := LittleEndian.value_lt (List.replicate z 0 ++ high)
    have hhigh := LittleEndian.value_lt high
    rw [List.length_append, List.length_replicate, Nat.add_comm] at hall
    have hpow : 256 ^ high.length ≤ 256 ^ (high.length + z) :=
      Nat.pow_le_pow_right (by decide) (Nat.le_add_right ..)
    rw [BitVec.toNat_shiftLeft, BitVec.toNat_ofNat, Nat.shiftLeft_eq, pow_eight, pow_eight,
      Nat.mod_eq_of_lt (Nat.lt_of_lt_of_le hhigh hpow), ← hvalue, Nat.mod_eq_of_lt hall]
  have hbytes := LittleEndian.bytes_value (List.replicate z 0 ++ high)
  rw [List.length_append, List.length_replicate, Nat.add_comm] at hbytes
  rw [hshift, BitVec.toInt_sshiftRight, limb_toInt, hshifted, hbytes,
    LittleEndian.signed_append hne, LittleEndian.value_zeros, List.length_replicate,
    Int.shiftRight_eq_div_pow, pow_eight]
  have hz : ((256 ^ z : ℕ) : ℤ) ≠ 0 := by exact_mod_cast Nat.ne_of_gt (Nat.pow_pos (by decide))
  rw [show ((0 : ℕ) : ℤ) = 0 from rfl, Int.zero_add]
  exact Int.mul_ediv_cancel_left _ hz

theorem toInt_ofBytes (hk : 0 < k) (bytes : Bytes) :
    (JSBigInt.ofBytes k bytes).toInt = signed bytes := by
  have hsplit := Nat.div_add_mod bytes.length k
  have hmod := Nat.mod_lt bytes.length hk
  have hlimbs := limbBytes_limbsOf (Nat.mul_div_le bytes.length k)
  rw [JSBigInt.ofBytes]
  dsimp only
  split
  case isTrue hwhole =>
    rw [List.take_of_length_le (by omega)] at hlimbs
    rcases List.eq_nil_or_concat (limbsOf k (bytes.length / k) bytes) with hnil | ⟨low, top, hall⟩
    · rw [hnil] at hlimbs
      rw [hnil, ← hlimbs]
      simp [JSBigInt.toInt, limbsInt, limbBytes, signed, LittleEndian.value]
    · have hne : LittleEndian.bytes k top.toNat ≠ [] := by
        rw [← List.length_pos_iff, LittleEndian.length_bytes]
        exact hk
      have hbytes : bytes = limbBytes low ++ LittleEndian.bytes k top.toNat := by
        rw [← hlimbs, hall]
        simp [limbBytes]
      rw [hall, hbytes, signed_append_limbs _ hne, ← limb_toInt]
      simp [JSBigInt.toInt]
  case isFalse hpart =>
    have hlen : (bytes.drop (k * (bytes.length / k))).length = bytes.length % k := by
      rw [List.length_drop]
      omega
    have hsome : 0 < (bytes.drop (k * (bytes.length / k))).length := by omega
    have hless : (bytes.drop (k * (bytes.length / k))).length < k := by omega
    have hhigh := toInt_signExtended hsome hless
    have hne : bytes.drop (k * (bytes.length / k)) ≠ [] := by
      rw [← List.length_pos_iff]
      omega
    rw [hlen] at hhigh
    rw [JSBigInt.toInt, hhigh, ← signed_append_limbs _ hne, hlimbs, List.take_append_drop]

theorem toInt_convert (hk : 0 < k) (hk' : 0 < k') (p : JSBigInt k) :
    (p.convert k').toInt = p.toInt := by
  rw [JSBigInt.convert, toInt_ofBytes hk', signed_bytes_eq_toInt hk]

/-- An engine of the same kind gets the same limbs, also where the number is not in normal form. -/
theorem convert_self (hk : 0 < k) (p : JSBigInt k) : p.convert k = p := by
  obtain ⟨low, top⟩ := p
  obtain ⟨hpos, hle⟩ := significant_bounds top hk
  have hfits := (significant_spec (v := top) hk (Nat.le_refl k) (limb_fits hk top)).1
  rw [JSBigInt.convert, JSBigInt.bytes]
  dsimp only
  split
  case isTrue hzero =>
    rw [ofBytes_nil, hzero.1, hzero.2]
  case isFalse =>
    have hlen : (limbBytes low ++ LittleEndian.bytes (significant top k) top.toNat).length =
        k * low.length + significant top k := by
      rw [List.length_append, length_limbBytes, LittleEndian.length_bytes]
    rw [JSBigInt.ofBytes]
    dsimp only
    rw [hlen]
    rcases Nat.lt_or_eq_of_le hle with hlt | hall
    · have hlow : (limbBytes low).length = k * low.length := length_limbBytes low
      have hlen' := LittleEndian.length_bytes (significant top k) top.toNat
      have hhigh := toInt_signExtended (hlen'.symm ▸ hpos) (hlen'.symm ▸ hlt)
      rw [hlen', signed_limb hle hfits] at hhigh
      rw [Nat.mul_add_div hk, Nat.div_eq_of_lt hlt, Nat.mul_add_mod, Nat.mod_eq_of_lt hlt,
        Nat.add_zero, if_neg (Nat.ne_of_gt hpos), limbsOf_limbBytes, List.drop_left' hlow,
        BitVec.eq_of_toInt_eq hhigh]
    · have hlimbs : limbBytes low ++ LittleEndian.bytes k top.toNat =
          limbBytes (low ++ [top]) ++ [] := by
        simp [limbBytes]
      have hcount : (low ++ [top]).length = low.length + 1 := by simp
      rw [hall, Nat.mul_add_div hk, Nat.div_self hk, Nat.mul_add_mod, Nat.mod_self, if_pos rfl,
        hlimbs, ← hcount, limbsOf_limbBytes, List.dropLast_concat]
      simp

-- ---------------------------------------------------------------------------
-- The normal form is kept
-- ---------------------------------------------------------------------------

theorem limbsInt_eq (limbs : List (BitVec (8 * k))) (x : ℤ) : limbsInt limbs x =
    LittleEndian.value (limbBytes limbs) + (256 ^ (k * limbs.length) : ℕ) * x := by
  induction limbs with
  | nil => simp [limbsInt, limbBytes, LittleEndian.value]
  | cons limb limbs ih =>
    rw [limbsInt, ih, limbBytes_cons, LittleEndian.value_append, LittleEndian.length_bytes,
      LittleEndian.value_bytes_of_lt (limb_toNat_lt limb), List.length_cons, Nat.mul_succ,
      Nat.add_comm (k * limbs.length), Nat.pow_add]
    push_cast
    rw [Int.mul_add, Int.mul_assoc, Int.add_assoc]

/-- How much room an integer needs, by its highest limbs alone. -/
theorem fits_limbsInt (limbs : List (BitVec (8 * k))) {n : ℕ} (hn : 0 < n) (x : ℤ) :
    Within (k * limbs.length + n) (limbsInt limbs x) ↔ Within n x := by
  have hlt := LittleEndian.value_lt (limbBytes limbs)
  rw [length_limbBytes] at hlt
  rw [limbsInt_eq]
  exact LittleEndian.within_add hlt hn

theorem limb_sign (hk : 0 < k) (limb : BitVec (8 * k)) :
    limb >>> (8 * k - 1) = if limb.toNat * 2 < 256 ^ k then 0 else 1 := by
  have hlt := limb_toNat_lt limb
  have hbit := highest_bit (s := 8 * k - 1) limb.toNat
  have hpow : 2 ^ (8 * k - 1 + 1) = 256 ^ k := by rw [← pow_eight, Nat.sub_add_cancel (by omega)]
  have hsmall : limb.toNat >>> (8 * k - 1) < 2 := by
    rw [Nat.shiftRight_eq_div_pow, Nat.div_lt_iff_lt_mul (Nat.two_pow_pos _), ← Nat.pow_succ', hpow]
    exact hlt
  rw [Nat.and_one_is_mod, Nat.mod_eq_of_lt hsmall, hpow, Nat.mod_eq_of_lt hlt] at hbit
  apply BitVec.eq_of_toNat_eq
  rw [BitVec.toNat_ushiftRight, hbit]
  split
  · rfl
  · exact (BitVec.toNat_one (by omega)).symm

/-- The highest limb says nothing that the sign of the next one does not. -/
theorem fits_one_limb (hk : 0 < k) (limb top : BitVec (8 * k)) :
    Within k (limb.toNat + (256 ^ k : ℕ) * top.toInt) ↔
      ¬((top ≠ 0 ∧ top ≠ -1) ∨ top &&& 1 ≠ limb >>> (8 * k - 1)) := by
  have hlt := limb_toNat_lt limb
  have hallOnes : (-1 : BitVec (8 * k)) = BitVec.allOnes (8 * k) := BitVec.neg_one_eq_allOnes
  have hneg : (-1 : BitVec (8 * k)).toInt = -1 := by
    rw [hallOnes, BitVec.toInt_allOnes, if_pos (by omega)]
  have hand : (0 : BitVec (8 * k)) &&& 1 = 0 := by simp
  have hand' : (-1 : BitVec (8 * k)) &&& 1 = 1 := by rw [hallOnes, BitVec.allOnes_and]
  rw [limb_sign hk, Within]
  generalize 256 ^ k = B at hlt
  by_cases hzero : top = 0
  · rw [hzero, hand, show (0 : BitVec (8 * k)).toInt = 0 from BitVec.toInt_zero]
    split
    · simp
      omega
    · simp
      omega
  · by_cases hones : top = -1
    · rw [hones, hneg, hand']
      split
      · simp
        omega
      · simp
        omega
    · have hne : top.toInt ≠ 0 := fun h =>
        hzero (BitVec.eq_of_toInt_eq (h.trans BitVec.toInt_zero.symm))
      have hne' : top.toInt ≠ -1 := fun h => hones (BitVec.eq_of_toInt_eq (h.trans hneg.symm))
      refine iff_of_false (fun hfits => ?_) fun h => h (.inl ⟨hzero, hones⟩)
      rcases Int.lt_or_gt_of_ne hne with hlow | hhigh
      · have hstep : (B : ℤ) * top.toInt ≤ B * -2 :=
          Int.mul_le_mul_of_nonneg_left (by omega) (by omega)
        omega
      · have hstep : (B : ℤ) * 1 ≤ B * top.toInt :=
          Int.mul_le_mul_of_nonneg_left (by omega) (by omega)
        omega

/-- The normal form is the one of the fewest limbs. -/
theorem normal_iff (hk : 0 < k) (p : JSBigInt k) :
    p.Normal ↔ (p.low ≠ [] → ¬Within (k * p.low.length) p.toInt) := by
  obtain ⟨low, top⟩ := p
  rcases List.eq_nil_or_concat low with rfl | ⟨init, limb, rfl⟩
  · simp [JSBigInt.Normal]
  · have hint : JSBigInt.toInt ⟨init ++ [limb], top⟩ =
        limbsInt init (limb.toNat + (256 ^ k : ℕ) * top.toInt) := by
      induction init with
      | nil => rfl
      | cons l init ih => exact congrArg (fun x => (l.toNat : ℤ) + (256 ^ k : ℕ) * x) ih
    have hlen : k * (init ++ [limb]).length = k * init.length + k := by
      rw [List.length_append, List.length_singleton, Nat.mul_succ]
    rw [List.concat_eq_append, hint]
    dsimp only
    rw [hlen, fits_limbsInt init hk, fits_one_limb hk, JSBigInt.Normal]
    simp only [List.getLast?_concat, Option.mem_some_iff, forall_eq', not_not]
    simp

/-- What is written of a number in normal form has no byte too many. -/
theorem bytes_fewest (hk : 0 < k) {p : JSBigInt k} (h : p.Normal) (hlen : 1 < p.bytes.length) :
    ¬Within (p.bytes.length - 1) p.toInt := by
  obtain ⟨low, top⟩ := p
  have hnormal := (normal_iff hk _).mp h
  obtain ⟨hpos, hle⟩ := significant_bounds top hk
  have hfewest := (significant_spec (v := top) hk (Nat.le_refl k) (limb_fits hk top)).2
  dsimp only at hnormal
  rw [length_bytes, JSBigInt.byteLength] at hlen ⊢
  dsimp only at hlen ⊢
  split at hlen
  case isTrue => omega
  case isFalse hne =>
    rw [if_neg hne]
    rcases Nat.lt_or_eq_of_le (Nat.succ_le_of_lt hpos) with hmore | hone
    · rw [Nat.add_sub_assoc (Nat.le_of_lt hmore), JSBigInt.toInt,
        fits_limbsInt low (Nat.sub_pos_of_lt hmore)]
      exact hfewest hmore
    · rw [← hone, Nat.add_sub_cancel]
      refine hnormal fun hnil => ?_
      rw [hnil, ← hone] at hlen
      simp at hlen

theorem normal_ofBytes (hk : 0 < k) {bytes : Bytes}
    (h : 1 < bytes.length → ¬Within (bytes.length - 1) (signed bytes)) :
    (JSBigInt.ofBytes k bytes).Normal := by
  have hsplit := Nat.div_add_mod bytes.length k
  rw [normal_iff hk, toInt_ofBytes hk]
  intro hne hfits
  have hlow : k * (JSBigInt.ofBytes k bytes).low.length ≤ bytes.length - 1 := by
    rw [JSBigInt.ofBytes]
    dsimp only
    split
    case isTrue hwhole =>
      rw [List.length_dropLast, length_limbsOf, Nat.mul_sub, Nat.mul_one]
      omega
    case isFalse hpart =>
      dsimp only
      rw [length_limbsOf]
      omega
  have hpos : k * 1 ≤ k * (JSBigInt.ofBytes k bytes).low.length :=
    Nat.mul_le_mul_left _ (List.length_pos_iff.mpr hne)
  exact h (by omega) (hfits.mono hlow)

theorem normal_convert (hk : 0 < k) (hk' : 0 < k') {p : JSBigInt k} (h : p.Normal) :
    (p.convert k').Normal :=
  normal_ofBytes hk' fun hlen => by
    rw [signed_bytes_eq_toInt hk]
    exact bytes_fewest hk h hlen

theorem fits_toInt (hk : 0 < k) (p : JSBigInt k) : Within (k * p.low.length + k) p.toInt := by
  rw [JSBigInt.toInt, fits_limbsInt _ hk]
  exact limb_fits hk p.top

theorem limbsInt_injective {limbs limbs' : List (BitVec (8 * k))} {x x' : ℤ}
    (hlen : limbs.length = limbs'.length) (h : limbsInt limbs x = limbsInt limbs' x') :
    limbs = limbs' ∧ x = x' := by
  induction limbs generalizing limbs' with
  | nil =>
    cases limbs' with
    | nil => exact ⟨rfl, h⟩
    | cons => cases hlen
  | cons limb limbs ih =>
    cases limbs' with
    | nil => cases hlen
    | cons limb' limbs' =>
      have hlt := limb_toNat_lt limb
      have hlt' := limb_toNat_lt limb'
      have hB : ((256 ^ k : ℕ) : ℤ) ≠ 0 := by
        exact_mod_cast Nat.ne_of_gt (Nat.pow_pos (by decide))
      rw [limbsInt, limbsInt] at h
      have hmod := congrArg (· % ((256 ^ k : ℕ) : ℤ)) h
      simp only [Int.add_mul_emod_self_left] at hmod
      rw [Int.emod_eq_of_lt (by omega) (by omega), Int.emod_eq_of_lt (by omega) (by omega)] at hmod
      rw [hmod, Int.add_right_inj] at h
      obtain ⟨rfl, rfl⟩ := ih (Nat.succ.inj hlen) (Int.eq_of_mul_eq_mul_left hB h)
      rw [BitVec.eq_of_toNat_eq (Int.ofNat.inj hmod)]
      exact ⟨rfl, rfl⟩

/-- Each integer has one normal form. -/
theorem normal_unique (hk : 0 < k) {p q : JSBigInt k} (hp : p.Normal) (hq : q.Normal)
    (h : p.toInt = q.toInt) : p = q := by
  have hle {p q : JSBigInt k} (hq : q.Normal) (h : p.toInt = q.toInt) :
      q.low.length ≤ p.low.length := by
    by_contra hlt
    have hroom : k * p.low.length + k ≤ k * q.low.length := by
      rw [← Nat.mul_succ]
      exact Nat.mul_le_mul_left _ (by omega)
    have hne : q.low ≠ [] := fun hnil => hlt (by simp [hnil])
    exact (normal_iff hk q).mp hq hne (h ▸ (fits_toInt hk p).mono hroom)
  obtain ⟨hlow, htop⟩ := limbsInt_injective (Nat.le_antisymm (hle hp h.symm) (hle hq h)) h
  obtain ⟨low, top⟩ := p
  obtain ⟨low', top'⟩ := q
  rw [show low = low' from hlow, show top = top' from BitVec.eq_of_toInt_eq htop]

theorem bytes_eq_nil_iff (hk : 0 < k) {p : JSBigInt k} (h : p.Normal) :
    p.bytes = [] ↔ p.toInt = 0 := by
  constructor
  · intro hnil
    rw [← signed_bytes_eq_toInt hk, hnil]
    rfl
  · intro hzero
    have hnormal : JSBigInt.Normal (⟨[], 0⟩ : JSBigInt k) := by simp [JSBigInt.Normal]
    rw [normal_unique hk h hnormal (hzero.trans (by simp [JSBigInt.toInt, limbsInt]))]
    simp [JSBigInt.bytes]

theorem length_bytes_le (hk : 0 < k) (hk' : 0 < k') {p : JSBigInt k} {q : JSBigInt k'}
    (hne : p.bytes ≠ []) (hq : q.Normal) (h : p.toInt = q.toInt) :
    q.bytes.length ≤ p.bytes.length := by
  have hpos := List.length_pos_iff.mpr hne
  have hwithin := LittleEndian.within_signed hne
  rw [signed_bytes_eq_toInt hk, h] at hwithin
  by_contra hlt
  exact bytes_fewest hk' hq (by omega) (hwithin.mono (by omega))

/-- The bytes of an integer do not depend on the limbs. -/
theorem bytes_unique (hk : 0 < k) (hk' : 0 < k') {p : JSBigInt k} {q : JSBigInt k'}
    (hp : p.Normal) (hq : q.Normal) (h : p.toInt = q.toInt) : p.bytes = q.bytes := by
  by_cases hzero : p.toInt = 0
  · rw [(bytes_eq_nil_iff hk hp).mpr hzero, (bytes_eq_nil_iff hk' hq).mpr (h ▸ hzero)]
  · have hpne : p.bytes ≠ [] := fun hnil => hzero ((bytes_eq_nil_iff hk hp).mp hnil)
    have hqne : q.bytes ≠ [] := fun hnil => hzero (h.trans ((bytes_eq_nil_iff hk' hq).mp hnil))
    refine LittleEndian.signed_injective ?_ ?_
    · exact Nat.le_antisymm (length_bytes_le hk' hk hqne hp h.symm) (length_bytes_le hk hk' hpne hq h)
    · rw [signed_bytes_eq_toInt hk, signed_bytes_eq_toInt hk', h]

theorem bytes_convert (hk : 0 < k) (hk' : 0 < k') {p : JSBigInt k} (h : p.Normal) :
    (p.convert k').bytes = p.bytes :=
  bytes_unique hk' hk (normal_convert hk hk' h) h (toInt_convert hk hk' p)

end QuickJsKmp.ObjectFormat
