import QuickJsKmp.Bytecode
import QuickJsKmp.KmpBuf
import Mathlib.Data.List.TakeWhile

/-!
# The bytecode header in memory

`check_bytecode_header` on the memory behind its pointer, with the widths of the
lengths, and the buffer that `kmpjs_compile` allocates and fills. The two agree
as long as header and body fit into an `int32_t`.
-/

namespace QuickJsKmp.Header

/-- A read of `size` bytes at `offset`, and `none` outside the memory. -/
def readMem (mem : Bytes) (offset size : ℕ) : Option Bytes :=
  if offset + size ≤ mem.length then some (QuickJsKmp.field mem offset size) else none

structure KmpBcHeader where
  magic : Bytes
  headerLen : BitVec 32
  kind : BitVec 32
  upstream : Bytes
  deriving DecidableEq, Repr

/-- The bytes of a `uint32_t` on a little-endian target. -/
def storeLe32 (x : BitVec 32) : Bytes :=
  [x.toNat.toUInt8, (x.toNat / 256).toUInt8, (x.toNat / 65536).toUInt8,
    (x.toNat / 16777216).toUInt8]

/-- The bytes of the struct, which has no padding. -/
def KmpBcHeader.bytes (h : KmpBcHeader) : Bytes :=
  h.magic ++ storeLe32 h.headerLen ++ storeLe32 h.kind ++ h.upstream

/-- `memcpy(&hdr, buf, sizeof(hdr))`. -/
def KmpBcHeader.load (b : Bytes) : KmpBcHeader where
  magic := field b 0 4
  headerLen := .ofNat 32 (le32 (field b 4 4))
  kind := .ofNat 32 (le32 (field b 8 4))
  upstream := field b 12 40

/-- A `kmpjs_value` that `fail_message` has filled; what it does not name is zero. -/
structure Failed where
  tag : ℕ
  str : Allocation
  strLen : BitVec 32
  deriving DecidableEq, Repr

def tagException : ℕ := 6

/-- `strlen` of the text, and `fail_message` on the engine's `out_str`. -/
def failMessage (w : ℕ) (outStr : KmpBuf) (granted : Bool) (msg : Bytes) :
    Option (KmpBuf × Failed) :=
  match outStr.reset.append w (msg.takeWhile (· ≠ 0)) granted with
  | .done b => some (b, ⟨tagException, b.publish.1, b.publish.2⟩)
  | .refused b => some (b, ⟨tagException, b.publish.1, b.publish.2⟩)
  | .outside => none
  | .forever => none

/-- What the pointers of the caller designate. `body` is an offset from `buf`. -/
structure Outs (w : ℕ) where
  kind : BitVec 32
  body : Option ℕ
  bodyLen : BitVec w
  out : Failed
  deriving DecidableEq, Repr

/-- A call that returns. -/
structure Returned (w : ℕ) where
  code : ℤ
  outs : Outs w
  outStr : KmpBuf
  deriving DecidableEq, Repr

section
variable (w : ℕ) (outStr : KmpBuf) (granted : Bool)

def fail (outs : Outs w) (msg : Bytes) : Option (Returned w) := do
  let (outStr, out) ← failMessage w outStr granted msg
  return ⟨-1, { outs with out }, outStr⟩

/-- `msg` of the last check; `snprintf` keeps what fits into its 160 bytes. -/
def engineMessage (upstream : Bytes) : Bytes := (Failure.otherEngine upstream).text.take 159

/-- `check_bytecode_header`; `granted` says whether `fail_message` gets its memory. -/
def checkBytecodeHeader (mem : Bytes) (len : BitVec 32) (outs : Outs w) : Option (Returned w) :=
  if len.toInt < headerSize then fail w outStr granted outs Failure.notBytecode.text
  else do
    let magic ← readMem mem 0 4
    if magic ≠ ascii "QJKB" then fail w outStr granted outs Failure.notBytecode.text
    else
      let hdr := KmpBcHeader.load (← readMem mem 0 headerSize)
      if hdr.headerLen ≠ .ofNat 32 headerSize ∨ 1 < hdr.kind then
        fail w outStr granted outs Failure.unsupportedHeader.text
      else if hdr.upstream ≠ upstreamCommit then
        fail w outStr granted outs (engineMessage hdr.upstream)
      else
        some ⟨0, { outs with
          kind := hdr.kind
          body := some headerSize
          bodyLen := toSize w len - .ofNat w headerSize }, outStr⟩

end

-- ---------------------------------------------------------------------------
-- The other side
-- ---------------------------------------------------------------------------

/-- `flags & KMPJS_COMPILE_MODULE`. -/
def compileKind (flags : BitVec 32) : BytecodeKind := if flags &&& 1 ≠ 0 then .module else .script

def kindNumber : BytecodeKind → BitVec 32
  | .script => 0
  | .module => 1

def compileHeader (kind : BytecodeKind) : KmpBcHeader where
  magic := ascii "QJKB"
  headerLen := .ofNat 32 headerSize
  kind := kindNumber kind
  upstream := upstreamCommit

/-- The size that `kmpjs_alloc` asks for. -/
def allocSize (len : BitVec 32) : ℕ := if 0 < len.toInt then len.toNat else 1

/-- The end of `kmpjs_compile`: `result` and `out->str_len` for the output of `JS_WriteObject`, and
`none` when a copy leaves the block. -/
def frame (w : ℕ) (flags : BitVec 32) (data : Bytes) : Option (Allocation × BitVec 32) := do
  let total := BitVec.ofNat w headerSize + BitVec.ofNat w data.length
  let result : Allocation := List.replicate (allocSize (total.setWidth 32)) none
  let result ← memcpy result 0 (compileHeader (compileKind flags)).bytes
  let result ← memcpy result headerSize data
  return (result, total.setWidth 32)

-- ---------------------------------------------------------------------------
-- The layout
-- ---------------------------------------------------------------------------

theorem le32_cons (x : UInt8) (b : Bytes) : le32 (x :: b) = x.toNat + 256 * le32 b := rfl

theorem le32_lt (b : Bytes) : le32 b < 256 ^ b.length := by
  induction b with
  | nil => decide
  | cons x b ih =>
    have hx := x.toNat_lt
    rw [List.length_cons, pow_succ, le32_cons]
    omega

theorem le32_inj : ∀ {b c : Bytes}, b.length = c.length → le32 b = le32 c → b = c
  | [], [], _, _ => rfl
  | x :: b, y :: c, hlength, h => by
    have hx := x.toNat_lt
    have hy := y.toNat_lt
    rw [le32_cons, le32_cons] at h
    have hhead : x.toNat = y.toNat := by omega
    have htail := le32_inj (Nat.succ.inj hlength) (show le32 b = le32 c by omega)
    rw [UInt8.toNat_inj.mp hhead, htail]

theorem length_field (h : offset + size ≤ b.length) : (field b offset size).length = size := by
  simp only [field, List.length_take, List.length_drop]
  omega

theorem length_bytecodeHeader (kind : BytecodeKind) : (bytecodeHeader kind).length = headerSize := by
  cases kind <;> rfl

/-- A buffer is its fields and what is behind them. -/
theorem fields_append (b : Bytes) :
    b = field b 0 4 ++ (field b 4 4 ++ (field b 8 4 ++ (field b 12 40 ++ b.drop headerSize))) := by
  have hcut (i j : ℕ) : field b i j ++ b.drop (i + j) = b.drop i := by
    rw [field, ← List.drop_drop, List.take_append_drop]
  rw [headerSize, hcut 12 40, hcut 8 4, hcut 4 4, hcut 0 4, List.drop_zero]

theorem header_fields (kind : BytecodeKind) (body : Bytes) :
    field (bytecodeHeader kind ++ body) 0 4 = ascii "QJKB" ∧
      field (bytecodeHeader kind ++ body) 4 4 = [52, 0, 0, 0] ∧
      field (bytecodeHeader kind ++ body) 8 4 = kind.field ∧
      field (bytecodeHeader kind ++ body) 12 40 = upstreamCommit ∧
      (bytecodeHeader kind ++ body).drop headerSize = body := by
  have hinside (i j : ℕ) (h : i + j ≤ headerSize) :
      field (bytecodeHeader kind ++ body) i j = field (bytecodeHeader kind) i j := by
    have hlength := length_bytecodeHeader kind
    rw [field, field, List.drop_append_of_le_length (by omega),
      List.take_append_of_le_length (by rw [List.length_drop]; omega)]
  refine ⟨?_, ?_, ?_, ?_, List.drop_left' (length_bytecodeHeader kind)⟩
  all_goals
    rw [hinside _ _ (by decide)]
    cases kind <;> rfl

/-- Exactly the framed buffers pass. -/
theorem checkBytecodeHeader_iff :
    QuickJsKmp.checkBytecodeHeader buf = .ok (kind, body) ↔ buf = bytecodeHeader kind ++ body := by
  constructor
  · intro h
    unfold QuickJsKmp.checkBytecodeHeader at h
    split at h
    · cases h
    rename_i hmagic
    split at h
    · cases h
    rename_i hfields
    split at h
    · cases h
    rename_i hupstream
    simp only [Except.ok.injEq, Prod.mk.injEq] at h
    obtain ⟨hkind, rfl⟩ := h
    push Not at hmagic hfields hupstream
    have hlength : headerSize ≤ buf.length := hmagic.1
    have hsize : field buf 4 4 = [52, 0, 0, 0] :=
      le32_inj (length_field (by simp only [headerSize] at hlength; omega)) hfields.1
    have hnumber : field buf 8 4 = kind.field := by
      refine le32_inj ((length_field (by simp only [headerSize] at hlength; omega)).trans ?_) ?_
      · cases kind <;> rfl
      · have hle := hfields.2
        subst hkind
        split
        · assumption
        · exact (show le32 (field buf 8 4) = 0 by omega)
    conv_lhs => rw [fields_append buf, hmagic.2, hsize, hnumber, hupstream]
    simp only [bytecodeHeader, List.append_assoc]
  · rintro rfl
    obtain ⟨hmagic, hsize, hnumber, hupstream, hbody⟩ := header_fields kind body
    have hlength : ¬ (bytecodeHeader kind ++ body).length < headerSize := by
      simp [length_bytecodeHeader]
    have hle : ¬ le32 kind.field > 1 := by cases kind <;> decide
    have hkind : (if le32 kind.field = 1 then BytecodeKind.module else .script) = kind := by
      cases kind <;> rfl
    unfold QuickJsKmp.checkBytecodeHeader
    rw [hmagic, hsize, hnumber, hupstream, hbody, hkind]
    rw [if_neg (not_or.mpr ⟨hlength, not_not_intro rfl⟩),
      if_neg (not_or.mpr ⟨not_not_intro (by decide), hle⟩), if_neg (not_not_intro rfl)]

-- ---------------------------------------------------------------------------
-- The checks in memory
-- ---------------------------------------------------------------------------

theorem field_take (h : offset + size ≤ n) : field (b.take n) offset size = field b offset size := by
  rw [field, field, List.drop_take, List.take_take, Nat.min_eq_left (by omega)]

theorem length_shown_le (n : ℕ) (b : Bytes) : (shown n b).length ≤ n :=
  (List.takeWhile_sublist _).length_le.trans (by simp [List.length_take])

theorem engineMessage_eq (upstream : Bytes) :
    engineMessage upstream = (Failure.otherEngine upstream).text := by
  have hshown := length_shown_le 12 upstream
  have hown := length_shown_le 12 upstreamCommit
  refine List.take_of_length_le ?_
  simp only [Failure.text, quoted, List.length_append]
  have hbefore : (ascii "bytecode built for engine ").length = 26 := rfl
  have hafter : (ascii ", this SDK embeds engine ").length = 25 := rfl
  omega

variable {w : ℕ} {outStr : KmpBuf} {granted : Bool} {mem : Bytes} {len : BitVec 32} {outs : Outs w}

/-- The buffer that pointer and length designate; a negative length designates no byte. -/
def designated (mem : Bytes) (len : BitVec 32) : Bytes := mem.take len.toInt.toNat

theorem headerLen_ne_iff (hlength : headerSize ≤ b.length) :
    (KmpBcHeader.load b).headerLen ≠ .ofNat 32 headerSize ↔ le32 (field b 4 4) ≠ headerSize := by
  simp only [headerSize] at hlength ⊢
  have hle := le32_lt (field b 4 4)
  rw [length_field (by omega)] at hle
  rw [KmpBcHeader.load, ne_eq, ← BitVec.toNat_inj, BitVec.toNat_ofNat, BitVec.toNat_ofNat]
  omega

theorem kind_toNat (hlength : headerSize ≤ b.length) :
    (KmpBcHeader.load b).kind.toNat = le32 (field b 8 4) := by
  simp only [headerSize] at hlength
  have hle := le32_lt (field b 8 4)
  rw [length_field (by omega)] at hle
  exact (BitVec.toNat_ofNat ..).trans (Nat.mod_eq_of_lt hle)

theorem kind_eq (hlength : headerSize ≤ b.length) (hle : ¬ 1 < (KmpBcHeader.load b).kind) :
    (KmpBcHeader.load b).kind =
      kindNumber (if le32 (field b 8 4) = 1 then .module else .script) := by
  have hnat := kind_toNat hlength
  rw [BitVec.lt_def, hnat] at hle
  apply BitVec.eq_of_toNat_eq
  rw [hnat]
  split
  · assumption
  · rename_i hne
    have hone : (1 : BitVec 32).toNat = 1 := rfl
    exact (show le32 (field b 8 4) = 0 by omega)

/-- On memory that reaches as far as its length says, the checks are those on the buffer, and no
read is outside. -/
theorem check_refines (hlen : len.toInt ≤ mem.length) :
    checkBytecodeHeader w outStr granted mem len outs =
      match QuickJsKmp.checkBytecodeHeader (designated mem len) with
      | .ok (kind, _) => some ⟨0, { outs with
          kind := kindNumber kind
          body := some headerSize
          bodyLen := toSize w len - .ofNat w headerSize }, outStr⟩
      | .error f => fail w outStr granted outs f.text := by
  have hlength : (designated mem len).length = len.toInt.toNat := by
    rw [designated, List.length_take]
    omega
  unfold checkBytecodeHeader QuickJsKmp.checkBytecodeHeader
  by_cases hshort : len.toInt < headerSize
  · rw [if_pos hshort, if_pos (.inl (by rw [hlength]; simp only [headerSize] at hshort ⊢; omega))]
  have hlong : headerSize ≤ (designated mem len).length := by
    rw [hlength]
    simp only [headerSize] at hshort ⊢
    omega
  have hmem : headerSize ≤ mem.length := hlong.trans (List.length_take_le' ..)
  have hmagic : field mem 0 4 = field (designated mem len) 0 4 :=
    (field_take (by simp only [headerSize] at hlong; omega)).symm
  have hload : KmpBcHeader.load (field mem 0 headerSize) = KmpBcHeader.load (designated mem len) := by
    have hboth (i j : ℕ) (h : i + j ≤ headerSize) :
        field (field mem 0 headerSize) i j = field (designated mem len) i j :=
      (field_take h).trans (field_take (h.trans (hlength ▸ hlong))).symm
    simp only [KmpBcHeader.load, hboth 0 4 (by decide), hboth 4 4 (by decide),
      hboth 8 4 (by decide), hboth 12 40 (by decide)]
  rw [if_neg hshort, readMem, if_pos (by simp only [headerSize] at hmem; omega), hmagic]
  simp only [Option.bind_eq_bind, Option.bind_some]
  generalize designated mem len = buf at hlong hload
  by_cases hm : field buf 0 4 = ascii "QJKB"
  · have hfirst : ¬ (buf.length < headerSize ∨ field buf 0 4 ≠ ascii "QJKB") :=
      not_or.mpr ⟨Nat.not_lt.mpr hlong, not_not_intro hm⟩
    rw [if_neg hfirst, if_neg (not_not_intro hm), readMem, if_pos (by omega), Option.bind_some, hload]
    by_cases hf : le32 (field buf 4 4) ≠ headerSize ∨ le32 (field buf 8 4) > 1
    · have hf' : (KmpBcHeader.load buf).headerLen ≠ .ofNat 32 headerSize ∨
          1 < (KmpBcHeader.load buf).kind :=
        hf.imp (headerLen_ne_iff hlong).mpr fun h => BitVec.lt_def.mpr (kind_toNat hlong ▸ h)
      rw [if_pos hf, if_pos hf']
    · obtain ⟨hsize, hkind⟩ := not_or.mp hf
      have hkind' : ¬ 1 < (KmpBcHeader.load buf).kind := fun h =>
        hkind (kind_toNat hlong ▸ BitVec.lt_def.mp h)
      rw [if_neg hf, if_neg (not_or.mpr ⟨fun h => hsize ((headerLen_ne_iff hlong).mp h), hkind'⟩)]
      have hupstream : (KmpBcHeader.load buf).upstream = field buf 12 40 := rfl
      rw [hupstream]
      by_cases hu : field buf 12 40 = upstreamCommit
      · rw [if_neg (not_not_intro hu), if_neg (not_not_intro hu), kind_eq hlong hkind']
      · rw [if_pos hu, if_pos hu, engineMessage_eq]
  · have hfirst : buf.length < headerSize ∨ field buf 0 4 ≠ ascii "QJKB" := .inr hm
    rw [if_pos hfirst, if_pos hm]

-- ---------------------------------------------------------------------------
-- The failures
-- ---------------------------------------------------------------------------

/-- A buffer that the runs of the engine can leave. -/
structure Reachable where
  filled : Filled
  held : filled.Held

/-- `out` is an exception with this message, or without one where there was no memory for it. -/
def Failed.Says (out : Failed) (msg : Bytes) : Prop :=
  out.tag = tagException ∧
    (out.str.take out.strLen.toNat = msg.map some ∨ out.strLen = 0)

theorem failMessage_spec (granted : Bool) (hw : 32 ≤ w) (e : Reachable) (hmsg : msg.length < 2 ^ 31)
    (hnul : 0 ∉ msg) :
    ∃ b out, failMessage w e.filled.buf granted msg = some (b, out) ∧ out.Says msg := by
  have hreset : Filled.Held ⟨e.filled.buf.reset, []⟩ :=
    ⟨⟨rfl, e.held.cap, Nat.zero_le _, Nat.pow_pos (by decide), rfl⟩, e.held.size⟩
  have hstrlen : msg.takeWhile (· ≠ 0) = msg :=
    List.takeWhile_eq_self_iff.mpr fun x hx => decide_eq_true fun hzero => hnul (hzero ▸ hx)
  unfold failMessage
  rw [hstrlen]
  rcases append_held hw hreset (by simpa using hmsg) granted with ⟨b, hdone, hheld⟩ | hrefused
  · simp only [hdone]
    exact ⟨_, _, rfl, rfl, .inl (publish_contents hheld.toSized)⟩
  · simp only [hrefused]
    exact ⟨_, _, rfl, rfl, .inr rfl⟩

theorem zero_not_mem_shown (n : ℕ) (b : Bytes) : 0 ∉ shown n b := fun h => by
  have := List.mem_takeWhile_imp h
  simp at this

theorem text_plain (h : QuickJsKmp.checkBytecodeHeader buf = .error f) :
    f.text.length < 160 ∧ 0 ∉ f.text := by
  unfold QuickJsKmp.checkBytecodeHeader at h
  split at h
  · cases h
    exact ⟨by decide, by decide⟩
  split at h
  · cases h
    exact ⟨by decide, by decide⟩
  split at h
  · cases h
    have hshown := length_shown_le 12 (field buf 12 40)
    have hbefore : (ascii "bytecode built for engine ").length = 26 := rfl
    have hafter : (ascii ", this SDK embeds engine ").length = 25 := rfl
    have hown : (shown 12 upstreamCommit).length ≤ 12 := length_shown_le 12 _
    simp only [Failure.text, quoted, List.length_append, List.mem_append, not_or]
    exact ⟨by omega, ⟨⟨⟨by decide, zero_not_mem_shown 12 _⟩, by decide⟩, zero_not_mem_shown 12 _⟩⟩
  · cases h

/-- A call that succeeds hands out kind and body. -/
structure Decoded (r : Returned w) (outs : Outs w) (mem : Bytes) (kind : BytecodeKind)
    (body : Bytes) : Prop where
  code : r.code = 0
  kind : r.outs.kind = kindNumber kind
  body : ∃ offset, r.outs.body = some offset ∧ readMem mem offset r.outs.bodyLen.toNat = some body
  out : r.outs.out = outs.out

/-- A call that fails leaves what it does not fill. -/
structure Rejected (r : Returned w) (outs : Outs w) (msg : Bytes) : Prop where
  code : r.code = -1
  kind : r.outs.kind = outs.kind
  body : r.outs.body = outs.body
  bodyLen : r.outs.bodyLen = outs.bodyLen
  out : r.outs.out.Says msg

theorem fail_spec (granted : Bool) (hw : 32 ≤ w) (e : Reachable) (outs : Outs w)
    (h : QuickJsKmp.checkBytecodeHeader buf = .error f) :
    ∃ r, fail w e.filled.buf granted outs f.text = some r ∧ Rejected r outs f.text := by
  obtain ⟨hlength, hnul⟩ := text_plain h
  obtain ⟨b, out, hmessage, hsays⟩ := failMessage_spec granted hw e
    (lt_of_lt_of_le hlength (by decide)) hnul
  unfold fail
  simp only [hmessage]
  exact ⟨_, rfl, rfl, rfl, rfl, rfl, hsays⟩

/-- The checks on every buffer: no read is outside, and exactly the framed buffers pass. -/
structure Checks (w : ℕ) (e : Reachable) (granted : Bool) (mem : Bytes) (len : BitVec 32)
    (outs : Outs w) : Prop where
  returns : ∃ r, checkBytecodeHeader w e.filled.buf granted mem len outs = some r ∧
    (r.code = 0 ↔ ∃ kind body, designated mem len = bytecodeHeader kind ++ body) ∧
    (∀ kind body, designated mem len = bytecodeHeader kind ++ body → Decoded r outs mem kind body) ∧
    ((∀ kind body, designated mem len ≠ bytecodeHeader kind ++ body) →
      ∃ msg, Rejected r outs msg)

theorem bodyLen_toNat {n : ℕ} (hw : 32 ≤ w) (hlen : len.toInt = headerSize + n) :
    (toSize w len - .ofNat w headerSize).toNat = n := by
  have hlarge : 2 ^ 32 ≤ 2 ^ w := Nat.pow_le_pow_right (by decide) hw
  have hbound := BitVec.toInt_lt (x := len)
  simp only [headerSize] at hlen ⊢
  have hnat : len.toNat = 52 + n := by
    have hcond := BitVec.toInt_eq_toNat_cond len
    have hlt := len.isLt
    split at hcond <;> omega
  have hsize : (toSize w len).toNat = 52 + n := by
    have hself : BitVec.ofNat 32 len.toNat = len := by rw [BitVec.ofNat_toNat, BitVec.setWidth_eq]
    rw [← hself, hnat, toNat_toSize hw (by omega)]
  have hheader : (BitVec.ofNat w 52).toNat = 52 :=
    (BitVec.toNat_ofNat ..).trans (Nat.mod_eq_of_lt (by omega))
  rw [BitVec.toNat_sub_of_le (BitVec.le_def.mpr (by omega)), hsize, hheader]
  omega

theorem checks (hw : 32 ≤ w) (e : Reachable) (granted : Bool) (outs : Outs w)
    (hlen : len.toInt ≤ mem.length) : Checks w e granted mem len outs := by
  have hrefines : checkBytecodeHeader w e.filled.buf granted mem len outs = _ := check_refines hlen
  cases hres : QuickJsKmp.checkBytecodeHeader (designated mem len) with
  | ok decoded =>
    obtain ⟨kind, body⟩ := decoded
    have hbuf := checkBytecodeHeader_iff.mp hres
    rw [hres] at hrefines
    refine ⟨_, hrefines, ⟨fun _ => ⟨kind, body, hbuf⟩, fun _ => rfl⟩, ?_, ?_⟩
    · intro kind' body' hbuf'
      have hsame := checkBytecodeHeader_iff.mpr hbuf'
      rw [hres, Except.ok.injEq, Prod.mk.injEq] at hsame
      obtain ⟨rfl, rfl⟩ := hsame
      have hlength := congrArg List.length hbuf
      rw [List.length_append, length_bytecodeHeader, designated, List.length_take] at hlength
      have hint : len.toInt = headerSize + body.length := by
        simp only [headerSize] at hlength ⊢
        omega
      have hbody : field mem headerSize body.length = body := by
        rw [← field_take (n := len.toInt.toNat) (by omega), ← designated, hbuf, field,
          List.drop_left' (length_bytecodeHeader kind), List.take_length]
      refine ⟨rfl, rfl, ⟨headerSize, rfl, ?_⟩, rfl⟩
      show readMem mem headerSize (toSize w len - .ofNat w headerSize).toNat = some body
      rw [bodyLen_toNat hw hint, readMem, if_pos (by omega), hbody]
    · exact fun hnone => absurd hbuf (hnone kind body)
  | error f =>
    have hnone (kind body) : designated mem len ≠ bytecodeHeader kind ++ body := fun hbuf => by
      rw [checkBytecodeHeader_iff.mpr hbuf] at hres
      cases hres
    obtain ⟨r, hfail, hrejected⟩ := fail_spec granted hw e outs hres
    rw [hres] at hrefines
    refine ⟨r, hrefines.trans hfail, ⟨fun hcode => ?_, fun ⟨kind, body, hbuf⟩ => ?_⟩, ?_, ?_⟩
    · rw [hrejected.code] at hcode
      cases hcode
    · exact absurd hbuf (hnone kind body)
    · exact fun kind body hbuf => absurd hbuf (hnone kind body)
    · exact fun _ => ⟨_, hrejected⟩

-- ---------------------------------------------------------------------------
-- The framed buffers
-- ---------------------------------------------------------------------------

theorem compileHeader_bytes (kind : BytecodeKind) :
    (compileHeader kind).bytes = bytecodeHeader kind := by
  cases kind <;> decide

theorem length_memcpy {data data' : Allocation} (h : memcpy data offset p = some data') :
    data'.length = data.length ∧ offset + p.length ≤ data.length := by
  unfold memcpy at h
  split at h
  · rename_i hinside
    obtain rfl := Option.some.inj h
    refine ⟨?_, hinside.2⟩
    simp only [List.length_append, List.length_take, List.length_map, List.length_drop]
    omega
  · cases h

/-- Both copies are inside a block that is large enough. -/
theorem frame_of_fits (hw : 32 ≤ w) (h : headerSize + data.length ≤ 2 ^ 31 - 1) :
    frame w flags data = some ((bytecodeHeader (compileKind flags) ++ data).map some,
      .ofNat 32 (headerSize + data.length)) := by
  have hlen : (BitVec.ofNat 32 (headerSize + data.length)).toInt =
      (headerSize + data.length : ℕ) := toInt_ofNat (by omega)
  have hsize : allocSize (.ofNat 32 (headerSize + data.length)) = headerSize + data.length := by
    rw [allocSize, hlen, if_pos (by simp only [headerSize]; omega), BitVec.toNat_ofNat]
    exact Nat.mod_eq_of_lt (by omega)
  have htotal : (BitVec.ofNat w headerSize + BitVec.ofNat w data.length).setWidth 32 =
      .ofNat 32 (headerSize + data.length) := by
    rw [← BitVec.ofNat_add, BitVec.setWidth_ofNat_of_le hw]
  have hheader := length_bytecodeHeader (compileKind flags)
  have hfirst : memcpy (List.replicate (headerSize + data.length) none) 0
      (bytecodeHeader (compileKind flags)) =
        some ((bytecodeHeader (compileKind flags)).map some ++ List.replicate data.length none) := by
    rw [memcpy, if_pos ⟨le_refl _, by rw [hheader, List.length_replicate]; omega⟩]
    simp [hheader]
  have hsecond : memcpy ((bytecodeHeader (compileKind flags)).map some ++
      List.replicate data.length none) headerSize data =
        some ((bytecodeHeader (compileKind flags) ++ data).map some) := by
    rw [memcpy, if_pos ⟨by omega, by simp [hheader]⟩]
    simp [hheader]
  simp only [frame, htotal, hsize, compileHeader_bytes, hfirst, hsecond, Option.bind_eq_bind,
    Option.bind_some, Option.pure_def]

/-- Otherwise the sum is cut to a smaller number, and one of the copies leaves the block. -/
theorem frame_of_not_fits (h : ¬ headerSize + data.length ≤ 2 ^ 31 - 1) :
    frame w flags data = none := by
  cases hframe : frame w flags data with
  | none => rfl
  | some framed =>
    simp only [frame, Option.bind_eq_bind, Option.bind_eq_some_iff] at hframe
    obtain ⟨first, hfirst, second, hsecond, -⟩ := hframe
    have hroom := (length_memcpy hsecond).2
    rw [(length_memcpy hfirst).1, List.length_replicate] at hroom
    have hsmall (len : BitVec 32) : allocSize len < 2 ^ 31 := by
      unfold allocSize
      split
      · have hcond := BitVec.toInt_eq_toNat_cond len
        have hlt := len.isLt
        split at hcond <;> omega
      · decide
    have := hsmall ((BitVec.ofNat w headerSize + BitVec.ofNat w data.length).setWidth 32)
    omega

/-- What is compiled is a buffer of initialized bytes that passes the checks, for the kind it was
compiled as and with the object as its body. -/
def Accepted (w : ℕ) (flags : BitVec 32) (data : Bytes) : Prop :=
  ∃ bytes len, frame w flags data = some (bytes.map some, len) ∧ len.toInt = bytes.length ∧
    ∀ (e : Reachable) granted outs, ∃ r,
      checkBytecodeHeader w e.filled.buf granted bytes len outs = some r ∧
        Decoded r outs bytes (compileKind flags) data

theorem accepted_iff (hw : 32 ≤ w) :
    Accepted w flags data ↔ headerSize + data.length ≤ 2 ^ 31 - 1 := by
  constructor
  · rintro ⟨bytes, len, hframe, -⟩
    by_contra hover
    rw [frame_of_not_fits hover] at hframe
    cases hframe
  · intro hfits
    have hlength : (bytecodeHeader (compileKind flags) ++ data).length =
        headerSize + data.length := by
      rw [List.length_append, length_bytecodeHeader]
    have hlen : (BitVec.ofNat 32 (headerSize + data.length)).toInt =
        (bytecodeHeader (compileKind flags) ++ data).length := by
      rw [hlength, toInt_ofNat (by omega)]
    refine ⟨_, _, frame_of_fits hw hfits, hlen, fun e granted outs => ?_⟩
    obtain ⟨r, hreturns, -, hdecoded, -⟩ := (checks hw e granted outs hlen.le).returns
    refine ⟨r, hreturns, hdecoded _ _ ?_⟩
    rw [designated, hlen, Int.toNat_natCast, List.take_length]

/-- The checks are exact and stay inside every buffer; what is compiled passes them if and only if
header and object together have at most `INT32_MAX` bytes. -/
theorem header_codec_iff (hw : 32 ≤ w) :
    (∀ e granted (mem : Bytes) (len : BitVec 32) outs, len.toInt ≤ mem.length →
      Checks w e granted mem len outs) ∧
      ∀ flags data, Accepted w flags data ↔ headerSize + data.length ≤ 2 ^ 31 - 1 :=
  ⟨fun e granted _ _ outs hlen => checks hw e granted outs hlen, fun _ _ => accepted_iff hw⟩

/-- An engine that has published nothing. -/
def fresh : Reachable := ⟨.init, ⟨good_init.toSized, .inl rfl⟩⟩

theorem header_codec_iff_module :
    Checks 64 fresh true (bytecodeHeader .module ++ [7]) 40 ⟨0, none, 0, ⟨0, [], 0⟩⟩ ∧
      (Accepted 64 1 [7] ↔ headerSize + [(7 : UInt8)].length ≤ 2 ^ 31 - 1) :=
  ⟨(header_codec_iff (by decide)).1 _ _ _ _ _ (by decide), (header_codec_iff (by decide)).2 1 [7]⟩

/-- An object of 2³¹ - 52 bytes. -/
theorem large_object_not_accepted :
    ¬ ∀ w, 32 ≤ w → ∀ flags data, Accepted w flags data := by
  intro h
  obtain ⟨data, hlength⟩ : ∃ data : Bytes, data.length = 2 ^ 31 - 52 :=
    ⟨List.replicate (2 ^ 31 - 52) 0, List.length_replicate⟩
  have hfits := (accepted_iff (by decide)).mp (h 64 (by decide) 0 data)
  rw [hlength] at hfits
  exact absurd hfits (by decide)

end QuickJsKmp.Header
