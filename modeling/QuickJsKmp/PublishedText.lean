import QuickJsKmp.EngineText
import QuickJsKmp.Header
import QuickJsKmp.Lib.Formats

/-!
# The texts that calls hand out

Every place that fills `out->str` or `out->stack`: a string of the engine as
`JS_ToCStringLen` gives it, a message that the shim words, whole or cut to its
array, and one that the shim has thrown and the engine has read back.
-/

namespace QuickJsKmp.PublishedText

open CodePoints Formats EngineText
open Wtf8 (WellFormed)

-- ---------------------------------------------------------------------------
-- Messages
-- ---------------------------------------------------------------------------

/-- The messages without arguments: those of `fail_message`, of `owned_message`, of
`error_to_out` and of `oom_to_out`. -/
def constants : List String :=
  ["not QuickJS bytecode produced by this SDK", "unsupported bytecode header",
    "bytecode body does not match its header", "bytecode is a script, not a module",
    "bytecode module has an anonymous name; compile it with a real one",
    "module name must not be empty", "too many host functions", "invalid or released ref",
    "negative index", "ref is not a function", "invalid or released this ref", "out of memory",
    "could not create compile runtime", "could not create compile context", "compilation failed",
    "unknown exception", "InternalError: out of memory"]

/-- `upstream` are bytes of the buffer, `text` is the message of the engine, if there is one. -/
inductive Message
  | constant (text : String) (known : text ∈ constants)
  | otherEngine (upstream : Bytes)
  | corrupt (text : Option Text)

/-- The message of `peek_module_name`. -/
def corruptFormat : Option Text → List Piece
  | none => [.lit (ascii "bytecode body is corrupt: "), .lit (ascii "(no message)")]
  | some text => [.lit (ascii "bytecode body is corrupt: "), .quote none (toCString text)]

def Message.text : Message → Bytes
  | .constant text _ => ascii text
  | .otherEngine upstream => Header.engineMessage upstream
  | .corrupt text => snprintf 256 (corruptFormat text)

/-- What the message quotes from a text, as its format has it. -/
def Message.quotation : Message → Option (List Piece)
  | .corrupt text => some (corruptFormat text)
  | _ => none

def takenEnd : ModuleKind → Bytes
  | .evaluated => ascii "' was already evaluated"
  | .loaded => ascii "' was already loaded by the module loader"
  | _ => ascii "' is already registered"

/-- The message of `module_name_taken`. -/
def takenFormat (kind : ModuleKind) (name : Name) : List Piece :=
  [.lit (ascii "module '"), .quote (some 128) name, .lit (takenEnd kind)]

/-- The errors with arguments that the loader throws. The name in the bytecode is one that the
engine has read. -/
inductive Thrown
  | notRegistered (name : Name)
  | loaderAnswer (name : Name)
  | loaderScript (name : Name)
  | compiledAs (name : Name) (compiled : Text)

def Thrown.name : Thrown → Name
  | .notRegistered name => name
  | .loaderAnswer name => name
  | .loaderScript name => name
  | .compiledAs name _ => name

/-- The beginning of `toString()`. -/
def Thrown.error : Thrown → Bytes
  | .notRegistered _ => ascii "ReferenceError: "
  | _ => ascii "TypeError: "

def Thrown.format : Thrown → List Piece
  | .notRegistered name =>
    [.lit (ascii "module '"), .quote none name, .lit (ascii "' is not registered")]
  | .loaderAnswer name =>
    [.lit (ascii "module loader returned neither source nor bytecode for '"), .quote none name,
      .lit (ascii "'")]
  | .loaderScript name =>
    [.lit (ascii "module '"), .quote none name,
      .lit (ascii "': bytecode is a script, not a module")]
  | .compiledAs name compiled =>
    [.lit (ascii "module '"), .quote none name,
      .lit (ascii "': bytecode was compiled as '"),
      .quote none (untilNul (toCString compiled)), .lit (ascii "'")]

-- ---------------------------------------------------------------------------
-- Errors that the engine words
-- ---------------------------------------------------------------------------

inductive NativeError
  | syntaxError
  | typeError
  | referenceError
  | rangeError
  | internalError
  deriving DecidableEq, Repr

def NativeError.words : NativeError → Bytes
  | .syntaxError => ascii "SyntaxError: "
  | .typeError => ascii "TypeError: "
  | .referenceError => ascii "ReferenceError: "
  | .rangeError => ascii "RangeError: "
  | .internalError => ascii "InternalError: "

/-- An argument is the bytes that the conversion is given, and the text that they show. -/
inductive EnginePiece
  | words (s : Bytes)
  | argument (shown : Bytes) (text : Text)

def EnginePiece.ofAtom (atom : Atom) : EnginePiece := .argument (atomGetStr atom) atom.text

def EnginePiece.ofText (text : Text) : EnginePiece := .argument (toCString text) text

/-- The results of `js_resolve_export` that are errors. -/
inductive ResolveError
  | notFound
  | circular
  | ambiguous
  deriving DecidableEq, Repr

/-- The messages of `js_resolve_export_throw_error`. -/
def resolveExportFormat (exportName moduleName : Atom) : ResolveError → List EnginePiece
  | .notFound =>
    [.words (ascii "Could not find export '"), .ofAtom exportName, .words (ascii "' in module '"),
      .ofAtom moduleName, .words (ascii "'")]
  | .circular =>
    [.words (ascii "circular reference when looking for export '"), .ofAtom exportName,
      .words (ascii "' in module '"), .ofAtom moduleName, .words (ascii "'")]
  | .ambiguous =>
    [.words (ascii "export '"), .ofAtom exportName, .words (ascii "' in module '"),
      .ofAtom moduleName, .words (ascii "' is ambiguous")]

/-- The errors that the engine throws with an argument in their message. All but those of
`js_resolve_export_throw_error` have one argument: an atom (`JS_ThrowTypeErrorAtom`, say), a
C string (`JS_ThrowTypeErrorNotAConstructor`) or a token of the source (`js_parse_error`). -/
inductive EngineError
  | resolveExport (res : ResolveError) (exportName moduleName : Atom)
  | ofAtom (error : NativeError) (before : Bytes) (atom : Atom) (after : Bytes)
      (known : Ascii before ∧ Ascii after)
  | ofText (error : NativeError) (before : Bytes) (text : Text) (after : Bytes)
      (known : Ascii before ∧ Ascii after)

def EngineError.error : EngineError → NativeError
  | .resolveExport .. => .syntaxError
  | .ofAtom error .. => error
  | .ofText error .. => error

def EngineError.format : EngineError → List EnginePiece
  | .resolveExport res exportName moduleName => resolveExportFormat exportName moduleName res
  | .ofAtom _ before atom after _ => [.words before, .ofAtom atom, .words after]
  | .ofText _ before text after _ => [.words before, .ofText text, .words after]

/-- For `vsnprintf`. -/
def EnginePiece.piece : EnginePiece → Piece
  | .words s => .lit s
  | .argument shown _ => .quote none shown

/-- What the message quotes: the engine has read it before it is handed out. -/
def EnginePiece.quotation : EnginePiece → Piece
  | .words s => .lit s
  | .argument shown text => .excerpt (toCString (newStringLen (untilNul shown))) (toCString text)

-- ---------------------------------------------------------------------------
-- What is handed out
-- ---------------------------------------------------------------------------

/-- The ways in which a call fills `out`, or the `reason` of a rejection, or an argument of a host
function, with a tag other than BINARY. -/
inductive Publication
  /-- A buffer that got no memory for its message. -/
  | unfilled
  /-- `value_to_out`: a string, a BigInt, JSON. -/
  | value (text : Text)
  /-- `kmpjs_register_module_bytecode`. -/
  | registered (name : Text)
  /-- `kmpjs_compile`, with the output of `JS_WriteObject`. -/
  | bytecode (kind : BytecodeKind) (data : Bytes)
  | failed (message : Message) (stack : Option Text)
  /-- `module_name_taken`. -/
  | taken (kind : ModuleKind) (name : Name)
  /-- `error_to_out` and `owned_exception`, of what script has thrown or of an error without
  arguments. -/
  | described (message : Text) (stack : Option Text)
  /-- The same of an error that `JS_ThrowError` has worded. -/
  | worded (error : EngineError) (stack : Option Text)
  /-- A message that `throw_message` has thrown. -/
  | rethrown (message : Message) (stack : Option Text)
  | thrown (error : Thrown) (stack : Option Text)

/-- A thrown message: the engine reads it, `toString()` puts the class of the error in front. -/
def readBack (error message : Bytes) : Bytes :=
  toCString (newStringLen error ++ newStringLen message)

def Publication.str : Publication → Bytes
  | .unfilled => []
  | .value text => toCString text
  | .registered name => untilNul (toCString name)
  | .bytecode kind data => bytecodeHeader kind ++ data
  | .failed message _ => message.text
  | .taken kind name => snprintf 192 (takenFormat kind name)
  | .described message _ => toCString message
  | .worded error _ => readBack error.error.words (snprintf 256 (error.format.map EnginePiece.piece))
  | .rethrown message _ => readBack (ascii "Error: ") message.text
  | .thrown error _ => readBack error.error (snprintf 256 error.format)

def Publication.stack : Publication → Option Bytes
  | .failed _ stack => stack.map toCString
  | .described _ stack => stack.map toCString
  | .worded _ stack => stack.map toCString
  | .rethrown _ stack => stack.map toCString
  | .thrown _ stack => stack.map toCString
  | _ => none

/-- What a message quotes a module name or a text of the engine in. -/
def Publication.quotation : Publication → Option (List Piece)
  | .registered name => some [.quote none (toCString name)]
  | .failed message _ => message.quotation
  | .taken kind name => some (takenFormat kind name)
  | .worded error _ => some (.lit error.error.words :: error.format.map EnginePiece.quotation)
  | .rethrown message _ => message.quotation.map (.lit (ascii "Error: ") :: ·)
  | .thrown error _ => some (.lit error.error :: error.format)
  | _ => none

/-- What is handed out is well formed, and quotes front parts that end where a code point ends. -/
structure Publication.Sound (p : Publication) : Prop where
  str : WellFormed p.str
  stack : ∀ s ∈ p.stack, WellFormed s
  quotes : ∀ f ∈ p.quotation, Quotes f p.str

/-- The names of modules are well-formed texts. Bytes of a bytecode buffer are anything. -/
def Publication.Given : Publication → Prop
  | .taken _ name => WellFormed name
  | .thrown error _ => WellFormed error.name
  | _ => True

def replacement : CodePoint := ⟨0xFFFD, by decide⟩

/-- The message is cut where a code point ends, or inside of one that looks like a cut one. -/
def ReadsWhole (n : ℕ) (b : Bytes) : Prop := Whole n b ∨ EndsInside replacement n b

/-- The engine reads a front part of the text where the buffers end, and both halves of a
pair of surrogates or none. -/
def EnginePiece.ReadsWhole (room : ℕ) : EnginePiece → Prop
  | .words _ => True
  | .argument shown text =>
    let read := newStringLen ((untilNul shown).take room)
    read <+: text ∧ ¬ Halves read (text.drop read.length)

/-- So it is with every argument, in an array with so much room. -/
def Undivided : ℕ → List EnginePiece → Prop
  | _, [] => True
  | room, p :: rest => p.ReadsWhole room ∧ Undivided (room - p.piece.text.length) rest

/-- No cut is inside of a code point, and the bytes that are no text read as one. -/
def Publication.Clean : Publication → Prop
  | .bytecode _ data => WellFormed data
  | .failed (.otherEngine upstream) _ => WellFormed (shown 12 upstream)
  | .failed (.corrupt text) _ => Whole 255 (Formats.text (corruptFormat text))
  | .taken _ name => Whole 128 (untilNul name)
  | .worded error _ => Undivided 255 error.format
  | .rethrown (.corrupt text) _ => ReadsWhole 255 (Formats.text (corruptFormat text))
  | .thrown error _ => ReadsWhole 255 (Formats.text error.format)
  | _ => True

-- ---------------------------------------------------------------------------
-- Well-formed parts
-- ---------------------------------------------------------------------------

theorem wellFormed_nil : WellFormed [] := ⟨[], .nil, rfl⟩

theorem wellFormed_toCString (text : Text) : WellFormed (toCString text) :=
  ⟨codePoints text, codePoints_unpaired text, rfl⟩

theorem wellFormed_textPrefix (h : WellFormed q) (hp : TextPrefix p q) : WellFormed p := by
  obtain ⟨cps, hcps, rfl⟩ := h
  obtain ⟨first, rest, hall, rfl⟩ := hp
  rw [bytes_injective hall] at hcps
  exact ⟨first, List.IsChain.left_of_append hcps, rfl⟩

theorem wellFormed_take_iff (h : WellFormed b) : WellFormed (b.take n) ↔ Whole n b := by
  have hb := h
  obtain ⟨cps, -, rfl⟩ := hb
  constructor
  · rintro ⟨first, -, hfirst⟩
    exact (encoded_take_iff cps n).mp ⟨first, hfirst⟩
  · exact fun hwhole => wellFormed_textPrefix h ((textPrefix_take_iff cps n).mpr hwhole)

theorem wellFormed_append (ha : WellFormed a) (hb : WellFormed b)
    (h : (∀ x ∈ a.getLast?, x.toNat < 0x80) ∨ ∀ x ∈ b.head?, x.toNat < 0x80) :
    WellFormed (a ++ b) := by
  obtain ⟨acps, ha, rfl⟩ := ha
  obtain ⟨bcps, hb, rfl⟩ := hb
  exact ⟨acps ++ bcps, unpaired_append ha hb h, (bytes_append acps bcps).symm⟩

theorem wellFormed_ascii (h : Ascii s) : WellFormed s := by
  obtain ⟨cps, hcps, rfl⟩ := h.scalar
  exact ⟨cps, hcps.unpaired, rfl⟩

theorem wellFormed_ascii_append_iff (hs : Ascii s) : WellFormed (s ++ m) ↔ WellFormed m := by
  constructor
  · rintro ⟨cps, hcps, hm⟩
    obtain ⟨first, rfl⟩ := hs.encoded
    obtain ⟨rest, rfl⟩ := bytes_prefix_iff.mp ⟨m, hm⟩
    rw [bytes_append] at hm
    exact ⟨rest, List.IsChain.right_of_append hcps, List.append_cancel_left hm⟩
  · exact fun hm => wellFormed_append (wellFormed_ascii hs) hm
      (.inl fun x hx => hs x (List.mem_of_getLast? hx))

theorem wellFormed_append_ascii_iff (ht : Ascii t) : WellFormed (m ++ t) ↔ WellFormed m := by
  constructor
  · intro h
    have hwhole : Whole m.length (m ++ t) := by
      intro c hc hcontinuing
      rw [List.getElem?_append_right (Nat.le_refl _)] at hc
      have := ht c (List.mem_of_getElem? hc)
      have := hcontinuing.1
      omega
    have htake := (wellFormed_take_iff h).mpr hwhole
    rwa [List.take_left] at htake
  · exact fun hm => wellFormed_append hm (wellFormed_ascii ht)
      (.inr fun x hx => ht x (List.mem_of_head? hx))

theorem ascii_constants : ∀ text ∈ constants, Ascii (ascii text) := by decide +kernel

-- ---------------------------------------------------------------------------
-- Messages as they are worded
-- ---------------------------------------------------------------------------

theorem text_lit_cons (s : Bytes) (f : List Piece) :
    Formats.text (.lit s :: f) = s ++ Formats.text f := rfl

theorem text_quote_cons (arg : Bytes) (f : List Piece) :
    Formats.text (.quote none arg :: f) = untilNul arg ++ Formats.text f := rfl

theorem encoded_of_wellFormed (h : WellFormed b) : Encoded b := by
  obtain ⟨cps, -, hcps⟩ := h
  exact ⟨cps, hcps⟩

theorem wellFormed_untilNul (h : WellFormed b) : WellFormed (untilNul b) := by
  have hb := h
  obtain ⟨cps, -, rfl⟩ := hb
  exact wellFormed_textPrefix h (textPrefix_untilNul cps)

/-- The bytes of another engine's header are the only ones of the message that may be no text. -/
theorem wellFormed_engineMessage_iff :
    WellFormed (Header.engineMessage upstream) ↔ WellFormed (shown 12 upstream) := by
  have hbefore : Ascii (ascii "bytecode built for engine ") := by decide
  have hafter : Ascii (ascii ", this SDK embeds engine ") := by decide
  have hown : Ascii (shown 12 upstreamCommit) := by decide
  rw [Header.engineMessage_eq, Failure.text, quoted, wellFormed_append_ascii_iff hown,
    wellFormed_append_ascii_iff hafter, wellFormed_ascii_append_iff hbefore]

theorem corruptFormat_plain (text : Option Text) : ∀ p ∈ corruptFormat text, p.Plain := by
  cases text with
  | none =>
    refine List.forall_mem_cons.mpr ⟨?_, List.forall_mem_singleton.mpr ?_⟩
    · exact (by decide : Ascii (ascii "bytecode body is corrupt: "))
    · exact (by decide : Ascii (ascii "(no message)"))
  | some text =>
    refine List.forall_mem_cons.mpr ⟨?_, List.forall_mem_singleton.mpr ?_⟩
    · exact (by decide : Ascii (ascii "bytecode body is corrupt: "))
    · exact whole_quote (encoded_of_wellFormed (wellFormed_toCString text))

theorem corruptFormat_wellFormed (text : Option Text) :
    WellFormed (Formats.text (corruptFormat text)) := by
  have hbefore : Ascii (ascii "bytecode body is corrupt: ") := by decide
  cases text with
  | none => exact wellFormed_ascii (by decide)
  | some text =>
    rw [corruptFormat, text_lit_cons, wellFormed_ascii_append_iff hbefore, text_quote_cons,
      Formats.text, List.flatMap_nil, List.append_nil]
    exact wellFormed_untilNul (wellFormed_toCString text)

theorem corrupt_sound_iff (text : Option Text) :
    (WellFormed (Message.corrupt text).text ∧
      Quotes (corruptFormat text) (Message.corrupt text).text) ↔
      Whole 255 (Formats.text (corruptFormat text)) := by
  rw [Message.text, quotes_snprintf_iff (corruptFormat_plain text), snprintf,
    wellFormed_take_iff (corruptFormat_wellFormed text), and_self]

theorem taken_text (kind : ModuleKind) (name : Name) :
    snprintf 192 (takenFormat kind name) = Formats.text (takenFormat kind name) := by
  refine List.take_of_length_le ?_
  have hname : (shownOf (some 128) name).length ≤ 128 := Header.length_shown_le 128 name
  have hbefore : (ascii "module '").length = 8 := rfl
  have hafter : (takenEnd kind).length ≤ 41 := by cases kind <;> decide
  simp only [takenFormat, Formats.text, Piece.text, List.flatMap_cons, List.flatMap_nil,
    List.length_append, List.append_nil, hbefore]
  omega

theorem taken_sound_iff (kind : ModuleKind) (h : WellFormed name) :
    (WellFormed (snprintf 192 (takenFormat kind name)) ∧
      Quotes (takenFormat kind name) (snprintf 192 (takenFormat kind name))) ↔
      Whole 128 (untilNul name) := by
  have hafter : Ascii (takenEnd kind) ∧ takenEnd kind ≠ [] := by cases kind <;> decide
  rw [taken_text, ← whole_quote_iff (encoded_of_wellFormed h)]
  constructor
  · rintro ⟨-, hquotes⟩
    by_contra hcut
    exact not_quotes_of_cut hafter.2 hcut hquotes
  · intro hwhole
    have hshown : WellFormed (shownOf (some 128) name) := wellFormed_textPrefix h hwhole
    have hbefore : Ascii (ascii "module '") := by decide
    constructor
    · rw [takenFormat, text_lit_cons, wellFormed_ascii_append_iff hbefore, text_cons,
        text_lit_cons, Formats.text, List.flatMap_nil, List.append_nil]
      exact (wellFormed_append_ascii_iff hafter.1).mpr hshown
    · refine quotes_text (List.forall_mem_cons.mpr ⟨trivial, List.forall_mem_cons.mpr ⟨hwhole, ?_⟩⟩)
      exact List.forall_mem_singleton.mpr trivial

-- ---------------------------------------------------------------------------
-- Messages that the engine has read
-- ---------------------------------------------------------------------------

theorem toCString_units (h : Unpaired cps) : toCString (units cps) = bytes cps := by
  rw [toCString, codePoints_units h]

theorem unpaired_replacement (h : Unpaired cps) : Unpaired (cps ++ [replacement]) := by
  refine List.isChain_append.mpr ⟨h, .singleton _, ?_⟩
  rintro x - y hy ⟨-, hlow⟩
  obtain rfl : replacement = y := by simpa using hy
  exact absurd hlow (by decide)

/-- A message is read back as it was worded, and a code point that the array had no room for
becomes a U+FFFD. -/
theorem readBack_quotes_iff (herror : Ascii error) (hf : ∀ p ∈ f, p.Plain)
    (hw : WellFormed (Formats.text f)) :
    Quotes (.lit error :: f) (readBack error (snprintf size f)) ↔
      ReadsWhole (size - 1) (Formats.text f) := by
  have hplain : ∀ p ∈ Piece.lit error :: f, p.Plain := List.forall_mem_cons.mpr ⟨herror, hf⟩
  obtain ⟨acps, hacps, hbytes⟩ := (wellFormed_ascii_append_iff herror).mpr hw
  obtain ⟨ecps, rfl⟩ := herror.encoded
  obtain ⟨cps, rfl⟩ := bytes_prefix_iff.mp ⟨_, hbytes⟩
  have htext : Formats.text f = bytes cps := by
    rw [bytes_append] at hbytes
    exact List.append_cancel_left hbytes
  rw [quotes_iff hplain, text_lit_cons, snprintf, htext, readBack, newStringLen_bytes, ReadsWhole,
    ← bytes_append]
  rcases take_cases cps (size - 1) with
    ⟨first, rest, rfl, htake⟩ | ⟨first, cp, rest, k, rfl, hk, hlt, hn, htake⟩
  · have hwhole : Whole (size - 1) (bytes (first ++ rest)) :=
      (whole_iff _ _).mpr ⟨first, rest, rfl, htake⟩
    have hunpaired : Unpaired (ecps ++ first) := by
      rw [← List.append_assoc] at hacps
      exact List.IsChain.left_of_append hacps
    rw [htake, newStringLen_bytes, ← units_append, toCString_units hunpaired, textPrefix_bytes_iff]
    refine iff_of_true ?_ (.inl hwhole)
    exact (List.prefix_append_right_inj ecps).mpr (List.prefix_append ..)
  · have hread :
        newStringLen (bytes first ++ (utf8 cp).take k) = units (first ++ [replacement]) := by
      rw [newStringLen_bytes_append, newStringLen_inside cp hk hlt, units_append]
      rfl
    have hunpaired : Unpaired (ecps ++ (first ++ [replacement])) := by
      rw [← List.append_assoc] at hacps ⊢
      exact unpaired_replacement (List.IsChain.left_of_append hacps)
    rw [htake, hread, ← units_append, toCString_units hunpaired, ← List.append_assoc,
      ← List.append_assoc, textPrefix_next_iff, hn]
    rw [or_iff_right (not_whole_inside first rest cp hk hlt), endsInside_iff first rest cp _ hk hlt]
    exact eq_comm

theorem thrown_plain (t : Thrown) (h : WellFormed t.name) : ∀ p ∈ t.format, p.Plain := by
  have hname : (Piece.quote none t.name).Plain := whole_quote (encoded_of_wellFormed h)
  have hmodule : (Piece.lit (ascii "module '")).Plain := (by decide : Ascii (ascii "module '"))
  have hend : (Piece.lit (ascii "'")).Plain := (by decide : Ascii (ascii "'"))
  cases t with
  | notRegistered name =>
    refine List.forall_mem_cons.mpr ⟨hmodule, List.forall_mem_cons.mpr ⟨hname, ?_⟩⟩
    exact List.forall_mem_singleton.mpr (by decide : Ascii (ascii "' is not registered"))
  | loaderAnswer name =>
    refine List.forall_mem_cons.mpr ⟨?_, List.forall_mem_cons.mpr ⟨hname, ?_⟩⟩
    · exact (by decide : Ascii (ascii "module loader returned neither source nor bytecode for '"))
    · exact List.forall_mem_singleton.mpr hend
  | loaderScript name =>
    refine List.forall_mem_cons.mpr ⟨hmodule, List.forall_mem_cons.mpr ⟨hname, ?_⟩⟩
    exact List.forall_mem_singleton.mpr
      (by decide : Ascii (ascii "': bytecode is a script, not a module"))
  | compiledAs name compiled =>
    have hcompiled := wellFormed_untilNul (wellFormed_toCString compiled)
    refine List.forall_mem_cons.mpr ⟨hmodule, List.forall_mem_cons.mpr ⟨hname, ?_⟩⟩
    refine List.forall_mem_cons.mpr ⟨?_, List.forall_mem_cons.mpr ⟨?_, ?_⟩⟩
    · exact (by decide : Ascii (ascii "': bytecode was compiled as '"))
    · exact whole_quote (encoded_of_wellFormed hcompiled)
    · exact List.forall_mem_singleton.mpr hend

theorem thrown_wellFormed (t : Thrown) (h : WellFormed t.name) :
    WellFormed (Formats.text t.format) := by
  have hname : WellFormed (untilNul t.name) := wellFormed_untilNul h
  have hmodule : Ascii (ascii "module '") := by decide
  have hend : Ascii (ascii "'") := by decide
  cases t with
  | notRegistered name =>
    rw [Thrown.format, text_lit_cons, wellFormed_ascii_append_iff hmodule, text_quote_cons]
    exact (wellFormed_append_ascii_iff (by decide)).mpr hname
  | loaderAnswer name =>
    rw [Thrown.format, text_lit_cons, wellFormed_ascii_append_iff (by decide), text_quote_cons]
    exact (wellFormed_append_ascii_iff hend).mpr hname
  | loaderScript name =>
    rw [Thrown.format, text_lit_cons, wellFormed_ascii_append_iff hmodule, text_quote_cons]
    exact (wellFormed_append_ascii_iff (by decide)).mpr hname
  | compiledAs name compiled =>
    have hcompiled : WellFormed (untilNul (untilNul (toCString compiled))) :=
      wellFormed_untilNul (wellFormed_untilNul (wellFormed_toCString compiled))
    rw [Thrown.format, text_lit_cons, wellFormed_ascii_append_iff hmodule, text_quote_cons,
      text_lit_cons, text_quote_cons]
    -- the two names are apart, so no surrogates meet
    have hmiddle : Ascii (ascii "': bytecode was compiled as '") := by decide
    refine wellFormed_append hname ?_ (.inr fun x hx => hmiddle x ?_)
    · refine (wellFormed_ascii_append_iff hmiddle).mpr ?_
      exact (wellFormed_append_ascii_iff hend).mpr hcompiled
    · cases hx
      exact List.mem_cons_self

theorem Thrown.ascii_error (t : Thrown) : Ascii t.error := by
  have hreference : Ascii (ascii "ReferenceError: ") := by decide
  have htype : Ascii (ascii "TypeError: ") := by decide
  cases t with
  | notRegistered name => exact hreference
  | _ => exact htype

-- ---------------------------------------------------------------------------
-- Everything that is handed out
-- ---------------------------------------------------------------------------

theorem stack_wellFormed (p : Publication) : ∀ s ∈ p.stack, WellFormed s := by
  have hmap (stack : Option Text) : ∀ s ∈ stack.map toCString, WellFormed s := by
    intro s hs
    obtain ⟨text, -, rfl⟩ := Option.mem_map.mp hs
    exact wellFormed_toCString text
  cases p with
  | failed message stack => exact hmap stack
  | described message stack => exact hmap stack
  | worded error stack => exact hmap stack
  | rethrown message stack => exact hmap stack
  | thrown error stack => exact hmap stack
  | _ => exact fun s hs => nomatch hs

theorem sound_iff (p : Publication) :
    p.Sound ↔ WellFormed p.str ∧ ∀ f ∈ p.quotation, Quotes f p.str :=
  ⟨fun h => ⟨h.str, h.quotes⟩, fun h => ⟨h.1, stack_wellFormed p, h.2⟩⟩

theorem sound_iff_of_none {p : Publication} (h : p.quotation = none) :
    p.Sound ↔ WellFormed p.str := by
  rw [sound_iff, h]
  exact and_iff_left fun f hf => nomatch hf

theorem sound_iff_of_some {p : Publication} (h : p.quotation = some f) :
    p.Sound ↔ WellFormed p.str ∧ Quotes f p.str := by
  rw [sound_iff, h]
  simp only [Option.mem_some_iff, forall_eq']

theorem ascii_bytecodeHeader (kind : BytecodeKind) : Ascii (bytecodeHeader kind) := by
  cases kind <;> decide

theorem failed_sound_iff (message : Message) (stack : Option Text) :
    (Publication.failed message stack).Sound ↔ (Publication.failed message stack).Clean := by
  cases message with
  | constant text known =>
    rw [sound_iff_of_none rfl]
    exact iff_of_true (wellFormed_ascii (ascii_constants text known)) trivial
  | otherEngine upstream =>
    rw [sound_iff_of_none rfl]
    exact wellFormed_engineMessage_iff
  | corrupt text =>
    rw [sound_iff_of_some rfl]
    exact corrupt_sound_iff text

theorem rethrown_sound_iff (message : Message) (stack : Option Text) :
    (Publication.rethrown message stack).Sound ↔ (Publication.rethrown message stack).Clean := by
  have hstr : WellFormed (Publication.rethrown message stack).str := wellFormed_toCString _
  cases message with
  | constant text known =>
    rw [sound_iff_of_none rfl]
    exact iff_of_true hstr trivial
  | otherEngine upstream =>
    rw [sound_iff_of_none rfl]
    exact iff_of_true hstr trivial
  | corrupt text =>
    rw [sound_iff_of_some rfl, and_iff_right hstr]
    exact readBack_quotes_iff (by decide) (corruptFormat_plain text) (corruptFormat_wellFormed text)

-- ---------------------------------------------------------------------------
-- Messages that the engine has worded
-- ---------------------------------------------------------------------------

def message (f : List EnginePiece) : Bytes := Formats.text (f.map EnginePiece.piece)

/-- The words are ASCII, and an argument is some units of its text. -/
def EnginePiece.Sensible : EnginePiece → Prop
  | .words s => Ascii s
  | .argument shown text => ∃ cps, shown = bytes cps ∧ units cps <+: text

/-- What comes after an argument cannot be half of a pair. -/
def Separated : List EnginePiece → Prop
  | [] => True
  | .words _ :: rest => Separated rest
  | .argument _ _ :: rest => (∀ x ∈ (message rest).head?, x.toNat < 0x80) ∧ Separated rest

theorem units_of_start (h : a <+: b) : units a <+: units b := by
  obtain ⟨rest, rfl⟩ := h
  exact ⟨units rest, (units_append a rest).symm⟩

theorem sensible_ofAtom (atom : Atom) : (EnginePiece.ofAtom atom).Sensible := by
  obtain ⟨first, hfirst, hbytes⟩ := atomGetStr_eq atom
  refine ⟨first.map ofUnit, hbytes, ?_⟩
  have hunits : units (first.map ofUnit) = first := by
    rw [units, List.flatMap_map]
    simp [utf16_ofUnit]
  rwa [hunits]

theorem sensible_ofText (text : Text) : (EnginePiece.ofText text).Sensible :=
  ⟨codePoints text, rfl, by rw [units_codePoints]⟩

theorem sensible_untilNul {shown : Bytes} {text : Text} (h : (EnginePiece.argument shown text).Sensible) :
    ∃ cps, untilNul shown = bytes cps ∧ units cps <+: text := by
  obtain ⟨cps, rfl, hunits⟩ := h
  obtain ⟨a, ha, hprefix⟩ := textPrefix_iff.mp (textPrefix_untilNul cps)
  exact ⟨a, ha, (units_of_start hprefix).trans hunits⟩

theorem sensible_text {p : EnginePiece} (h : p.Sensible) : ∃ cps, p.piece.text = bytes cps := by
  cases p with
  | words s => exact Ascii.encoded h
  | argument shown text =>
    obtain ⟨cps, hcps, -⟩ := sensible_untilNul h
    exact ⟨cps, hcps⟩

theorem newStringLen_allAscii (h : Ascii s) : ∀ u ∈ newStringLen s, u.toNat < 0x80 := by
  induction s with
  | nil => exact fun u hu => nomatch hu
  | cons b s ih =>
    obtain ⟨hb, hs⟩ := List.forall_mem_cons.mp h
    rw [newStringLen_ascii hb]
    refine List.forall_mem_cons.mpr ⟨?_, ih hs⟩
    rwa [toNat_toUInt16 (by omega)]

theorem toCString_append (h : ¬ Halves a b) : toCString (a ++ b) = toCString a ++ toCString b := by
  rw [toCString, codePoints_append_of h, bytes_append]
  rfl

theorem toCString_ascii (h : Ascii s) : toCString (newStringLen s) = s := by
  obtain ⟨cps, hcps, rfl⟩ := h.scalar
  rw [newStringLen_bytes, toCString_units hcps.unpaired]

theorem not_halves_of_ascii (h : Ascii s) (rest : Text) : ¬ Halves (newStringLen s) rest := by
  rintro ⟨⟨u, hu, hhigh⟩, -⟩
  have hlt := newStringLen_allAscii h u (List.mem_of_getLast? hu)
  have hge := hhigh.1
  omega

/-- Words follow one another, and after an argument come words. -/
theorem not_halves_of_separated {p : EnginePiece} {f : List EnginePiece} (hp : p.Sensible)
    (h : Separated (p :: f)) (n : ℕ) :
    ¬ Halves (newStringLen p.piece.text) (newStringLen ((message f).take n)) := by
  cases p with
  | words s => exact not_halves_of_ascii hp _
  | argument shown text =>
    rintro ⟨-, v, hv, hlow⟩
    have hhead := h.1
    cases hm : (message f).take n with
    | nil =>
      rw [hm] at hv
      cases hv
    | cons b rest =>
      have hb : b.toNat < 0x80 := by
        refine hhead b ?_
        cases hf : message f with
        | nil => rw [hf, List.take_nil] at hm; cases hm
        | cons c more =>
          rw [hf] at hm
          cases n with
          | zero => cases hm
          | succ n =>
            rw [List.take_succ_cons] at hm
            exact congrArg some (List.cons.inj hm).1
      rw [hm, newStringLen_ascii hb] at hv
      obtain rfl : b.toNat.toUInt16 = v := by simpa using hv
      have hge := hlow.1
      rw [toNat_toUInt16 (by omega)] at hge
      omega

theorem toCString_prefix_iff {text : Text} :
    toCString a <+: toCString text ↔ a <+: text ∧ ¬ Halves a (text.drop a.length) :=
  bytes_prefix_iff.trans codePoints_prefix_iff

theorem textPrefix_toCString_iff {text : Text} :
    TextPrefix (toCString a) (toCString text) ↔ a <+: text ∧ ¬ Halves a (text.drop a.length) :=
  textPrefix_bytes_iff.trans codePoints_prefix_iff

/-- What an array has no room for makes the text no longer. -/
theorem newStringLen_take_length (cps : List CodePoint) (n : ℕ) :
    (newStringLen ((bytes cps).take n)).length ≤ (units cps).length := by
  rcases take_cases cps n with
    ⟨first, rest, rfl, htake⟩ | ⟨first, cp, rest, k, rfl, hk, hlt, -, htake⟩
  · rw [htake, newStringLen_bytes, units_append, List.length_append]
    exact Nat.le_add_right _ _
  · have hpos : 0 < (utf16 cp).length := List.length_pos_of_ne_nil (utf16_ne_nil cp)
    rw [htake, newStringLen_bytes_append, newStringLen_inside cp hk hlt, units_append, units_cons]
    simp only [List.length_append, List.length_singleton]
    omega

theorem undivided_zero (f : List EnginePiece) : Undivided 0 f := by
  induction f with
  | nil => trivial
  | cons p f ih =>
    refine ⟨?_, by rwa [Nat.zero_sub]⟩
    cases p with
    | words s => trivial
    | argument shown text => exact ⟨List.nil_prefix, not_halves_nil _⟩

theorem quotes_nil (f : List EnginePiece) : Quotes (f.map EnginePiece.quotation) [] := by
  cases f with
  | nil => rfl
  | cons p f =>
    refine .inl ?_
    cases p with
    | words s => exact List.nil_prefix
    | argument shown text => exact ⟨List.nil_prefix, [], codePoints text, rfl, rfl⟩

/-- The whole argument is there. -/
theorem whole_quotation_iff {p : EnginePiece} (h : p.piece.text.length ≤ room) :
    p.quotation.Whole ↔ p.ReadsWhole room := by
  cases p with
  | words s => exact Iff.rfl
  | argument shown text =>
    have htake : (untilNul shown).take room = untilNul shown := List.take_of_length_le h
    rw [EnginePiece.ReadsWhole, htake]
    exact textPrefix_toCString_iff

theorem quotation_text {p : EnginePiece} (hp : p.Sensible) :
    p.quotation.text = toCString (newStringLen p.piece.text) := by
  cases p with
  | words s => exact (toCString_ascii hp).symm
  | argument shown text => rfl

/-- The array ends inside of the argument. -/
theorem cut_quotation_iff {p : EnginePiece} {f : List Piece} (hp : p.Sensible) (room : ℕ) :
    Quotes (p.quotation :: f) (toCString (newStringLen (p.piece.text.take room))) ↔
      p.ReadsWhole room := by
  cases p with
  | words s =>
    have hs : Ascii s := hp
    have hfront : Ascii (s.take room) := fun b hb => hs b (List.mem_of_mem_take hb)
    refine iff_of_true (.inl ?_) trivial
    show toCString (newStringLen (s.take room)) <+: s
    rw [toCString_ascii hfront]
    exact List.take_prefix ..
  | argument shown text =>
    obtain ⟨cps, hcps, hunits⟩ := sensible_untilNul hp
    have hshown : newStringLen (untilNul shown) = units cps := by rw [hcps, newStringLen_bytes]
    have hlength := newStringLen_take_length cps room
    rw [← hcps] at hlength
    show _ ↔ newStringLen ((untilNul shown).take room) <+: text ∧ _
    generalize hread : newStringLen ((untilNul shown).take room) = read at hlength ⊢
    have hgoal : toCString (newStringLen ((Piece.quote none shown).text.take room)) =
        toCString read := congrArg toCString hread
    show Quotes _ (toCString (newStringLen ((Piece.quote none shown).text.take room))) ↔ _
    rw [hgoal]
    constructor
    · rintro (⟨-, hprefix⟩ | ⟨hwhole, m, hm, -⟩)
      · exact textPrefix_toCString_iff.mp hprefix
      · have hlonger : toCString (units cps) <+: toCString read :=
          ⟨m, by rw [hm, ← hshown]; rfl⟩
        have heq : units cps = read :=
          (toCString_prefix_iff.mp hlonger).1.eq_of_length_le hlength
        have hall : TextPrefix (toCString (newStringLen (untilNul shown))) (toCString text) := hwhole
        rw [hshown, heq] at hall
        exact textPrefix_toCString_iff.mp hall
    · rintro ⟨hfront, hhalves⟩
      refine .inl ⟨?_, textPrefix_toCString_iff.mpr ⟨hfront, hhalves⟩⟩
      show toCString read <+: toCString (newStringLen (untilNul shown))
      rw [hshown]
      refine toCString_prefix_iff.mpr
        ⟨List.prefix_of_prefix_length_le hfront hunits hlength, fun hdivided => hhalves ?_⟩
      exact hdivided.longer (hunits.drop _)

/-- Piece by piece, as long as there is room. -/
theorem engine_quotes_iff (f : List EnginePiece) (hf : ∀ p ∈ f, p.Sensible) (hsep : Separated f)
    (room : ℕ) :
    Quotes (f.map EnginePiece.quotation) (toCString (newStringLen ((message f).take room))) ↔
      Undivided room f := by
  induction f generalizing room with
  | nil => exact iff_of_true (by rw [message, List.map_nil]; simp [Formats.text]; rfl) trivial
  | cons p f ih =>
    obtain ⟨hp, hf⟩ := List.forall_mem_cons.mp hf
    have hrest : Separated f := by
      cases p with
      | words s => exact hsep
      | argument shown text => exact hsep.2
    have hmessage : message (p :: f) = p.piece.text ++ message f := rfl
    rw [hmessage, List.map_cons, List.take_append, Undivided]
    by_cases hroom : p.piece.text.length ≤ room
    · obtain ⟨cps, hcps⟩ := sensible_text hp
      have hread (rest : Bytes) : newStringLen (p.piece.text ++ rest) =
          newStringLen p.piece.text ++ newStringLen rest := by
        rw [hcps, newStringLen_bytes_append, newStringLen_bytes]
      rw [List.take_of_length_le hroom, hread, toCString_append (not_halves_of_separated hp hsep _),
        ← quotation_text hp, quotes_cons_iff (quotes_nil f), whole_quotation_iff hroom,
        ih hf hrest]
    · have hnone : room - p.piece.text.length = 0 := by omega
      rw [hnone, List.take_zero, List.append_nil, cut_quotation_iff hp,
        and_iff_left (undivided_zero f)]

theorem ascii_head (h : Ascii s) : ∀ x ∈ s.head?, x.toNat < 0x80 :=
  fun x hx => h x (List.mem_of_head? hx)

theorem engine_sensible (e : EngineError) : ∀ p ∈ e.format, p.Sensible := by
  have hthree {before after : Bytes} {p : EnginePiece} (h : Ascii before ∧ Ascii after)
      (hp : p.Sensible) : ∀ q ∈ [.words before, p, .words after], EnginePiece.Sensible q := by
    intro q hq
    simp only [List.mem_cons, List.not_mem_nil, or_false] at hq
    rcases hq with rfl | rfl | rfl
    · exact h.1
    · exact hp
    · exact h.2
  cases e with
  | resolveExport res exportName moduleName =>
    have hfive {s₁ s₂ s₃ : Bytes} (h : Ascii s₁ ∧ Ascii s₂ ∧ Ascii s₃) :
        ∀ q ∈ [.words s₁, .ofAtom exportName, .words s₂, .ofAtom moduleName, .words s₃],
          EnginePiece.Sensible q := by
      intro q hq
      simp only [List.mem_cons, List.not_mem_nil, or_false] at hq
      rcases hq with rfl | rfl | rfl | rfl | rfl
      · exact h.1
      · exact sensible_ofAtom exportName
      · exact h.2.1
      · exact sensible_ofAtom moduleName
      · exact h.2.2
    cases res <;> exact hfive (by decide)
  | ofAtom error before atom after known => exact hthree known (sensible_ofAtom atom)
  | ofText error before text after known => exact hthree known (sensible_ofText text)

theorem engine_separated (e : EngineError) : Separated e.format := by
  cases e with
  | resolveExport res exportName moduleName =>
    cases res <;>
      exact ⟨fun x hx => by cases hx; decide, fun x hx => by cases hx; decide, trivial⟩
  | ofAtom error before atom after known =>
    refine ⟨?_, trivial⟩
    have h := ascii_head known.2
    rwa [← List.append_nil after] at h
  | ofText error before text after known =>
    refine ⟨?_, trivial⟩
    have h := ascii_head known.2
    rwa [← List.append_nil after] at h

theorem ascii_nativeError (error : NativeError) : Ascii error.words := by cases error <;> decide

theorem worded_sound_iff (error : EngineError) (stack : Option Text) :
    (Publication.worded error stack).Sound ↔ (Publication.worded error stack).Clean := by
  have herror := ascii_nativeError error.error
  have hstr : (Publication.worded error stack).str =
      (Piece.lit error.error.words).text ++
        toCString (newStringLen ((message error.format).take 255)) := by
    show toCString (newStringLen _ ++ _) = _
    rw [toCString_append (not_halves_of_ascii herror _), toCString_ascii herror]
    rfl
  rw [sound_iff_of_some rfl, and_iff_right (show WellFormed (Publication.worded error stack).str
    from wellFormed_toCString _), hstr, quotes_cons_iff (quotes_nil _)]
  exact (and_iff_right trivial).trans
    (engine_quotes_iff error.format (engine_sensible error) (engine_separated error) 255)

-- ---------------------------------------------------------------------------
-- Soundness
-- ---------------------------------------------------------------------------

/-- What a call hands out is well formed, and quotes whole code points, exactly when no array and
no precision ends inside of a code point, and the bytes of a buffer that are shown are text. -/
theorem published_sound_iff (p : Publication) (h : p.Given) : p.Sound ↔ p.Clean := by
  cases p with
  | unfilled =>
    rw [sound_iff_of_none rfl]
    exact iff_of_true wellFormed_nil trivial
  | value text =>
    rw [sound_iff_of_none rfl]
    exact iff_of_true (wellFormed_toCString text) trivial
  | registered name =>
    rw [sound_iff_of_some rfl]
    have hname := wellFormed_toCString name
    refine iff_of_true ⟨wellFormed_untilNul hname, ?_⟩ trivial
    have hwhole := whole_quote (encoded_of_wellFormed hname)
    have hquote := quotes_text (List.forall_mem_singleton.mpr hwhole)
    rwa [text_quote_cons, Formats.text, List.flatMap_nil, List.append_nil] at hquote
  | bytecode kind data =>
    rw [sound_iff_of_none rfl]
    exact wellFormed_ascii_append_iff (ascii_bytecodeHeader kind)
  | failed message stack => exact failed_sound_iff message stack
  | taken kind name =>
    rw [sound_iff_of_some rfl]
    exact taken_sound_iff kind h
  | described message stack =>
    rw [sound_iff_of_none rfl]
    exact iff_of_true (wellFormed_toCString message) trivial
  | worded error stack => exact worded_sound_iff error stack
  | rethrown message stack => exact rethrown_sound_iff message stack
  | thrown error stack =>
    rw [sound_iff_of_some rfl, and_iff_right (show WellFormed (Publication.thrown error stack).str
      from wellFormed_toCString _)]
    exact readBack_quotes_iff error.ascii_error (thrown_plain error h) (thrown_wellFormed error h)

/-- A name of 129 bytes, whose last character has two. -/
def longName : Name := List.replicate 127 97 ++ [0xC3, 0xA9]

theorem wellFormed_longName : WellFormed longName := by
  refine (wellFormed_ascii_append_iff ?_).mpr ⟨[⟨0xE9, by decide⟩], .singleton _, by decide⟩
  intro b hb
  rw [List.eq_of_mem_replicate hb]
  decide

theorem published_sound_iff_long :
    WellFormed longName ∧
      ((Publication.taken .source longName).Sound ↔ Whole 128 (untilNul longName)) :=
  ⟨wellFormed_longName, published_sound_iff (.taken .source longName) wellFormed_longName⟩

/-- The message that such a name is registered already ends the name inside of its last
character, and is no text. -/
theorem taken_name_is_cut : ¬ ∀ p : Publication, p.Given → p.Sound := by
  intro h
  have hsound := h (.taken .source longName) wellFormed_longName
  have hwhole := (taken_sound_iff .source wellFormed_longName).mp ⟨hsound.str, hsound.quotes _ rfl⟩
  exact absurd hwhole (by decide)

end QuickJsKmp.PublishedText
