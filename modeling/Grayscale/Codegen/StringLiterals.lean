import Grayscale.Lexer.Strings
import Grayscale.Library.CStringLiteral

/-!
# String literals in the generated C

The text of a string literal goes to the C compiler as a C string literal, with a length beside it.
The emitter copies escapes, splits some and computes the length on its own; `ast_string_decode`
computes the bytes that the literal stands for.
-/

namespace Grayscale

open List

/-- A `NODE_STRING_VALUE`: the text of the literal, and whether it is a raw string. -/
structure StringValueNode where
  value : Text
  isRaw : Bool

/-- The loop over a C string that ends at its NUL. -/
def scanText {σ ω : Type*} (step : σ → Text → Scan.Round σ ω) (s : σ) (l : Text) :
    Scan.Result UInt8 σ ω :=
  Scan.run (fun s l => if byteAt l 0 = 0 then none else some (step s l)) s l

/-! ### `ast_string_decode` -/

/-- The byte of an escape with one letter or sign. -/
def decodeEscape (escape : UInt8) : UInt8 :=
  if escape = byte 'n' then 10
  else if escape = byte 't' then 9
  else if escape = byte 'r' then 13
  else if escape = byte '0' then 0
  else if escape = byte 'a' then 7
  else if escape = byte 'b' then 8
  else if escape = byte 'f' then 12
  else if escape = byte 'v' then 11
  else escape

/-- One round of `ast_string_decode`. -/
def decodeStep (_ : Unit) (l : Text) : Scan.Round Unit UInt8 :=
  if byteAt l 0 ≠ byte '\\' ∨ byteAt l 1 = 0 then ⟨byteAt l 0, (), 0⟩
  else if byteAt l 1 = byte 'x' then
    let digits := ((l.drop 2).take 2).takeWhile isxdigit
    ⟨(hexValue digits).toUInt8, (), 1 + digits.length⟩
  else ⟨decodeEscape (byteAt l 1), (), 1⟩

/-- `ast_string_decode`: the bytes of a literal. -/
def astStringDecode (node : StringValueNode) : Text :=
  if node.isRaw then node.value else (scanText decodeStep () node.value).outputs

/-! ### The emitter -/

def emitRawByte (c : UInt8) : Text :=
  if c = byte '\\' then bytes "\\\\"
  else if c = byte '"' then bytes "\\\""
  else if c = byte '\n' then bytes "\\n"
  else if c = byte '\r' then bytes "\\r"
  else if c = byte '\t' then bytes "\\t"
  else if c = byte '?' then bytes "\\?"
  else [c]

/-- One round of `emit_c_string_body` on an escaped literal. -/
def emitEscapedStep (_ : Unit) (l : Text) : Scan.Round Unit Text :=
  if byteAt l 0 = byte '\\' ∧ byteAt l 1 = byte 'x' ∧ isxdigit (byteAt l 2) = true then
    let digits := if isxdigit (byteAt l 3) then 2 else 1
    -- C would take a third digit, so the literal is broken in front of it.
    ⟨l.take (2 + digits) ++ (if isxdigit (byteAt l (2 + digits)) then bytes "\" \"" else []), (),
      1 + digits⟩
  else if byteAt l 0 = byte '\\' ∧ byteAt l 1 = byte '\\' then ⟨bytes "\\\\", (), 1⟩
  else if byteAt l 0 = byte '\\' ∧ byteAt l 1 = byte '$' then ⟨[byte '$'], (), 1⟩
  else if byteAt l 0 = byte '\n' then ⟨bytes "\\n", (), 0⟩
  else if byteAt l 0 = byte '\r' then ⟨bytes "\\r", (), 0⟩
  else if byteAt l 0 = byte '?' then ⟨bytes "\\?", (), 0⟩
  else ⟨[byteAt l 0], (), 0⟩

def emitCStringBody (node : StringValueNode) : Text :=
  if node.isRaw then node.value.flatMap emitRawByte
  else (scanText emitEscapedStep () node.value).outputs.flatten

/-- One round of the loop of `emit_string_value` that looks for NUL bytes and counts bytes. It takes
raw strings for escaped ones, and a hexadecimal escape other than `\x00` for three bytes. -/
def scanNulStep (s : Bool × ℕ) (l : Text) : Scan.Round (Bool × ℕ) Unit :=
  if byteAt l 0 = byte '\\' ∧ byteAt l 1 = byte 'x' ∧ byteAt l 2 = byte '0' ∧ byteAt l 3 = byte '0'
    then ⟨(), (true, s.2 + 1), 3⟩
  else if byteAt l 0 = byte '\\' ∧ byteAt l 1 = byte '0' then ⟨(), (true, s.2 + 1), 1⟩
  else if byteAt l 0 = byte '\\' ∧ byteAt l 1 ≠ 0 then ⟨(), (s.1, s.2 + 1), 1⟩
  else ⟨(), (s.1, s.2 + 1), 0⟩

/-- `has_null` and `string_length` of `emit_string_value`. -/
def scanNulBytes (value : Text) : Bool × ℕ := (scanText scanNulStep (false, 0) value).state

/-- Where the length of an emitted string comes from: `strlen` in `gray_string_lit`, `sizeof` in
`GRAY_STRING_LIT`, or a number. -/
inductive EmittedLength
  | measured
  | sized
  | explicit (length : ℕ)

/-- A string in the generated C: its literals, and its length. -/
structure EmittedString where
  text : Text
  length : EmittedLength

def quoted (body : Text) : Text := byte '"' :: body ++ [byte '"']

/-- `emit_string_value` at an indentation; at file scope it is zero. -/
def emitStringValue (indent : ℕ) (node : StringValueNode) : EmittedString :=
  let hasNull := (scanNulBytes node.value).1
  { text := quoted (emitCStringBody node)
    length :=
      if hasNull ∧ 0 < indent then .explicit (scanNulBytes node.value).2
      else if indent = 0 then .sized
      else .measured }

def emitEnumStringValue (node : StringValueNode) : EmittedString :=
  { text := quoted (emitCStringBody node)
    length := .explicit (astStringDecode node).length }

/-- The bytes that a length takes of the array of a literal, which has a NUL at its end; reading
past that is undefined. -/
def EmittedLength.takes (array : Text) : EmittedLength → Option Text
  | .measured => some (array.takeWhile fun c => c != 0)
  | .sized => some array
  | .explicit length =>
    if length ≤ array.length + 1 then some ((array ++ [0]).take length) else none

def EmittedString.denotes (emitted : EmittedString) : Option Text :=
  (cStringBytes emitted.text).bind fun array => emitted.length.takes array

/-! ### The literals of the lexer -/

/-- `string_has_interpolation`, entered at a byte that an escape passes over or at another one. -/
def stringHasInterpolation : Bool → Text → Bool
  | _, [] => false
  | true, _ :: l => stringHasInterpolation false l
  | false, c :: l =>
    if c = byte '$' ∧ byteAt l 0 = byte '\x7b' then true
    else stringHasInterpolation (c = byte '\\') l

/-- The literals that the lexer accepts and the parser makes a `NODE_STRING_VALUE` of. -/
inductive AcceptsString : StringValueNode → Prop
  | escaped (l : Text) (htype : (readString l).type = .string)
      (hplain : stringHasInterpolation false (readString l).literal = false) :
      AcceptsString ⟨(readString l).literal, false⟩
  | raw (l : Text) (htype : (readRawString l).type = .rawString) :
      AcceptsString ⟨(readRawString l).literal, true⟩

/-- A byte of an escaped literal that stands for itself. -/
def isPlainStringByte (c : UInt8) : Bool :=
  c != 0 && c != byte '\\' && c != byte '"' && c != byte '\n'

inductive EscapePiece
  | plain (c : UInt8) (h : isPlainStringByte c = true)
  | simple (escape : UInt8) (h : isStringEscape escape = true)
  | hex (high low : UInt8) (h : isxdigit high = true ∧ isxdigit low = true)

namespace EscapePiece

def text : EscapePiece → Text
  | plain c _ => [c]
  | simple escape _ => [byte '\\', escape]
  | hex high low _ => [byte '\\', byte 'x', high, low]

/-- The byte that a piece stands for. -/
def decoded : EscapePiece → UInt8
  | plain c _ => c
  | simple escape _ => decodeEscape escape
  | hex high low _ => (hexDigitValue high * 16 + hexDigitValue low).toUInt8

/-- The piece is a plain byte of which `P` holds. -/
def isPlainWith (P : UInt8 → Bool) : EscapePiece → Bool
  | plain c _ => P c
  | simple _ _ | hex _ _ _ => false

def emitted (next : List EscapePiece) : EscapePiece → Text
  | plain c _ =>
    if c = byte '\r' then bytes "\\r" else if c = byte '?' then bytes "\\?" else [c]
  | simple escape _ => if escape = byte '$' then [byte '$'] else [byte '\\', escape]
  | hex high low _ => [byte '\\', byte 'x', high, low] ++
      if next.head?.any (isPlainWith isxdigit) then bytes "\" \"" else []

end EscapePiece

def piecesText (pieces : List EscapePiece) : Text := pieces.flatMap EscapePiece.text

def piecesEmitted : List EscapePiece → Text
  | [] => []
  | piece :: next => piece.emitted next ++ piecesEmitted next

/-! ### The loops on pieces -/

section ScanText

variable {σ ω : Type*} {step : σ → Text → Scan.Round σ ω} {s : σ}

theorem scanText_nil : scanText step s [] = ⟨[], s, []⟩ := rfl

theorem scanText_cons {c : UInt8} (hc : c ≠ 0) (l : Text) :
    scanText step s (c :: l) = (scanText step (step s (c :: l)).state
      (l.drop (step s (c :: l)).extra)).cons (step s (c :: l)).output := by
  have hrnd : (fun s l => if byteAt l 0 = 0 then none else some (step s l)) s (c :: l) =
      some (step s (c :: l)) := if_neg hc
  rw [scanText, Scan.run_cons _ hrnd]
  rfl

theorem scanText_append {u : Text} {round : Scan.Round σ ω} {l : Text} (hu : byteAt (u ++ l) 0 ≠ 0)
    (hrnd : step s (u ++ l) = round) (hextra : u.length = round.extra + 1) :
    scanText step s (u ++ l) = (scanText step round.state l).cons round.output := by
  cases u with
  | nil => cases hextra
  | cons c u =>
    have hc : c ≠ 0 := hu
    rw [cons_append, scanText_cons hc, ← cons_append, hrnd]
    have hdrop : (u ++ l).drop round.extra = l := by
      rw [← Nat.succ.inj hextra]
      exact drop_left
    rw [hdrop]

end ScanText

namespace EscapePiece

variable {c : UInt8}

theorem isPlainByte_iff : isPlainStringByte c = true ↔
    c ≠ 0 ∧ c ≠ byte '\\' ∧ c ≠ byte '"' ∧ c ≠ byte '\n' := by
  simp only [isPlainStringByte, Bool.and_eq_true, bne_iff_ne, and_assoc]

theorem isStringEscape_cases (h : isStringEscape c = true) :
    c = byte 'n' ∨ c = byte 't' ∨ c = byte 'r' ∨ c = byte '\\' ∨ c = byte '"' ∨ c = byte '\'' ∨
      c = byte '0' ∨ c = byte 'a' ∨ c = byte 'b' ∨ c = byte 'f' ∨ c = byte 'v' ∨ c = byte '$' := by
  simpa only [isStringEscape, contains_iff_mem, mem_cons, not_mem_nil, or_false]
    using h

theorem isStringEscape_ne (h : isStringEscape c = true) : c ≠ byte 'x' ∧ c ≠ 0 := by
  rcases isStringEscape_cases h with
    rfl | rfl | rfl | rfl | rfl | rfl | rfl | rfl | rfl | rfl | rfl | rfl <;> decide

theorem byteAt_text (piece : EscapePiece) (l : Text) :
    byteAt (piece.text ++ l) 0 ≠ 0 ∧ ∀ P : UInt8 → Bool, P (byte '\\') = false →
      P (byteAt (piece.text ++ l) 0) = piece.isPlainWith P := by
  cases piece with
  | plain c h => exact ⟨(isPlainByte_iff.mp h).1, fun _ _ => rfl⟩
  | simple escape h => exact ⟨(by decide : byte '\\' ≠ 0), fun _ hP => hP⟩
  | hex high low h => exact ⟨(by decide : byte '\\' ≠ 0), fun _ hP => hP⟩

end EscapePiece

variable (piece : EscapePiece)

theorem piecesText_cons (pieces : List EscapePiece) :
    piecesText (piece :: pieces) = piece.text ++ piecesText pieces := flatMap_cons

variable (pieces : List EscapePiece) {l : Text}

theorem byteAt_piecesText {P : UInt8 → Bool}
    (hl : P (byteAt l 0) = false) (hesc : P (byte '\\') = false) :
    P (byteAt (piecesText pieces ++ l) 0) = pieces.head?.any (EscapePiece.isPlainWith P) := by
  cases pieces with
  | nil => exact hl
  | cons piece pieces =>
    rw [piecesText_cons, append_assoc]
    exact (piece.byteAt_text _).2 P hesc

theorem emitEscaped_piece (next : List EscapePiece) {l : Text}
    (hl : isxdigit (byteAt l 0) = false) :
    (scanText emitEscapedStep () (piece.text ++ (piecesText next ++ l))).outputs.flatten =
      piece.emitted next ++ (scanText emitEscapedStep () (piecesText next ++ l)).outputs.flatten := by
  cases piece with
  | plain c h =>
    obtain ⟨hzero, hesc, -, hline⟩ := EscapePiece.isPlainByte_iff.mp h
    have hrnd : (emitEscapedStep () ([c] ++ (piecesText next ++ l))) =
        ⟨EscapePiece.emitted next (.plain c h), (), 0⟩ := by
      have hbyte : byteAt ([c] ++ (piecesText next ++ l)) 0 = c := rfl
      rw [emitEscapedStep, hbyte, if_neg fun h => hesc h.1, if_neg fun h => hesc h.1,
        if_neg fun h => hesc h.1, if_neg hline, EscapePiece.emitted]
      by_cases hret : c = byte '\r'
      · rw [if_pos hret, if_pos hret]
      · rw [if_neg hret, if_neg hret]
        by_cases hquest : c = byte '?'
        · rw [if_pos hquest, if_pos hquest]
        · rw [if_neg hquest, if_neg hquest]
    have hfst : byteAt ([c] ++ (piecesText next ++ l)) 0 ≠ 0 := hzero
    rw [EscapePiece.text, scanText_append hfst hrnd rfl]
    simp
  | simple escape h =>
    have hcases := EscapePiece.isStringEscape_cases h
    have hfst : ∀ u v : Text, byteAt (byte '\\' :: u ++ v) 0 ≠ 0 := fun _ _ =>
      (by decide : byte '\\' ≠ 0)
    by_cases hback : escape = byte '\\'
    · subst hback
      rw [EscapePiece.text, scanText_append (hfst _ _) rfl rfl]
      rfl
    by_cases hdollar : escape = byte '$'
    · subst hdollar
      rw [EscapePiece.text, scanText_append (hfst _ _) rfl rfl]
      rfl
    -- Of the other escapes the backslash and the letter take a round each.
    have hlet : ∀ v : Text, emitEscapedStep () (byte '\\' :: escape :: v) =
        ⟨[byte '\\'], (), 0⟩ ∧ emitEscapedStep () (escape :: v) = ⟨[escape], (), 0⟩ ∧
          escape ≠ 0 := by
      intro v
      rcases hcases with rfl | rfl | rfl | rfl | rfl | rfl | rfl | rfl | rfl | rfl | rfl | rfl
      all_goals first | exact absurd rfl hback | exact absurd rfl hdollar | skip
      all_goals exact ⟨rfl, rfl, by decide⟩
    obtain ⟨hbyte, hsnd, hzero⟩ := hlet (piecesText next ++ l)
    rw [EscapePiece.text, cons_append, singleton_append,
      scanText_cons (by decide : byte '\\' ≠ 0), hbyte, drop_zero,
      scanText_cons hzero, hsnd, drop_zero, EscapePiece.emitted, if_neg hdollar]
    rfl
  | hex high low h =>
    have hhex : isxdigit (byteAt (piecesText next ++ l) 0) =
        next.head?.any (EscapePiece.isPlainWith isxdigit) :=
      byteAt_piecesText next hl (by decide)
    have hrnd : emitEscapedStep () ([byte '\\', byte 'x', high, low] ++ (piecesText next ++ l)) =
        ⟨EscapePiece.emitted next (.hex high low h), (), 3⟩ := by
      simp only [emitEscapedStep, cons_append, nil_append, byteAt_zero,
        byteAt_succ, h.1, h.2, and_self, if_true, hhex, EscapePiece.emitted, take_succ_cons,
        take_zero]
    have hfst : byteAt ([byte '\\', byte 'x', high, low] ++ (piecesText next ++ l)) 0 ≠ 0 :=
      (by decide : byte '\\' ≠ 0)
    rw [EscapePiece.text, scanText_append hfst hrnd rfl]
    simp

theorem emitEscaped_pieces
    (hl : isxdigit (byteAt l 0) = false) :
    (scanText emitEscapedStep () (piecesText pieces ++ l)).outputs.flatten =
      piecesEmitted pieces ++ (scanText emitEscapedStep () l).outputs.flatten := by
  induction pieces with
  | nil => rfl
  | cons piece next ih =>
    rw [piecesText_cons, append_assoc, emitEscaped_piece piece next hl, ih, piecesEmitted,
      append_assoc]

theorem emitCStringBody_pieces :
    emitCStringBody ⟨piecesText pieces, false⟩ = piecesEmitted pieces := by
  have hpcs := emitEscaped_pieces pieces (show isxdigit (byteAt [] 0) = false by decide)
  rw [append_nil] at hpcs
  exact hpcs.trans (append_nil _)

theorem emitCStringBody_nul (l : Text) :
    emitCStringBody ⟨piecesText pieces ++ byte '\\' :: 0 :: l, false⟩ =
      piecesEmitted pieces ++ [byte '\\'] :=
  emitEscaped_pieces pieces (show isxdigit (byte '\\') = false by decide)

namespace EscapePiece

/-- The piece is a NUL byte for the loop that counts bytes. -/
def isNul : EscapePiece → Bool
  | plain _ _ => false
  | simple escape _ => escape = byte '0'
  | hex high low _ => high = byte '0' && low = byte '0'

def counted : EscapePiece → ℕ
  | plain _ _ | simple _ _ => 1
  | hex high low _ => if high = byte '0' ∧ low = byte '0' then 1 else 3

end EscapePiece

theorem scanNul_piece (next : List EscapePiece) (s : Bool × ℕ) :
    (scanText scanNulStep s (piece.text ++ piecesText next)).state =
      (scanText scanNulStep (s.1 || piece.isNul, s.2 + piece.counted) (piecesText next)).state := by
  cases piece with
  | plain c h =>
    obtain ⟨hzero, hesc, -, -⟩ := EscapePiece.isPlainByte_iff.mp h
    have hrnd : scanNulStep s ([c] ++ piecesText next) = ⟨(), (s.1, s.2 + 1), 0⟩ := by
      have hbyte : byteAt ([c] ++ piecesText next) 0 = c := rfl
      rw [scanNulStep, hbyte, if_neg fun h => hesc h.1, if_neg fun h => hesc h.1,
        if_neg fun h => hesc h.1]
    have hfst : byteAt ([c] ++ piecesText next) 0 ≠ 0 := hzero
    rw [EscapePiece.text, scanText_append hfst hrnd rfl, EscapePiece.isNul, Bool.or_false]
    rfl
  | simple escape h =>
    have hne := EscapePiece.isStringEscape_ne h
    have hfst : byteAt ([byte '\\', escape] ++ piecesText next) 0 ≠ 0 := (by decide : byte '\\' ≠ 0)
    have hlet : byteAt ([byte '\\', escape] ++ piecesText next) 1 = escape := rfl
    have hrnd : scanNulStep s ([byte '\\', escape] ++ piecesText next) =
        ⟨(), (s.1 || decide (escape = byte '0'), s.2 + 1), 1⟩ := by
      rw [scanNulStep, hlet, if_neg fun h => hne.1 h.2.1]
      by_cases hnul : escape = byte '0'
      · rw [if_pos ⟨rfl, hnul⟩, decide_eq_true hnul, Bool.or_true]
      · rw [if_neg fun h => hnul h.2, if_pos ⟨rfl, hne.2⟩, decide_eq_false hnul, Bool.or_false]
    rw [EscapePiece.text, scanText_append hfst hrnd rfl]
    rfl
  | hex high low h =>
    have hfst : ∀ l, byteAt ([byte '\\', byte 'x'] ++ l) 0 ≠ 0 := fun _ =>
      (by decide : byte '\\' ≠ 0)
    by_cases hnul : high = byte '0' ∧ low = byte '0'
    · obtain ⟨rfl, rfl⟩ := hnul
      have hrnd : scanNulStep s ([byte '\\', byte 'x', byte '0', byte '0'] ++ piecesText next) =
          ⟨(), (true, s.2 + 1), 3⟩ := rfl
      have hfour : byteAt ([byte '\\', byte 'x', byte '0', byte '0'] ++ piecesText next) 0 ≠ 0 :=
        hfst _
      rw [EscapePiece.text, scanText_append hfour hrnd rfl]
      simp [EscapePiece.isNul, EscapePiece.counted]
    · -- The loop takes the backslash with the letter, and each digit by itself.
      have hdig : ∀ c, isxdigit c = true → c ≠ 0 ∧ c ≠ byte '\\' := by
        intro c hc
        refine ⟨?_, ?_⟩
        · rintro rfl
          exact absurd hc (by decide)
        · rintro rfl
          exact absurd hc (by decide)
      have hpl : ∀ c, isxdigit c = true → ∀ (t : Bool × ℕ) (l : Text),
          scanNulStep t (c :: l) = ⟨(), (t.1, t.2 + 1), 0⟩ := by
        intro c hc t l
        rw [scanNulStep, byteAt_zero, if_neg fun h => (hdig c hc).2 h.1,
          if_neg fun h => (hdig c hc).2 h.1, if_neg fun h => (hdig c hc).2 h.1]
      have hrnd : scanNulStep s ([byte '\\', byte 'x'] ++ high :: low :: piecesText next) =
          ⟨(), (s.1, s.2 + 1), 1⟩ := by
        have hlet : byteAt ([byte '\\', byte 'x'] ++ high :: low :: piecesText next) 1 = byte 'x' :=
          rfl
        have hnotNul : ¬ (byteAt ([byte '\\', byte 'x'] ++ high :: low :: piecesText next) 0 =
            byte '\\' ∧ byte 'x' = byte '0') := fun h => absurd h.2 (by decide)
        rw [scanNulStep, hlet, if_neg fun h => hnul h.2.2, if_neg hnotNul, if_pos ⟨rfl, by decide⟩]
      change (scanText scanNulStep s ([byte '\\', byte 'x'] ++ high :: low :: piecesText next)).state
        = _
      rw [scanText_append (hfst _) hrnd rfl, Scan.Result.cons_state,
        scanText_cons (hdig high h.1).1, hpl high h.1, Scan.Result.cons_state, drop_zero,
        scanText_cons (hdig low h.2).1, hpl low h.2, Scan.Result.cons_state, drop_zero]
      have hisNul : (EscapePiece.hex high low h).isNul = false := by
        simpa [EscapePiece.isNul] using hnul
      rw [hisNul, EscapePiece.counted, if_neg hnul, Bool.or_false]

theorem scanNulBytes_pieces : scanNulBytes (piecesText pieces) =
      (pieces.any EscapePiece.isNul, (pieces.map EscapePiece.counted).sum) := by
  have hgeneral : ∀ s : Bool × ℕ, (scanText scanNulStep s (piecesText pieces)).state =
      (s.1 || pieces.any EscapePiece.isNul, s.2 + (pieces.map EscapePiece.counted).sum) := by
    induction pieces with
    | nil => intro s; simp [piecesText, scanText_nil]
    | cons piece next ih =>
      intro s
      rw [piecesText_cons, scanNul_piece, ih, any_cons, map_cons, sum_cons,
        Bool.or_assoc, Nat.add_assoc]
  have hst := hgeneral (false, 0)
  rwa [Bool.false_or, Nat.zero_add] at hst

theorem astStringDecode_pieces :
    astStringDecode ⟨piecesText pieces, false⟩ = pieces.map EscapePiece.decoded := by
  change (scanText decodeStep () (piecesText pieces)).outputs = _
  induction pieces with
  | nil => rfl
  | cons piece next ih =>
    rw [piecesText_cons, map_cons, ← ih]
    cases piece with
    | plain c h =>
      obtain ⟨hzero, hesc, -, -⟩ := EscapePiece.isPlainByte_iff.mp h
      have hrnd : decodeStep () ([c] ++ piecesText next) = ⟨c, (), 0⟩ := if_pos (.inl hesc)
      have hfst : byteAt ([c] ++ piecesText next) 0 ≠ 0 := hzero
      rw [EscapePiece.text, scanText_append hfst hrnd rfl]
      rfl
    | simple escape h =>
      have hne := EscapePiece.isStringEscape_ne h
      have hfst : byteAt ([byte '\\', escape] ++ piecesText next) 0 ≠ 0 :=
        (by decide : byte '\\' ≠ 0)
      have hrnd : decodeStep () ([byte '\\', escape] ++ piecesText next) =
          ⟨decodeEscape escape, (), 1⟩ := by
        have hlet : byteAt ([byte '\\', escape] ++ piecesText next) 1 = escape := rfl
        rw [decodeStep, hlet, if_neg (by simp [hne.2]), if_neg hne.1]
      rw [EscapePiece.text, scanText_append hfst hrnd rfl]
      rfl
    | hex high low h =>
      have hfst : byteAt ([byte '\\', byte 'x', high, low] ++ piecesText next) 0 ≠ 0 :=
        (by decide : byte '\\' ≠ 0)
      have hrnd : decodeStep () ([byte '\\', byte 'x', high, low] ++ piecesText next) =
          ⟨(EscapePiece.hex high low h).decoded, (), 3⟩ := by
        have hdig : ((([byte '\\', byte 'x', high, low] ++ piecesText next).drop 2).take
            2).takeWhile isxdigit = [high, low] := by
          simp [h.1, h.2]
        have hlet : byteAt ([byte '\\', byte 'x', high, low] ++ piecesText next) 1 = byte 'x' := rfl
        rw [decodeStep, if_neg (by simp), if_pos hlet, hdig]
        simp [EscapePiece.decoded, hexValue]
      rw [EscapePiece.text, scanText_append hfst hrnd rfl]
      rfl

/-! ### Accepted literals -/

/-- The text of pieces, or of pieces in front of a backslash and a NUL byte. -/
inductive PiecesLiteral : Text → Prop
  | pieces (pieces : List EscapePiece) : PiecesLiteral (piecesText pieces)
  | nul (pieces : List EscapePiece) (l : Text) :
    PiecesLiteral (piecesText pieces ++ byte '\\' :: 0 :: l)

theorem piecesText_append (a b : List EscapePiece) :
    piecesText (a ++ b) = piecesText a ++ piecesText b := flatMap_append

theorem PiecesLiteral.append (h : PiecesLiteral l) : PiecesLiteral (piecesText pieces ++ l) := by
  cases h with
  | pieces next => exact piecesText_append pieces next ▸ .pieces (pieces ++ next)
  | nul next l =>
    rw [← append_assoc, ← piecesText_append]
    exact .nul (pieces ++ next) l

theorem exists_pieces_hexEscape (l : Text) : ∃ pieces, piecesText pieces = l.flatMap hexEscape := by
  have hdig : ∀ n : ℕ, n < 16 → isxdigit (hexDigit n) = true := by decide
  induction l with
  | nil => exact ⟨[], rfl⟩
  | cons c l ih =>
    obtain ⟨pieces, hpcs⟩ := ih
    have hc : c.toNat < 256 := c.toNat_lt
    refine ⟨.hex (hexDigit (c.toNat / 16)) (hexDigit (c.toNat % 16))
      ⟨hdig _ (by omega), hdig _ (by omega)⟩ :: pieces, ?_⟩
    rw [piecesText_cons, hpcs]
    rfl

/-- A round without an error gives the text of pieces, or a backslash with a NUL byte. -/
inductive RoundLiteral (round : Scan.Round StringState (List StringItem)) : Prop
  | pieces (pieces : List EscapePiece) (h : itemsLiteral round.output = piecesText pieces)
  | nul (h : itemsLiteral round.output = [byte '\\', 0])

theorem unicodeRound_literal {s : StringState} {l : Text}
    (h : (unicodeEscapeRound s l).state.error = none) : RoundLiteral (unicodeEscapeRound s l) := by
  unfold unicodeEscapeRound at h ⊢
  dsimp only at h ⊢
  split_ifs at h ⊢
  all_goals first
    | cases h
    | skip
  obtain ⟨pieces, hpcs⟩ := exists_pieces_hexEscape (utf8Encode (hexValue ((l.drop 3).takeWhile isxdigit)))
  refine .pieces pieces ?_
  rw [hpcs, itemsLiteral]
  exact append_nil _

theorem bytesRound_literal (s next : StringState) {source : Text} (piece : EscapePiece)
    (h : piece.text = source) : RoundLiteral (s.bytesRound next source) := by
  refine .pieces [piece] ?_
  rw [piecesText, flatMap_singleton, h]
  exact literal_map_byteItem s source

theorem exists_cons_of_ne_zero (h : byteAt l 0 ≠ 0) : ∃ c m, l = c :: m := by
  obtain ⟨m, hm⟩ := cons_of_byteAt (l := l) rfl h
  exact ⟨_, m, hm⟩

theorem escapeRound_literal {s : StringState} {l : Text}
    (h : (escapeRound s (byte '\\' :: l)).state.error = none) :
    RoundLiteral (escapeRound s (byte '\\' :: l)) := by
  unfold escapeRound at h ⊢
  dsimp only at h ⊢
  simp only [byteAt_succ] at h ⊢
  by_cases hunicode : byteAt l 0 = byte 'u' ∧ s.braceDepth = 0
  · rw [if_pos hunicode] at h ⊢
    exact unicodeRound_literal h
  rw [if_neg hunicode] at h ⊢
  by_cases hx : byteAt l 0 = byte 'x'
  · obtain ⟨l, rfl⟩ := cons_of_byteAt hx (by decide)
    rw [if_pos hx] at h ⊢
    simp only [byteAt_succ] at h ⊢
    by_cases hhigh : isxdigit (byteAt l 0) = true
    · obtain ⟨high, l, rfl⟩ := exists_cons_of_ne_zero (isLineEnd_of_isxdigit hhigh).1
      rw [byteAt_zero] at hhigh h ⊢
      rw [if_neg (by simp [hhigh])] at h ⊢
      simp only [byteAt_succ] at h ⊢
      by_cases hlow : isxdigit (byteAt l 0) = true
      · obtain ⟨low, l, rfl⟩ := exists_cons_of_ne_zero (isLineEnd_of_isxdigit hlow).1
        rw [byteAt_zero] at hlow ⊢
        rw [if_neg (by simp [hlow])]
        exact bytesRound_literal s s (.hex high low ⟨hhigh, hlow⟩) rfl
      · rw [if_pos (by simp [hlow])] at h
        cases h
    · rw [if_pos (by simp [hhigh])] at h
      cases h
  rw [if_neg hx] at h ⊢
  by_cases hnul : byteAt l 0 = 0
  · rw [if_pos hnul]
    exact .nul (literal_map_byteItem s [byte '\\', 0])
  rw [if_neg hnul] at h ⊢
  obtain ⟨escape, l, rfl⟩ := exists_cons_of_ne_zero hnul
  by_cases hesc : isStringEscape escape = true
  · rw [byteAt_zero, if_neg (by simp [hesc])]
    exact bytesRound_literal s s (.simple escape hesc) rfl
  · rw [byteAt_zero, if_pos (by simp [hesc])] at h
    cases h

variable (s : StringState)

theorem escapeRound_state (l : Text) :
    (escapeRound s l).state = s ∨ (escapeRound s l).state.error ≠ none ∧
      (escapeRound s l).state.braceDepth = s.braceDepth := by
  unfold escapeRound unicodeEscapeRound
  dsimp only
  split_ifs
  all_goals first
    | exact .inl rfl
    | exact .inr ⟨Option.some_ne_none _, rfl⟩

theorem error_of_run_stringStep (l : Text)
    (h : (Scan.run stringStep s l).state.error = none) : s.error = none := by
  revert h
  refine Scan.run_induct stringStep (P := fun s _ r => r.state.error = none → s.error = none)
    (fun _ h => h) (fun _ _ _ _ h => h) ?_ s l
  intro s c l round hrnd ih h
  have herr := ih h
  cases stringStep_cases hrnd with
  | escape =>
    rcases escapeRound_state s (byte '\\' :: l) with hsta | ⟨hsta, -⟩
    · exact hsta ▸ herr
    · exact absurd herr hsta
  | openBody => exact herr
  | nested => exact herr
  | openBrace => exact herr
  | closeBrace => exact herr
  | plain => exact herr

theorem hasInterpolation_piece
    (h : stringHasInterpolation false (piece.text ++ l) = false) :
    stringHasInterpolation false l = false := by
  cases piece with
  | plain c hc =>
    obtain ⟨-, hesc, -, -⟩ := EscapePiece.isPlainByte_iff.mp hc
    rw [EscapePiece.text, singleton_append, stringHasInterpolation] at h
    split_ifs at h
    rwa [decide_eq_false hesc] at h
  | simple escape hesc => exact h
  | hex high low hhex =>
    have hdig : ∀ c, isxdigit c = true → c ≠ byte '$' ∧ c ≠ byte '\\' := by
      intro c hc
      refine ⟨?_, ?_⟩
      · rintro rfl
        exact absurd hc (by decide)
      · rintro rfl
        exact absurd hc (by decide)
    change stringHasInterpolation false (high :: low :: l) = false at h
    rw [stringHasInterpolation, if_neg fun h => (hdig high hhex.1).1 h.1,
      decide_eq_false (hdig high hhex.1).2, stringHasInterpolation,
      if_neg fun h => (hdig low hhex.2).1 h.1, decide_eq_false (hdig low hhex.2).2] at h
    exact h

theorem hasInterpolation_pieces
    (h : stringHasInterpolation false (piecesText pieces ++ l) = false) :
    stringHasInterpolation false l = false := by
  induction pieces with
  | nil => exact h
  | cons piece pieces ih =>
    rw [piecesText_cons, append_assoc] at h
    exact ih (hasInterpolation_piece piece h)

theorem piecesLiteral_of_run (l : Text) (hdep : s.braceDepth = 0)
    (herr : (Scan.run stringStep s l).state.error = none)
    (hpl : stringHasInterpolation false
      (itemsLiteral (Scan.run stringStep s l).outputs.flatten) = false) :
    PiecesLiteral (itemsLiteral (Scan.run stringStep s l).outputs.flatten) := by
  revert hdep herr hpl
  refine Scan.run_induct stringStep (P := fun s _ r => s.braceDepth = 0 → r.state.error = none →
      stringHasInterpolation false (itemsLiteral r.outputs.flatten) = false →
        PiecesLiteral (itemsLiteral r.outputs.flatten))
    (fun _ _ _ _ => .pieces []) (fun _ _ _ _ _ _ _ => .pieces []) ?_ s l
  intro s c l round hrnd ih hdep herr hpl
  rw [Scan.Result.cons_state] at herr
  rw [Scan.Result.cons_outputs, flatten_cons, literal_append] at hpl ⊢
  cases stringStep_cases hrnd with
  | escape =>
    have hsta := error_of_run_stringStep _ _ herr
    have hsame : (escapeRound s (byte '\\' :: l)).state = s :=
      (escapeRound_state s _).resolve_right fun h => h.1 hsta
    cases escapeRound_literal hsta with
    | pieces pieces hpcs =>
      rw [hpcs] at hpl ⊢
      have hdep' : (escapeRound s (byte '\\' :: l)).state.braceDepth = 0 := by
        rw [hsame]
        exact hdep
      exact (ih hdep' herr (hasInterpolation_pieces pieces hpl)).append pieces
    | nul hnul =>
      rw [hnul]
      exact .nul [] _
  | openBody _ hopen =>
    rw [if_pos hdep] at hpl
    cases hpl
  | nested _ _ _ hin => omega
  | openBrace _ hin => omega
  | closeBrace _ hin => omega
  | plain _ _ h =>
    obtain ⟨hq, hline⟩ := h.outside hdep
    have hbyte : isPlainStringByte c = true :=
      EscapePiece.isPlainByte_iff.mpr ⟨h.ne_nul, h.ne_backslash, hq, hline⟩
    have hpc : itemsLiteral [s.byteItem c] = piecesText [.plain c hbyte] :=
      literal_map_byteItem s [c]
    rw [hpc] at hpl ⊢
    exact (ih hdep herr (hasInterpolation_pieces _ hpl)).append _

theorem piecesLiteral_of_string (htype : (readString l).type = .string)
    (hpl : stringHasInterpolation false (readString l).literal = false) :
    PiecesLiteral (readString l).literal := by
  have hread : (readString l).type = .string → stringError (scanString (l.drop 1)) = none ∧
      (readString l).literal = itemsLiteral (scanString (l.drop 1)).outputs.flatten := by
    intro h
    unfold readString at h ⊢
    dsimp only at h ⊢
    split_ifs at h ⊢
    · cases herr : stringError (scanString (l.drop 1)) with
      | none => exact ⟨rfl, rfl⟩
      | some e =>
        rw [herr] at h
        cases h
    · cases h
  obtain ⟨herr, hlit⟩ := hread htype
  rw [hlit] at hpl ⊢
  refine piecesLiteral_of_run _ _ rfl ?_ hpl
  unfold stringError at herr
  rw [Option.orElse_eq_orElse, Option.orElse_eq_or, Option.or_eq_none_iff] at herr
  have hsta := herr.1
  split_ifs at hsta
  exact hsta

end Grayscale
