import Grayscale.Util.Bytes

/-!
# String literals of C

What a sequence of adjacent string literals denotes in C: trigraphs are replaced, an octal escape
takes up to three digits, a hexadecimal escape takes every digit that follows, and adjacent literals
are joined.
-/

namespace Grayscale

/-! ### Trigraphs -/

/-- The byte that a trigraph with the third byte `c` stands for. -/
def trigraphByte (c : UInt8) : Option UInt8 :=
  if c = byte '=' then some (byte '#')
  else if c = byte '/' then some (byte '\\')
  else if c = byte '\'' then some (byte '^')
  else if c = byte '(' then some (byte '[')
  else if c = byte ')' then some (byte ']')
  else if c = byte '!' then some (byte '|')
  else if c = byte '<' then some (byte '\x7b')
  else if c = byte '>' then some (byte '\x7d')
  else if c = byte '-' then some (byte '~')
  else none

/-- The first translation phase of C. -/
def replaceTrigraphs : Text → Text
  | a :: b :: c :: l =>
    if a = byte '?' ∧ b = byte '?' then
      match trigraphByte c with
      | some d => d :: replaceTrigraphs l
      | none => a :: replaceTrigraphs (b :: c :: l)
    else a :: replaceTrigraphs (b :: c :: l)
  | l => l

def NotDoubleQuestion (a b : UInt8) : Prop := ¬ (a = byte '?' ∧ b = byte '?')

theorem replaceTrigraphs_of_isChain {l : Text} (h : l.IsChain NotDoubleQuestion) :
    replaceTrigraphs l = l := by
  induction l with
  | nil => rfl
  | cons a l ih =>
    match l, h, ih with
    | [], _, _ => rfl
    | [_], _, _ => rfl
    | b :: c :: l, h, ih =>
      obtain ⟨hab, htail⟩ := List.isChain_cons_cons.mp h
      rw [replaceTrigraphs, if_neg hab, ih htail]

/-! ### The reader -/

/-- `0` to `7`. -/
def isOctalDigit (c : UInt8) : Bool := byte '0' ≤ c && c ≤ byte '7'

namespace CString

/-- Where the reader is: between literals, in a literal, after a backslash, or in an octal or
hexadecimal escape with the number of its digits and their value. -/
inductive State
  | outside
  | inside
  | escape
  | octal (digits value : ℕ)
  | hex (digits value : ℕ)

/-- The byte of a backslash with one letter or sign. -/
def simpleEscapeByte (c : UInt8) : Option UInt8 :=
  if c = byte 'n' then some 10
  else if c = byte 't' then some 9
  else if c = byte 'r' then some 13
  else if c = byte 'a' then some 7
  else if c = byte 'b' then some 8
  else if c = byte 'f' then some 12
  else if c = byte 'v' then some 11
  else if c = byte '\\' ∨ c = byte '"' ∨ c = byte '\'' ∨ c = byte '?' then some c
  else none

/-- A byte of a literal that no escape takes. -/
def insideStep (c : UInt8) : Option (Text × State) :=
  if c = byte '"' then some ([], .outside)
  else if c = byte '\\' then some ([], .escape)
  else if c = byte '\n' then none
  else some ([c], .inside)

/-- The end of a numeric escape, and the byte after it. -/
def finishEscape (value : ℕ) (c : UInt8) : Option (Text × State) :=
  if value ≤ 255 then (insideStep c).map fun r => (value.toUInt8 :: r.1, r.2) else none

/-- One byte of the reader: the bytes it completes, and where it is then. -/
def step : State → UInt8 → Option (Text × State)
  | .outside, c =>
    if c = byte '"' then some ([], .inside) else if c = byte ' ' then some ([], .outside) else none
  | .inside, c => insideStep c
  | .escape, c =>
    if isOctalDigit c then some ([], .octal 1 (hexDigitValue c))
    else if c = byte 'x' then some ([], .hex 0 0)
    else (simpleEscapeByte c).map fun b => ([b], .inside)
  | .octal digits value, c =>
    if digits < 3 ∧ isOctalDigit c = true then
      some ([], .octal (digits + 1) (8 * value + hexDigitValue c))
    else finishEscape value c
  | .hex digits value, c =>
    if isxdigit c then some ([], .hex (digits + 1) (16 * value + hexDigitValue c))
    else if digits = 0 then none
    else finishEscape value c

/-- The bytes of the literals from a state on. -/
def read : State → Text → Option Text
  | .outside, [] => some []
  | _, [] => none
  | s, c :: l => (step s c).bind fun r => (read r.2 l).map (r.1 ++ ·)

theorem read_cons (s : State) (c : UInt8) (l : Text) :
    read s (c :: l) = (step s c).bind fun r => (read r.2 l).map (r.1 ++ ·) := by
  cases s <;> rfl

variable {c : UInt8}

theorem read_cons_of_step {s s' : State} {out : Text} (h : step s c = some (out, s')) (l : Text) :
    read s (c :: l) = (read s' l).map (out ++ ·) := by
  rw [read_cons, h]
  rfl

theorem read_plain (hq : c ≠ byte '"') (hesc : c ≠ byte '\\') (hline : c ≠ byte '\n')
    (l : Text) : read .inside (c :: l) = (read .inside l).map (c :: ·) := by
  have hstep : step .inside c = some ([c], .inside) := by
    rw [step, insideStep, if_neg hq, if_neg hesc, if_neg hline]
  exact read_cons_of_step hstep l

theorem read_simple {b : UInt8} (hoctal : isOctalDigit c = false) (hx : c ≠ byte 'x')
    (hb : simpleEscapeByte c = some b) (l : Text) :
    read .inside (byte '\\' :: c :: l) = (read .inside l).map (b :: ·) := by
  have hback : step .inside (byte '\\') = some ([], .escape) := rfl
  have hlet : step .escape c = some ([b], .inside) := by
    rw [step, if_neg (by simp [hoctal]), if_neg hx, hb]
    rfl
  rw [read_cons_of_step hback, read_cons_of_step hlet, Option.map_map]
  rfl

theorem read_finishEscape {s : State} {value : ℕ} (hval : value ≤ 255)
    (hs : step s c = finishEscape value c) (l : Text) :
    read s (c :: l) = (read .inside (c :: l)).map (value.toUInt8 :: ·) := by
  rw [read_cons, read_cons, hs, finishEscape, if_pos hval]
  change ((insideStep c).map _).bind _ = ((insideStep c).bind _).map _
  cases insideStep c with
  | none => rfl
  | some r =>
    change (read r.2 l).map _ = ((read r.2 l).map _).map _
    rw [Option.map_map]
    rfl

variable {digits value : ℕ}

theorem read_octal_of_not (hval : value ≤ 255)
    (hc : ¬ (digits < 3 ∧ isOctalDigit c = true)) (l : Text) :
    read (.octal digits value) (c :: l) = (read .inside (c :: l)).map (value.toUInt8 :: ·) := by
  refine read_finishEscape hval ?_ l
  rw [step, if_neg hc]

theorem read_hex_of_not (hdig : digits ≠ 0) (hval : value ≤ 255)
    (hc : isxdigit c = false) (l : Text) :
    read (.hex digits value) (c :: l) = (read .inside (c :: l)).map (value.toUInt8 :: ·) := by
  refine read_finishEscape hval ?_ l
  rw [step, if_neg (by simp [hc]), if_neg hdig]

theorem read_octal_digit (hdig : digits < 3) (hc : isOctalDigit c = true)
    (l : Text) : read (.octal digits value) (c :: l) =
      read (.octal (digits + 1) (8 * value + hexDigitValue c)) l := by
  have hstep : step (.octal digits value) c =
      some ([], .octal (digits + 1) (8 * value + hexDigitValue c)) := by
    rw [step, if_pos ⟨hdig, hc⟩]
  rw [read_cons_of_step hstep]
  exact Option.map_id'

theorem read_hex_digit (hc : isxdigit c = true) (l : Text) : read (.hex digits value) (c :: l) =
      read (.hex (digits + 1) (16 * value + hexDigitValue c)) l := by
  have hstep : step (.hex digits value) c =
      some ([], .hex (digits + 1) (16 * value + hexDigitValue c)) := by
    rw [step, if_pos hc]
  rw [read_cons_of_step hstep]
  exact Option.map_id'

end CString

/-- The bytes that a text of adjacent string literals denotes. -/
def cStringBytes (text : Text) : Option Text := CString.read .outside (replaceTrigraphs text)

end Grayscale
