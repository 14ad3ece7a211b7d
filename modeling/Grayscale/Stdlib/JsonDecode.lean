import Grayscale.Library.JsonStrings
import Grayscale.Runtime.Map
import Grayscale.Stdlib.JsonValidator

/-!
# The JSON decoder

The decoder of `gray_json_decode` over the bytes from the cursor on. It does not validate: strings
are skipped to their closing quote, nested values by counting brackets, and every other value ends
at a delimiter.
-/

namespace Grayscale

open HashMaps

/-! ### Strings -/

def grayHexDigitValue (character : UInt8) : Option ℕ :=
  if byte '0' ≤ character ∧ character ≤ byte '9' then some (character - byte '0').toNat
  else if byte 'a' ≤ character ∧ character ≤ byte 'f' then some ((character - byte 'a').toNat + 10)
  else if byte 'A' ≤ character ∧ character ≤ byte 'F' then some ((character - byte 'A').toNat + 10)
  else none

/-- `json_hex4`: `none` for -1. -/
def jsonHex4 : Text → Option ℕ
  | h₁ :: h₂ :: h₃ :: h₄ :: _ =>
    (grayHexDigitValue h₁).bind fun d₁ =>
    (grayHexDigitValue h₂).bind fun d₂ =>
    (grayHexDigitValue h₃).bind fun d₃ =>
    (grayHexDigitValue h₄).bind fun d₄ => some (((d₁ * 16 + d₂) * 16 + d₃) * 16 + d₄)
  | _ => none

def jsonPutUtf8 (codepoint : ℕ) : Text :=
  if codepoint < 0x80 then [codepoint.toUInt8]
  else if codepoint < 0x800 then
    [(0xC0 ||| (codepoint >>> 6)).toUInt8, (0x80 ||| (codepoint &&& 0x3F)).toUInt8]
  else if codepoint < 0x10000 then
    [(0xE0 ||| (codepoint >>> 12)).toUInt8, (0x80 ||| ((codepoint >>> 6) &&& 0x3F)).toUInt8,
      (0x80 ||| (codepoint &&& 0x3F)).toUInt8]
  else
    [(0xF0 ||| (codepoint >>> 18)).toUInt8, (0x80 ||| ((codepoint >>> 12) &&& 0x3F)).toUInt8,
      (0x80 ||| ((codepoint >>> 6) &&& 0x3F)).toUInt8, (0x80 ||| (codepoint &&& 0x3F)).toUInt8]

/-- `json_string_close`: the bytes up to the closing quote, and those from it on. -/
def jsonStringClose : Text → Text × Text
  | [] => ([], [])
  | c :: cursor =>
    if c = byte '"' then ([], c :: cursor)
    else if c = byte '\\' then
      match cursor with
      | [] => ([c], [])
      | d :: cursor =>
        let close := jsonStringClose cursor
        (c :: d :: close.1, close.2)
    else
      let close := jsonStringClose cursor
      (c :: close.1, close.2)

/-- The codepoint of a `\u` escape after its code unit, and how many bytes of a second escape it
takes. -/
def jsonCodepoint (unit : ℕ) (scan : Text) : ℕ × ℕ :=
  if 0xD800 ≤ unit ∧ unit ≤ 0xDBFF then
    let lowSurrogate :=
      match scan with
      | s₀ :: s₁ :: rest => if s₀ = byte '\\' ∧ s₁ = byte 'u' then jsonHex4 rest else none
      | _ => none
    match lowSurrogate with
    | some low =>
      if 0xDC00 ≤ low ∧ low ≤ 0xDFFF then
        (0x10000 + ((unit - 0xD800) <<< 10) + (low - 0xDC00), 6)
      else (0xFFFD, 0)
    | none => (0xFFFD, 0)
  else if 0xDC00 ≤ unit ∧ unit ≤ 0xDFFF then (0xFFFD, 0)
  else (unit, 0)

/-- The loop of `parse_json_string` over the bytes before the closing quote. -/
@[grind =] def jsonUnescape (scan : Text) : Text :=
  match scan with
  | [] => []
  | c :: rest =>
    if c ≠ byte '\\' then c :: jsonUnescape rest
    else
      match rest with
      | [] => []
      | escaped :: rest =>
        if escaped = byte 'b' then 0x08 :: jsonUnescape rest
        else if escaped = byte 'f' then 0x0C :: jsonUnescape rest
        else if escaped = byte 'n' then 0x0A :: jsonUnescape rest
        else if escaped = byte 'r' then 0x0D :: jsonUnescape rest
        else if escaped = byte 't' then 0x09 :: jsonUnescape rest
        else if escaped = byte 'u' then
          match jsonHex4 rest with
          | none => byte 'u' :: jsonUnescape rest
          | some unit =>
            jsonPutUtf8 (jsonCodepoint unit (rest.drop 4)).1 ++
              jsonUnescape ((rest.drop 4).drop (jsonCodepoint unit (rest.drop 4)).2)
        else escaped :: jsonUnescape rest
termination_by scan.length
decreasing_by all_goals simp only [List.length_cons, List.length_drop]; omega

/-- `parse_json_string`: the decoded string, and the text after the closing quote. -/
def parseJsonString : Text → Text × Text
  | [] => ([], [])
  | c :: start =>
    if c = byte '"' then
      let close := jsonStringClose start
      (jsonUnescape close.1, close.2.drop 1)
    else ([], c :: start)

/-! ### Values -/

theorem jsonStringClose_le (l : Text) : (jsonStringClose l).2.length ≤ l.length := by
  fun_induction jsonStringClose l with
  | case1 => exact le_rfl
  | case2 => exact le_rfl
  | case3 => exact Nat.zero_le _
  | case4 d cursor _ close ih => exact Nat.le_trans ih (Nat.le_add_right _ 2)
  | case5 c cursor _ _ close ih => exact Nat.le_trans ih (Nat.le_add_right _ 1)

/-- The loop of `parse_json_nested_as_string`: the text it takes, and what is left. -/
@[grind =] def jsonNestedLoop (depth : ℤ) (cursor : Text) : Text × Text :=
  match cursor with
  | [] => ([], [])
  | character :: rest =>
    if character = byte '"' then
      let close := jsonStringClose rest
      let next := jsonNestedLoop depth (close.2.drop 1)
      (character :: (close.1 ++ close.2.take 1 ++ next.1), next.2)
    else if character = byte '\x7b' ∨ character = byte '[' then
      let next := jsonNestedLoop (depth + 1) rest
      (character :: next.1, next.2)
    else if character = byte '\x7d' ∨ character = byte ']' then
      if depth - 1 = 0 then ([character], rest)
      else
        let next := jsonNestedLoop (depth - 1) rest
        (character :: next.1, next.2)
    else
      let next := jsonNestedLoop depth rest
      (character :: next.1, next.2)
termination_by cursor.length
decreasing_by
  · have := jsonStringClose_le rest
    simp only [List.length_cons, List.length_drop]
    omega
  all_goals simp

def parseJsonNestedAsString (cursor : Text) : Text × Text := jsonNestedLoop 0 cursor

/-- A byte of a number, bool or null. -/
def isScalarByte (c : UInt8) : Bool :=
  c != byte ',' && c != byte '\x7d' && c != byte ']' && !isspace c

def parseJsonValueAsString (cursor : Text) : Text × Text :=
  match skipWhitespace cursor with
  | [] => ([], [])
  | character :: rest =>
    if character = byte '"' then parseJsonString (character :: rest)
    else if character = byte '\x7b' ∨ character = byte '[' then
      parseJsonNestedAsString (character :: rest)
    else ((character :: rest).takeWhile isScalarByte, (character :: rest).dropWhile isScalarByte)

/-- `if (cursor < end_cursor && *cursor == c) cursor++;`. -/
def skipByte (c : UInt8) : Text → Text
  | [] => []
  | d :: cursor => if d = c then cursor else d :: cursor

/-- The loop of `json_decode_object`, without the list of quoted keys: the map, and the text at
which it stops. `none` when the fuel runs out. -/
def jsonDecodeLoop (seed : UInt64) : ℕ → Text → GrayMap Text → Option (GrayMap Text × Text)
  | 0, _, _ => none
  | fuel + 1, cursor, map =>
    match skipWhitespace cursor with
    | [] => some (map, [])
    | c :: rest =>
      if c ≠ byte '"' then some (map, c :: rest)
      else
        let key := parseJsonString (c :: rest)
        let cursor := skipByte (byte ':') (skipWhitespace key.2)
        let value := parseJsonValueAsString (skipWhitespace cursor)
        (grayMapSet seed 2 map key.1 value.1).bind fun map =>
          jsonDecodeLoop seed fuel (skipByte (byte ',') (skipWhitespace value.2)) map

/-- `gray_json_decode`, with the text at which it stops. -/
def grayJsonDecode (seed : UInt64) (fuel : ℕ) (text : Text) : Option (GrayMap Text × Text) :=
  match skipWhitespace text with
  | [] => some (grayMapNewKind 8, [])
  | c :: cursor =>
    if c = byte '\x7b' then jsonDecodeLoop seed fuel cursor (grayMapNewKind 8)
    else some (grayMapNewKind 8, c :: cursor)

end Grayscale
