import Grayscale.Library.DecimalText
import Grayscale.Library.FirstOccurrence
import Grayscale.Util.Bytes

/-!
# The character regex engine

The parser and the matcher of `regex_win.h`. A position in a pattern or a text is the text from
there on. The captures are left out: the matcher writes them and does not read them for what it
returns.
-/

namespace Grayscale.Regex

open DecimalText

/-! ### Characters -/

def regexDecode (position : Text) : ℕ × ℕ := grayUtf8Decode (position.take 4)

def behindCharacter (position : Text) : Text := position.drop (regexDecode position).2

theorem length_behind_le (position : Text) :
    (behindCharacter position).length ≤ position.length - 1 := by
  rw [behindCharacter, List.length_drop, regexDecode]
  rcases utf8Decode_spec (position.take 4) with h | ⟨h, -⟩ <;> omega

/-- The codepoints of a bracket expression: those of ASCII, and ranges above. -/
structure CharacterSet where
  asciiSet : List ℕ
  ranges : List (ℕ × ℕ)
  deriving DecidableEq

/-- `gray_regex_class_add_range`. -/
def classAddRange (set : CharacterSet) (low high : ℕ) : CharacterSet :=
  let set := { set with asciiSet := set.asciiSet ++ List.range' low (min (high + 1) 128 - low) }
  if high < 128 then set else { set with ranges := set.ranges ++ [(max low 128, high)] }

/-- `gray_regex_class_has`. -/
def classHas (set : CharacterSet) (codepoint : ℕ) : Bool :=
  if codepoint < 128 then codepoint ∈ set.asciiSet
  else set.ranges.any fun range => range.1 ≤ codepoint && codepoint ≤ range.2

/-- `gray_regex_ascii_class_has`. -/
def asciiClassHas (name : Text) (c : UInt8) : Bool :=
  if name = bytes "alpha" then isalpha c
  else if name = bytes "digit" then isdigit c
  else if name = bytes "alnum" then isalpha c || isdigit c
  else if name = bytes "upper" then byte 'A' ≤ c && c ≤ byte 'Z'
  else if name = bytes "lower" then byte 'a' ≤ c && c ≤ byte 'z'
  else if name = bytes "space" then c == byte ' ' || (byte '\t' ≤ c && c ≤ byte '\r')
  else if name = bytes "blank" then c == byte ' ' || c == byte '\t'
  else if name = bytes "punct" then
    byte ' ' < c && c < 127 && !(isalpha c || isdigit c)
  else if name = bytes "print" then byte ' ' ≤ c && c < 127
  else if name = bytes "graph" then byte ' ' < c && c < 127
  else if name = bytes "cntrl" then c < byte ' ' || c == 127
  else if name = bytes "xdigit" then
    isdigit c || (byte 'a' ≤ c && c ≤ byte 'f') || (byte 'A' ≤ c && c ≤ byte 'F')
  else false

def classAddName (set : CharacterSet) (has : UInt8 → Bool) : CharacterSet := (List.range 128).foldl
    (fun set c => if has c.toUInt8 then classAddRange set c c else set) set

/-- `gray_regex_escape_class`. -/
def escapeClass (escapeCharacter : UInt8) (set : CharacterSet) : Option CharacterSet :=
  if escapeCharacter = byte 'd' then some (classAddName set (asciiClassHas (bytes "digit")))
  else if escapeCharacter = byte 'w' then
    some (classAddName set fun c => asciiClassHas (bytes "alnum") c || c == byte '_')
  else if escapeCharacter = byte 's' then some (classAddName set (asciiClassHas (bytes "space")))
  else none

/-- `gray_regex_escape_character`. -/
def escapeCharacter (codepoint : ℕ) : ℕ :=
  if codepoint = (byte 'n').toNat then (byte '\n').toNat
  else if codepoint = (byte 't').toNat then (byte '\t').toNat
  else if codepoint = (byte 'r').toNat then (byte '\r').toNat
  else if codepoint = (byte 'f').toNat then 12
  else if codepoint = (byte 'v').toNat then 11
  else if codepoint = (byte '0').toNat then 0
  else codepoint

/-! ### The parser -/

mutual

/-- `GrayRegexNode` without its quantifier. -/
inductive RegexAtom where
  | character (codepoint : ℕ)
  | any
  | bracket (isNegated : Bool) (set : CharacterSet)
  | group (alternation : RegexAlternation)
  | beginningOfLine
  | endOfLine

/-- `GrayRegexSequence`: nodes with their quantifiers. A negative maximum is no bound. -/
inductive RegexSequence where
  | nil
  | cons (atom : RegexAtom) (minimumRepeat : ℕ) (maximumRepeat : ℤ) (rest : RegexSequence)

/-- `GrayRegexAlternation`: one sequence or more. -/
inductive RegexAlternation where
  | last (sequence : RegexSequence)
  | cons (sequence : RegexSequence) (rest : RegexAlternation)

end

/-- A pattern is malformed, or a count in braces overflows an `int`. -/
inductive RegexError where
  | malformed
  | overflow

/-- `gray_regex_bracket_codepoint`. -/
def bracketCodepoint (cursor : Text) : ℕ × Text :=
  if byteAt cursor 0 = byte '\\' ∧ byteAt cursor 1 ≠ 0 then
    (escapeCharacter (regexDecode (cursor.drop 1)).1, behindCharacter (cursor.drop 1))
  else ((regexDecode cursor).1, behindCharacter cursor)

theorem length_bracketCodepoint_le (cursor : Text) :
    (bracketCodepoint cursor).2.length ≤ cursor.length - 1 := by
  rw [bracketCodepoint]
  split_ifs
  · have h := length_behind_le (cursor.drop 1)
    rw [List.length_drop] at h
    exact h.trans (Nat.sub_le _ _)
  · exact length_behind_le cursor

/-- A class such as `[:alpha:]` at the cursor: its name, and the position behind it. -/
def namedClass (cursor : Text) : Option (Text × Text) :=
  if byteAt cursor 0 = byte '[' ∧ byteAt cursor 1 = byte ':' then
    (firstIndex [byte ':', byte ']'] (cursor.drop 2)).map fun count =>
      (if count < 16 then (cursor.drop 2).take count else [], cursor.drop (2 + count + 2))
  else none

/-- One item of a bracket expression: a class, an escape, a range or a character. -/
def bracketItem (cursor : Text) (set : CharacterSet) : CharacterSet × Text :=
  match namedClass cursor with
  | some (name, rest) => (classAddName set (asciiClassHas name), rest)
  | none =>
    match if byteAt cursor 0 = byte '\\' ∧ byteAt cursor 1 ≠ 0 then
      escapeClass (byteAt cursor 1) set else none with
    | some set => (set, cursor.drop 2)
    | none =>
      let low := bracketCodepoint cursor
      -- A `-` in front of the closing bracket stands for itself.
      if byteAt low.2 0 = byte '-' ∧ byteAt low.2 1 ≠ 0 ∧ byteAt low.2 1 ≠ byte ']' then
        let high := bracketCodepoint (low.2.drop 1)
        (classAddRange set low.1 high.1, high.2)
      else (classAddRange set low.1 low.1, low.2)

theorem length_bracketItem_le (cursor : Text) (set : CharacterSet) :
    (bracketItem cursor set).2.length ≤ cursor.length - 1 := by
  have hlow := length_bracketCodepoint_le cursor
  unfold bracketItem
  split
  · next name rest hnamed =>
    unfold namedClass at hnamed
    split_ifs at hnamed
    obtain ⟨count, -, hcnt⟩ := Option.map_eq_some_iff.mp hnamed
    rw [← (Prod.mk.inj hcnt).2, List.length_drop]
    omega
  · split
    · rw [List.length_drop]
      omega
    · simp only
      split_ifs
      · have hhigh := length_bracketCodepoint_le ((bracketCodepoint cursor).2.drop 1)
        rw [List.length_drop] at hhigh
        simp only
        omega
      · exact hlow

/-- The loop of `gray_regex_parse_bracket`; `none` where the closing bracket is missing. -/
def parseBracketLoop (bound : ℕ) (cursor : Text) (first : Bool) (set : CharacterSet)
    (hcursor : cursor.length ≤ bound) : Option (CharacterSet × {t : Text // t.length ≤ bound}) :=
  if hmore : cursor ≠ [] ∧ (byteAt cursor 0 ≠ byte ']' ∨ first) then
    parseBracketLoop bound (bracketItem cursor set).2 false (bracketItem cursor set).1
      ((length_bracketItem_le cursor set).trans ((Nat.sub_le _ _).trans hcursor))
  else if byteAt cursor 0 = byte ']' then
    some (set, ⟨cursor.drop 1, by rw [List.length_drop]; omega⟩)
  else none
termination_by cursor.length
decreasing_by
  have hlength := length_bracketItem_le cursor set
  have hpos := List.length_pos_iff.mpr hmore.1
  omega

/-- `gray_regex_parse_bracket`, behind the opening bracket. -/
def parseBracket (cursor : Text) : Option (RegexAtom × {t : Text // t.length ≤ cursor.length}) :=
  let isNegated := byteAt cursor 0 == byte '^'
  let start := if isNegated then cursor.drop 1 else cursor
  (parseBracketLoop cursor.length start true ⟨[], []⟩
    (by dsimp only [start]; split_ifs <;> simp)).map fun parsed =>
      (.bracket isNegated parsed.1, parsed.2)

/-- The quantifier at the cursor, with the position behind it; without one the node stands once. A
brace that starts no quantifier stands for itself. -/
def parseQuantifier (cursor : Text) :
    Except RegexError (ℕ × ℤ × {t : Text // t.length ≤ cursor.length}) :=
  let rest : {t : Text // t.length ≤ cursor.length} := ⟨cursor.drop 1, by simp⟩
  if byteAt cursor 0 = byte '*' then .ok (0, -1, rest)
  else if byteAt cursor 0 = byte '+' then .ok (1, -1, rest)
  else if byteAt cursor 0 = byte '?' then .ok (0, 1, rest)
  else if byteAt cursor 0 = byte '{' then
    let low := (cursor.drop 1).takeWhile isdigit
    let save : {t : Text // t.length ≤ cursor.length} := ⟨cursor, le_rfl⟩
    if low = [] then .ok (1, 1, save)
    else if 2 ^ 31 ≤ read 0 low then .error .overflow
    else
      let comma := cursor.drop (1 + low.length)
      if byteAt comma 0 = byte ',' then
        let high := (comma.drop 1).takeWhile isdigit
        if 2 ^ 31 ≤ read 0 high then .error .overflow
        else
          let close := cursor.drop (1 + low.length + 1 + high.length)
          if byteAt close 0 = byte '}' then
            .ok (read 0 low, if high = [] then -1 else read 0 high,
              ⟨cursor.drop (1 + low.length + 1 + high.length + 1), by simp⟩)
          else .ok (1, 1, save)
      else if byteAt comma 0 = byte '}' then
        .ok (read 0 low, read 0 low, ⟨cursor.drop (1 + low.length + 1), by simp⟩)
      else .ok (1, 1, save)
  else .ok (1, 1, ⟨cursor, le_rfl⟩)

/-- The end of `gray_regex_parse_atom`: the quantifier behind an atom. -/
def quantified (cursor : Text) (atom : RegexAtom) (rest : Text) (h : rest.length < cursor.length) :
    Except RegexError (Option (RegexAtom × ℕ × ℤ × {t : Text // t.length < cursor.length})) :=
  match parseQuantifier rest with
  | .error e => .error e
  | .ok (minimum, maximum, ⟨behind, hbehind⟩) =>
    .ok (some (atom, minimum, maximum, ⟨behind, hbehind.trans_lt h⟩))

mutual

/-- `gray_regex_parse_atom`; `none` where a sequence ends. -/
@[grind =] def parseAtom (cursor : Text) :
    Except RegexError (Option (RegexAtom × ℕ × ℤ × {t : Text // t.length < cursor.length})) :=
  if hend : cursor = [] ∨ byteAt cursor 0 = byte '|' ∨ byteAt cursor 0 = byte ')' then .ok none
  else
    have hpos : 0 < cursor.length := List.length_pos_iff.mpr fun h => hend (.inl h)
    have hdrop : (cursor.drop 1).length < cursor.length := by rw [List.length_drop]; omega
    if byteAt cursor 0 = byte '(' then
      match parseAlternation (cursor.drop 1) with
      | .error e => .error e
      | .ok (alternation, ⟨rest, hrest⟩) =>
        if byteAt rest 0 = byte ')' then
          quantified cursor (.group alternation) (rest.drop 1) (by
            rw [List.length_drop]
            omega)
        else .error .malformed
    else if byteAt cursor 0 = byte '[' then
      match parseBracket (cursor.drop 1) with
      | none => .error .malformed
      | some (atom, ⟨rest, hrest⟩) => quantified cursor atom rest (hrest.trans_lt hdrop)
    else if byteAt cursor 0 = byte '.' then quantified cursor .any (cursor.drop 1) hdrop
    -- The anchors take no quantifier.
    else if byteAt cursor 0 = byte '^' then
      .ok (some (.beginningOfLine, 1, 1, ⟨cursor.drop 1, hdrop⟩))
    else if byteAt cursor 0 = byte '$' then
      .ok (some (.endOfLine, 1, 1, ⟨cursor.drop 1, hdrop⟩))
    else if byteAt cursor 0 = byte '\\' ∧ byteAt cursor 1 ≠ 0 then
      match escapeClass (byteAt cursor 1) ⟨[], []⟩ with
      | some set => quantified cursor (.bracket false set) (cursor.drop 2) (by
          rw [List.length_drop]
          omega)
      | none =>
        quantified cursor (.character (escapeCharacter (regexDecode (cursor.drop 1)).1))
          (behindCharacter (cursor.drop 1)) (by
            have h := length_behind_le (cursor.drop 1)
            omega)
    else quantified cursor (.character (regexDecode cursor).1) (behindCharacter cursor) (by
      have h := length_behind_le cursor
      omega)
termination_by (cursor.length, 0)

/-- `gray_regex_parse_sequence`. -/
def parseSequence (cursor : Text) :
    Except RegexError (RegexSequence × {t : Text // t.length ≤ cursor.length}) :=
  match parseAtom cursor with
  | .error e => .error e
  | .ok none => .ok (.nil, ⟨cursor, le_rfl⟩)
  | .ok (some (atom, minimum, maximum, ⟨rest, hrest⟩)) =>
    match parseSequence rest with
    | .error e => .error e
    | .ok (sequence, ⟨behind, hbehind⟩) =>
      .ok (.cons atom minimum maximum sequence, ⟨behind, hbehind.trans hrest.le⟩)
termination_by (cursor.length, 1)

/-- `gray_regex_parse_alternation`. -/
def parseAlternation (cursor : Text) :
    Except RegexError (RegexAlternation × {t : Text // t.length ≤ cursor.length}) :=
  match parseSequence cursor with
  | .error e => .error e
  | .ok (sequence, ⟨rest, hrest⟩) =>
    if hmore : byteAt rest 0 = byte '|' then
      match parseAlternation (rest.drop 1) with
      | .error e => .error e
      | .ok (alternation, ⟨behind, hbehind⟩) =>
        .ok (.cons sequence alternation, ⟨behind, by
          rw [List.length_drop] at hbehind
          omega⟩)
    else .ok (.last sequence, ⟨rest, hrest⟩)
termination_by (cursor.length, 2)
decreasing_by
  · exact Prod.Lex.right _ (by decide)
  · obtain ⟨t, ht⟩ := cons_of_byteAt hmore (by decide)
    refine Prod.Lex.left _ _ ?_
    rw [ht] at hrest ⊢
    simpa using hrest

end

/-- `gray_regex_engine_compile` of a C string. -/
def regexEngineCompile (pattern : Text) : Except RegexError RegexAlternation :=
  match parseAlternation pattern with
  | .error e => .error e
  | .ok (alternation, ⟨rest, _⟩) => if rest = [] then .ok alternation else .error .malformed

/-! ### The matcher -/

/-- `GrayRegexContext` without the captures. -/
structure RegexContext where
  start : Text
  isNotBeginningOfLine : Bool

/-- `GRAY_REGEX_MAX_REPEAT`. -/
def regexMaxRepeat : ℕ := 8192

/-- The loop that records how far an atom can repeat; the last position is in front. The first
argument is the room that is left. -/
def repeatLoop (one : Text → Option Text) (maximumRepeat : ℤ) : ℕ → ℕ → Text → List Text → List Text
  | 0, _, _, stack => stack
  | room + 1, depth, cursor, stack =>
    if maximumRepeat < 0 ∨ (depth : ℤ) < maximumRepeat then
      match one cursor with
      | none => stack
      | some next =>
        if next = cursor then stack
        else repeatLoop one maximumRepeat room (depth + 1) next (next :: stack)
    else stack

/-- The positions behind a node that `gray_regex_match_sequence` goes on from, in its order. -/
def choices (one : Text → Option Text) (minimumRepeat : ℕ) (maximumRepeat : ℤ)
    (position : Text) : List Text :=
  if minimumRepeat = 1 ∧ maximumRepeat = 1 then (one position).toList
  else
    let stack := repeatLoop one maximumRepeat regexMaxRepeat 0 position [position]
    stack.take (stack.length - minimumRepeat)

def matchCharacter (has : ℕ → Bool) (position : Text) : Option Text :=
  if position = [] then none
  else if has (regexDecode position).1 then some (behindCharacter position)
  else none

mutual

/-- `gray_regex_match_one`. -/
def matchOne (context : RegexContext) : RegexAtom → Text → Option Text
  | .beginningOfLine, position =>
    if position = context.start ∧ ¬ context.isNotBeginningOfLine then some position else none
  | .endOfLine, position => if position = [] then some position else none
  | .any, position => matchCharacter (fun _ => true) position
  | .character c, position => matchCharacter (fun codepoint => codepoint == c) position
  | .bracket isNegated set, position =>
    matchCharacter (fun codepoint => classHas set codepoint != isNegated) position
  | .group alternation, position => matchAlternation context alternation position

/-- `gray_regex_match_sequence`. -/
def matchSequence (context : RegexContext) : RegexSequence → Text → Option Text
  | .nil, position => some position
  | .cons atom minimumRepeat maximumRepeat rest, position =>
    (choices (matchOne context atom) minimumRepeat maximumRepeat position).findSome?
      (matchSequence context rest)

/-- `gray_regex_match_alternation`. -/
def matchAlternation (context : RegexContext) : RegexAlternation → Text → Option Text
  | .last sequence, position => matchSequence context sequence position
  | .cons sequence rest, position =>
    match matchSequence context sequence position with
    | some endCursor => some endCursor
    | none => matchAlternation context rest position

end

/-- The loop of `gray_regex_engine_execute`: the start and the end of the match. -/
def executeLoop (context : RegexContext) (root : RegexAlternation) (start : Text) :
    Option (Text × Text) :=
  match matchAlternation context root start with
  | some endCursor => some (start, endCursor)
  | none =>
    if hend : start = [] then none else executeLoop context root (behindCharacter start)
termination_by start.length
decreasing_by
  have hlength := length_behind_le start
  have hpos := List.length_pos_iff.mpr hend
  omega

/-- `gray_regex_engine_execute`: `rm_so` and `rm_eo` of the match. -/
def regexEngineExecute (root : RegexAlternation) (string : Text) (isNotBeginningOfLine : Bool) :
    Option (ℕ × ℕ) := (executeLoop ⟨string, isNotBeginningOfLine⟩ root string).map fun found =>
    (string.length - found.1.length, string.length - found.2.length)

end Grayscale.Regex
