import Grayscale.Util.Bytes
import Mathlib.Data.List.Nodup
import Mathlib.Data.List.Perm.Subperm

/-!
# Attributes

The attributes in front of a declaration (`parse_statement` of `parser.c`), stacked as in `#test
#discard do f()` or in a list as in `#[test, discard] do f()`. Every other statement is read by a
parameter, `parseRest`.
-/

namespace Grayscale.Attributes

open List Function

/-! ### Tokens and statements -/

/-- `AttributeBit`. -/
inductive Attribute
  | strict | flags | json | discard | test | deprecated | doc | errorCode | define
  deriving DecidableEq

def attributes : List Attribute :=
  [.strict, .flags, .json, .discard, .test, .deprecated, .doc, .errorCode, .define]

def attributeName : Attribute → Text
  | .strict => bytes "strict"
  | .flags => bytes "flags"
  | .json => bytes "json"
  | .discard => bytes "discard"
  | .test => bytes "test"
  | .deprecated => bytes "deprecated"
  | .doc => bytes "doc"
  | .errorCode => bytes "error_code"
  | .define => bytes "define"

/-- `attribute_bit_for_name`, `none` for a name that is not known. -/
def attributeBitForName (name : Text) : Option Attribute :=
  attributes.find? fun a => attributeName a = name

/-- The tokens that the attributes look at. `attribute` stands for `#strict`, `#flags` and so on. -/
inductive TokenType
  | attribute (a : Attribute)
  | hashLeftBracket | identifier | leftParenthesis | rightParenthesis | string | comma
  | rightBracket | endOfFile | doKeyword | constKeyword | whenKeyword | mutKeyword
  | other (index : ℕ)
  deriving DecidableEq

structure Token where
  type : TokenType
  literal : Text
  line : ℕ

/-- The codes of the diagnostics about attributes. -/
inductive Code
  | E2090 | E2091 | E2092 | E2093 | E2094 | E3144
  | other (index : ℕ)
  deriving DecidableEq

/-- What an attribute looks at in a statement. -/
inductive StatementKind
  | functionDeclaration | structDeclaration | enumDeclaration | whenStatement
  | variableDeclaration (isMutable : Bool) (typeName : Option Text)
  | other

/-- A statement. `marks` are its fields `is_test`, `is_json` and so on, by attribute, and `tree` is
everything else. -/
structure Statement (α : Type) where
  kind : StatementKind
  marks : Attribute → Bool
  deprecatedMessage : Option Text
  tree : α

/-- The state of the parser: the tokens from the current one on, the attributes of the current
declaration, the depth of the blocks and the errors so far. -/
structure Parser where
  tokens : List Token
  seenAttributeMask : Attribute → Bool
  depth : ℕ
  diagnostics : List Code

namespace Parser

def currentToken (p : Parser) : Token := p.tokens.headD ⟨.endOfFile, [], 0⟩

def currentTokenIs (p : Parser) (type : TokenType) : Bool := p.currentToken.type = type

def nextToken (p : Parser) : Parser := { p with tokens := p.tokens.tail }

/-- `diagnostic_add` of an error: there are at most `MAX_ERRORS_DISPLAYED` of them. -/
def addError (p : Parser) (code : Code) : Parser :=
  if 20 ≤ p.diagnostics.length then p else { p with diagnostics := p.diagnostics ++ [code] }

end Parser

def rejectDuplicateAttribute (p : Parser) (a : Attribute) : Bool × Parser :=
  if p.seenAttributeMask a then (true, p.addError .E2090)
  else (false, { p with seenAttributeMask := update p.seenAttributeMask a true })

/-! ### Applying attributes -/

section Apply

variable {α : Type}

def isDefineType (typeName : Option Text) : Bool :=
  typeName.any fun name => name ∈ ["i8", "i16", "i32", "i64", "i128", "i256", "u8", "u16", "u32",
    "u64", "u128", "u256", "f32", "f64", "bool", "char", "string"].map bytes

/-- The declarations that an attribute can be applied to. -/
def accepts (depth : ℕ) : Attribute → StatementKind → Bool
  | .test, .functionDeclaration => true
  | .discard, .functionDeclaration => true
  | .json, .structDeclaration => true
  | .flags, .enumDeclaration => true
  | .errorCode, .enumDeclaration => true
  | .define, .variableDeclaration isMutable typeName =>
    depth == 0 && !isMutable && isDefineType typeName
  | .strict, .whenStatement => true
  | .deprecated, .functionDeclaration => true
  | .deprecated, .structDeclaration => true
  | .deprecated, .enumDeclaration => true
  | _, _ => false

/-- The code of an attribute in front of anything else. -/
def misappliedCode : Attribute → Code
  | .errorCode => .E3144
  | _ => .E2094

/-- `is_test = true` and so on; `deprecated` also has a message. -/
def Statement.mark (statement : Statement α) (a : Attribute) (message : Option Text) :
    Statement α := { statement with
    marks := update statement.marks a true
    deprecatedMessage := if a = .deprecated then message else statement.deprecatedMessage }

def applyNamedAttribute (a : Attribute) (message : Option Text)
    (parsed : Option (Statement α) × Parser) : Option (Statement α) × Parser :=
  if a = .doc then parsed
  else if parsed.1.any fun statement => accepts parsed.2.depth a statement.kind then
    (parsed.1.map fun statement => statement.mark a message, parsed.2)
  else (parsed.1, parsed.2.addError (misappliedCode a))

/-- The end of the case of an attribute in `parse_statement`. A repeated attribute is not applied,
or it is applied without its error or its message, or as if it were not repeated. -/
def applyStacked (a : Attribute) (isDuplicate : Bool) (message : Option Text)
    (parsed : Option (Statement α) × Parser) : Option (Statement α) × Parser :=
  let isAccepted := parsed.1.any fun statement => accepts parsed.2.depth a statement.kind
  match a with
  | .doc => parsed
  | .define => if isDuplicate then parsed else applyNamedAttribute .define message parsed
  | .strict =>
    if isAccepted || !isDuplicate then applyNamedAttribute .strict message parsed else parsed
  | .deprecated =>
    if isAccepted && isDuplicate then
      (parsed.1.map fun statement => statement.mark .deprecated statement.deprecatedMessage,
        parsed.2)
    else if isDuplicate then parsed
    else applyNamedAttribute .deprecated message parsed
  | a => applyNamedAttribute a message parsed

theorem applyStacked_of_not_duplicate (a : Attribute) (message : Option Text)
    (parsed : Option (Statement α) × Parser) :
    applyStacked a false message parsed = applyNamedAttribute a message parsed := by
  cases a <;> simp [applyStacked, applyNamedAttribute]

end Apply

/-! ### Reading attributes -/

/-- `parse_deprecated_message`, on the token behind `#deprecated`. -/
def parseDeprecatedMessage (p : Parser) : Option Text × Parser :=
  if p.currentTokenIs .leftParenthesis then
    let p := p.nextToken
    let (message, p) := if p.currentTokenIs .string then (some p.currentToken.literal, p.nextToken)
      else (none, p.addError .E2094)
    if p.currentTokenIs .rightParenthesis then (message, p.nextToken)
    else (message, p.addError .E2094)
  else (none, p)

/-- The loop that skips the arguments of `doc`, and the closing parenthesis. -/
def skipArguments (p : Parser) : Parser := { p with tokens := (p.tokens.dropWhile fun t =>
      t.type ≠ .rightParenthesis && t.type ≠ .endOfFile).tail }

/-- The arguments behind the token of an attribute. -/
def attributeArguments (a : Attribute) (p : Parser) : Option Text × Parser :=
  match a with
  | .deprecated => parseDeprecatedMessage p
  | .doc => if p.currentTokenIs .leftParenthesis then (none, skipArguments p) else (none, p)
  | _ => (none, p)

/-- One entry of a list, or the state in which the list is malformed. -/
def attributeEntry (line : ℕ) (p : Parser) : Except Parser (Attribute × Option Text × Parser) :=
  if !p.currentTokenIs .identifier then .error (p.addError .E2093)
  else if p.currentToken.line ≠ line then .error (p.addError .E2092)
  else match attributeBitForName p.currentToken.literal with
    | none => .error (p.addError .E2091)
    | some a =>
      let p := p.nextToken
      if p.currentTokenIs .leftParenthesis then
        match a with
        | .deprecated =>
          let p := p.nextToken
          if !p.currentTokenIs .string then .error (p.addError .E2093)
          else
            let message := p.currentToken.literal
            let p := p.nextToken
            if !p.currentTokenIs .rightParenthesis then .error (p.addError .E2093)
            else .ok (a, some message, p.nextToken)
        | .doc => .ok (a, none, skipArguments p)
        | _ => .error (p.addError .E2093)
      else .ok (a, none, p)

/-- What the loop over a list has collected. -/
structure Collected where
  entries : List (Attribute × Option Text)
  seenCount : ℕ
  isMalformed : Bool
  parser : Parser

@[simp] theorem Parser.tokens_addError (p : Parser) (code : Code) :
    (p.addError code).tokens = p.tokens := by
  rw [Parser.addError]
  split_ifs <;> rfl

@[simp] theorem Parser.tokens_nextToken (p : Parser) : p.nextToken.tokens = p.tokens.tail := rfl

@[simp] theorem tokens_rejectDuplicate (p : Parser) (a : Attribute) :
    (rejectDuplicateAttribute p a).2.tokens = p.tokens := by
  rw [rejectDuplicateAttribute]
  split_ifs
  · exact p.tokens_addError _
  · rfl

theorem Parser.tokens_pos {p : Parser} (h : p.currentToken.type ≠ .endOfFile) :
    0 < p.tokens.length := by
  rw [length_pos_iff]
  rintro hnil
  exact h (by rw [Parser.currentToken, hnil]; rfl)

theorem length_skipArguments (p : Parser) : (skipArguments p).tokens.length ≤ p.tokens.length := by
  simp only [skipArguments, length_tail]
  exact (Nat.sub_le _ _).trans (dropWhile_suffix _).length_le

theorem length_attributeArguments (a : Attribute) (p : Parser) :
    (attributeArguments a p).2.tokens.length ≤ p.tokens.length := by
  cases a <;> simp only [attributeArguments, le_refl]
  · simp only [parseDeprecatedMessage]
    split_ifs <;> simp only [Parser.tokens_addError, Parser.tokens_nextToken, length_tail] <;>
      omega
  · split_ifs
    · exact length_skipArguments p
    · exact le_rfl

theorem length_entry (line : ℕ) (p : Parser) :
    match attributeEntry line p with
    | .error q => q.tokens.length ≤ p.tokens.length
    | .ok (_, _, q) => q.tokens.length < p.tokens.length := by
  rw [attributeEntry]
  split_ifs with hid hline
  · simp
  · simp
  · have hpos : 0 < p.tokens.length := by
      apply Parser.tokens_pos
      simp only [Parser.currentTokenIs, Bool.not_eq_true', decide_eq_false_iff_not,
        Decidable.not_not] at hid
      rw [hid]
      decide
    cases attributeBitForName p.currentToken.literal with
    | none => simp
    | some a =>
      have hskip := length_skipArguments p.nextToken
      simp only [Parser.tokens_nextToken, length_tail] at hskip
      by_cases hparen : p.nextToken.currentTokenIs .leftParenthesis = true
      · cases a <;> simp only [hparen, if_true, Parser.tokens_addError,
          Parser.tokens_nextToken, length_tail] <;> try omega
        split_ifs <;> simp only [Parser.tokens_addError, Parser.tokens_nextToken,
          length_tail] <;> omega
      · simp only [hparen, Bool.false_eq_true, if_false, Parser.tokens_nextToken, length_tail]
        omega

/-- The loop over the entries of a list. A list keeps `MAX_ATTRIBUTE_LIST_ENTRIES` of them. -/
def attributeLoop (line : ℕ) (p : Parser) (entries : List (Attribute × Option Text))
    (seenCount : ℕ) : Collected :=
  if p.currentTokenIs .rightBracket || p.currentTokenIs .endOfFile then
    ⟨entries, seenCount, false, p⟩
  else
    match _h : attributeEntry line p with
    | .error q => ⟨entries, seenCount, true, q⟩
    | .ok (a, message, q) =>
      let rejected := rejectDuplicateAttribute q a
      let entries := if !rejected.1 && decide (entries.length < 8) then entries ++ [(a, message)]
        else entries
      if rejected.2.currentTokenIs .comma then
        if rejected.2.nextToken.currentTokenIs .rightBracket then
          ⟨entries, seenCount + 1, true, rejected.2.nextToken.addError .E2093⟩
        else attributeLoop line rejected.2.nextToken entries (seenCount + 1)
      else if rejected.2.currentTokenIs .rightBracket then
        ⟨entries, seenCount + 1, false, rejected.2⟩
      else ⟨entries, seenCount + 1, true, rejected.2.addError .E2093⟩
termination_by p.tokens.length
decreasing_by
  have hlength := length_entry line p
  rw [_h] at hlength
  simp only [Parser.tokens_nextToken, tokens_rejectDuplicate, length_tail]
  omega

theorem length_attributeLoop (line : ℕ) (p : Parser) (entries : List (Attribute × Option Text))
    (seenCount : ℕ) :
    (attributeLoop line p entries seenCount).parser.tokens.length ≤ p.tokens.length := by
  fun_induction attributeLoop line p entries seenCount with
  | case1 => exact le_rfl
  | case2 p entries seenCount hend q h =>
    have hlen := length_entry line p
    rwa [h] at hlen
  | case3 p entries seenCount hend a message q h rejected =>
    have hlen := length_entry line p
    rw [h] at hlen
    simp only [Parser.tokens_addError, Parser.tokens_nextToken, length_tail, rejected,
      tokens_rejectDuplicate]
    omega
  | case4 p entries seenCount hend a message q h rejected entries' hcom hbra ih =>
    have hlen := length_entry line p
    rw [h] at hlen
    simp only [Parser.tokens_nextToken, length_tail, rejected, tokens_rejectDuplicate] at ih ⊢
    omega
  | case5 p entries seenCount hend a message q h rejected =>
    have hlen := length_entry line p
    rw [h] at hlen
    simp only [rejected, tokens_rejectDuplicate]
    omega
  | case6 p entries seenCount hend a message q h rejected =>
    have hlen := length_entry line p
    rw [h] at hlen
    simp only [Parser.tokens_addError, rejected, tokens_rejectDuplicate]
    omega

/-- Behind a malformed list the parser goes on at the keyword of a declaration. -/
def skipToDeclaration (p : Parser) : Parser := { p with tokens := p.tokens.dropWhile fun t =>
      t.type ∉ [.endOfFile, .doKeyword, .constKeyword, .whenKeyword, .mutKeyword] }

/-- A list of attributes, up to the declaration behind it. -/
def attributeList (p : Parser) : List (Attribute × Option Text) × Parser :=
  let start := p.currentToken
  let collected := attributeLoop start.line p.nextToken [] 0
  let q := collected.parser
  let (isMalformed, q) :=
    if !collected.isMalformed && q.currentTokenIs .rightBracket && q.currentToken.line != start.line
    then (true, q.addError .E2092) else (collected.isMalformed, q)
  let (isMalformed, q) :=
    if !isMalformed && collected.seenCount == 0 && q.currentTokenIs .rightBracket
    then (true, q.addError .E2093) else (isMalformed, q)
  let q := if q.currentTokenIs .rightBracket then q.nextToken else q
  (collected.entries, if isMalformed then skipToDeclaration q else q)

theorem length_attributeList {p : Parser} (h : p.currentToken.type ≠ .endOfFile) :
    (attributeList p).2.tokens.length < p.tokens.length := by
  have hpos := Parser.tokens_pos h
  have hloop := length_attributeLoop p.currentToken.line p.nextToken [] 0
  have hskip : ∀ q : Parser, (skipToDeclaration q).tokens.length ≤ q.tokens.length :=
    fun q => (dropWhile_suffix _).length_le
  simp only [Parser.tokens_nextToken, length_tail] at hloop
  simp only [attributeList]
  split_ifs <;> first
    | (refine (hskip _).trans_lt ?_
       simp only [Parser.tokens_addError, Parser.tokens_nextToken, length_tail]
       omega)
    | (simp only [Parser.tokens_addError, Parser.tokens_nextToken, length_tail]
       omega)

def parseStatement {α : Type} (parseRest : Parser → Option (Statement α) × Parser) (p : Parser) :
    Option (Statement α) × Parser :=
  match _h : p.currentToken.type with
  | .attribute a =>
    let rejected := rejectDuplicateAttribute p a
    let arguments := attributeArguments a rejected.2.nextToken
    applyStacked a rejected.1 arguments.1 (parseStatement parseRest arguments.2)
  | .hashLeftBracket =>
    let list := attributeList p
    list.1.foldl (fun parsed entry => applyNamedAttribute entry.1 entry.2 parsed)
      (parseStatement parseRest list.2)
  | _ => parseRest p
termination_by p.tokens.length
decreasing_by
  · have hpos : 0 < p.tokens.length := Parser.tokens_pos (by rw [_h]; exact nofun)
    refine (length_attributeArguments _ _).trans_lt ?_
    simp only [Parser.tokens_nextToken, tokens_rejectDuplicate, length_tail]
    omega
  · exact length_attributeList (by rw [_h]; exact nofun)

/-! ### The two ways to write attributes -/

/-- Only `deprecated` has a message. -/
def IsEntry (e : Attribute × Option Text) : Prop := e.1 ≠ .deprecated → e.2 = none

/-- The message of an entry as tokens. -/
def argumentTokens (line : ℕ) : Option Text → List Token
  | none => []
  | some m => [⟨.leftParenthesis, bytes "(", line⟩, ⟨.string, m, line⟩,
      ⟨.rightParenthesis, bytes ")", line⟩]

/-- `#a1 ... #an`. -/
def stackedTokens (line : ℕ) (es : List (Attribute × Option Text)) : List Token :=
  es.flatMap fun e => ⟨.attribute e.1, byte '#' :: attributeName e.1, line⟩ ::
    argumentTokens line e.2

/-- `a1, ..., an]`. -/
def entryTokens (line : ℕ) : List (Attribute × Option Text) → List Token
  | [] => []
  | [e] => ⟨.identifier, attributeName e.1, line⟩ :: (argumentTokens line e.2 ++
      [⟨.rightBracket, bytes "]", line⟩])
  | e :: e' :: es => ⟨.identifier, attributeName e.1, line⟩ :: (argumentTokens line e.2 ++
      ⟨.comma, bytes ",", line⟩ :: entryTokens line (e' :: es))

/-- `#[a1, ..., an]`. -/
def listTokens (line : ℕ) (es : List (Attribute × Option Text)) : List Token :=
  ⟨.hashLeftBracket, bytes "#[", line⟩ :: entryTokens line es

/-- The attributes that are seen in front of the statement. -/
def seenAfter (mask : Attribute → Bool) (es : List (Attribute × Option Text)) : Attribute → Bool :=
  es.foldl (fun mask e => update mask e.1 true) mask

/-- A parser at other tokens, with other attributes seen. -/
def Parser.at (p : Parser) (tokens : List Token) (mask : Attribute → Bool) : Parser :=
  { p with tokens := tokens, seenAttributeMask := mask }

@[simp] theorem attributeBitForName_attributeName (a : Attribute) :
    attributeBitForName (attributeName a) = some a := by
  cases a <;> decide

theorem attributeEntry_eq (line : ℕ) {e : Attribute × Option Text} (he : IsEntry e) (p : Parser)
    (mask : Attribute → Bool) {t : Token} (ht : t.type ≠ .leftParenthesis) (rest : List Token) :
    attributeEntry line (p.at (⟨.identifier, attributeName e.1, line⟩ ::
      (argumentTokens line e.2 ++ t :: rest)) mask) = .ok (e.1, e.2, p.at (t :: rest) mask) := by
  obtain ⟨a, message⟩ := e
  cases message with
  | none =>
    simp [attributeEntry, argumentTokens, Parser.currentTokenIs, Parser.currentToken,
      Parser.nextToken, Parser.at, ht]
  | some m =>
    obtain rfl : a = .deprecated := by
      by_contra ha
      exact absurd (he ha) nofun
    simp [attributeEntry, argumentTokens, Parser.currentTokenIs, Parser.currentToken,
      Parser.nextToken, Parser.at]

theorem rejectDuplicate_of_fresh {p : Parser} {tokens : List Token}
    {mask : Attribute → Bool} {a : Attribute} (h : mask a = false) :
    rejectDuplicateAttribute (p.at tokens mask) a = (false, p.at tokens (update mask a true)) := by
  rw [rejectDuplicateAttribute, if_neg (by simp [Parser.at, h])]
  rfl

theorem fresh_tail {mask : Attribute → Bool} {e : Attribute × Option Text}
    {es : List (Attribute × Option Text)} (hnd : ((e :: es).map Prod.fst).Nodup)
    (hfr : ∀ e' ∈ e :: es, mask e'.1 = false) : ∀ e' ∈ es, update mask e.1 true e'.1 = false := by
  intro e' he'
  rw [map_cons, nodup_cons] at hnd
  have hne : e'.1 ≠ e.1 := fun heq => hnd.1 (heq ▸ mem_map_of_mem he')
  rw [update_of_ne hne]
  exact hfr e' (mem_cons_of_mem _ he')

theorem attributeLoop_of_entry {line : ℕ} {p q : Parser} {a : Attribute} {message : Option Text}
    (hid : p.currentToken.type = .identifier)
    (h : attributeEntry line p = .ok (a, message, q)) (hfr : q.seenAttributeMask a = false)
    (kept : List (Attribute × Option Text)) (n : ℕ) : attributeLoop line p kept n =
      (let r := { q with seenAttributeMask := update q.seenAttributeMask a true }
       let kept := kept ++ [(a, message)].take (8 - kept.length)
       if r.currentTokenIs .comma then
         if r.nextToken.currentTokenIs .rightBracket then
           ⟨kept, n + 1, true, r.nextToken.addError .E2093⟩
         else attributeLoop line r.nextToken kept (n + 1)
       else if r.currentTokenIs .rightBracket then ⟨kept, n + 1, false, r⟩
       else ⟨kept, n + 1, true, r.addError .E2093⟩) := by
  have hkeep : (if !false && decide (kept.length < 8) then kept ++ [(a, message)] else kept) =
      kept ++ [(a, message)].take (8 - kept.length) := by
    rcases Nat.lt_or_ge kept.length 8 with hlt | hge
    · obtain ⟨m, hm⟩ : ∃ m, 8 - kept.length = m + 1 := ⟨7 - kept.length, by omega⟩
      simp [hlt, hm]
    · simp [Nat.not_lt.mpr hge, Nat.sub_eq_zero_of_le hge]
  have hreject : rejectDuplicateAttribute q a =
      (false, { q with seenAttributeMask := update q.seenAttributeMask a true }) := by
    rw [rejectDuplicateAttribute, if_neg (by simp [hfr])]
  rw [attributeLoop, if_neg (by simp [Parser.currentTokenIs, hid])]
  split
  · rename_i herr
    rw [h] at herr
    cases herr
  · rename_i a' message' q' hok
    rw [h] at hok
    cases hok
    simp only [hreject, hkeep]

theorem attributeLoop_eq (line : ℕ) (p : Parser) (rest : List Token)
    {es : List (Attribute × Option Text)} (hne : es ≠ []) (hents : ∀ e ∈ es, IsEntry e)
    (hnd : (es.map Prod.fst).Nodup) {mask : Attribute → Bool}
    (hfr : ∀ e ∈ es, mask e.1 = false) (kept : List (Attribute × Option Text)) (n : ℕ) :
    attributeLoop line (p.at (entryTokens line es ++ rest) mask) kept n =
      ⟨kept ++ es.take (8 - kept.length), n + es.length, false,
        p.at (⟨.rightBracket, bytes "]", line⟩ :: rest) (seenAfter mask es)⟩ := by
  induction es generalizing mask kept n with
  | nil => exact absurd rfl hne
  | cons e es ih =>
    have he := hents e mem_cons_self
    have hmask := hfr e mem_cons_self
    cases es with
    | nil =>
      have hent := attributeEntry_eq line he p mask
        (show (⟨.rightBracket, bytes "]", line⟩ : Token).type ≠ .leftParenthesis from nofun) rest
      have htoks : entryTokens line [e] ++ rest = ⟨.identifier, attributeName e.1, line⟩ ::
          (argumentTokens line e.2 ++ ⟨.rightBracket, bytes "]", line⟩ :: rest) := by
        simp [entryTokens]
      rw [htoks, attributeLoop_of_entry rfl hent hmask]
      rfl
    | cons e' es =>
      have hent := attributeEntry_eq line he p mask
        (show (⟨.comma, bytes ",", line⟩ : Token).type ≠ .leftParenthesis from nofun)
        (entryTokens line (e' :: es) ++ rest)
      have hnext := ih (cons_ne_nil _ _) (fun e he => hents e (mem_cons_of_mem _ he))
        (nodup_cons.mp hnd).2 (fresh_tail hnd hfr)
        (kept ++ [e].take (8 - kept.length)) (n + 1)
      have hbra : (p.at (entryTokens line (e' :: es) ++ rest)
          (update mask e.1 true)).currentTokenIs .rightBracket = false := by
        cases es <;> rfl
      have htake : kept ++ [e].take (8 - kept.length) ++
          (e' :: es).take (8 - (kept ++ [e].take (8 - kept.length)).length) =
          kept ++ (e :: e' :: es).take (8 - kept.length) := by
        rcases Nat.lt_or_ge kept.length 8 with hlt | hge
        · obtain ⟨m, hm⟩ : ∃ m, 8 - kept.length = m + 1 := ⟨7 - kept.length, by omega⟩
          have hrest : 8 - (kept ++ [e]).length = m := by simp; omega
          simp [hm, show 8 - (kept.length + 1) = m by omega]
        · simp [Nat.sub_eq_zero_of_le hge]
      have htoks : entryTokens line (e :: e' :: es) ++ rest =
          ⟨.identifier, attributeName e.1, line⟩ :: (argumentTokens line e.2 ++
            ⟨.comma, bytes ",", line⟩ :: (entryTokens line (e' :: es) ++ rest)) := by
        simp [entryTokens]
      rw [htoks, attributeLoop_of_entry rfl hent hmask]
      refine (if_pos rfl).trans ((if_neg ?_).trans ?_)
      · exact Bool.eq_false_iff.mp hbra
      refine hnext.trans ?_
      rw [htake]
      simp [seenAfter, Nat.add_assoc, Nat.add_comm 1]

theorem attributeList_eq (line : ℕ) (p : Parser) (rest : List Token)
    {es : List (Attribute × Option Text)} (hne : es ≠ []) (hents : ∀ e ∈ es, IsEntry e)
    (hnd : (es.map Prod.fst).Nodup) {mask : Attribute → Bool}
    (hfr : ∀ e ∈ es, mask e.1 = false) : attributeList (p.at (listTokens line es ++ rest) mask) =
      (es.take 8, p.at rest (seenAfter mask es)) := by
  have hloop := attributeLoop_eq line p rest hne hents hnd hfr [] 0
  have hlen : es.length ≠ 0 := fun h => hne (length_eq_zero_iff.mp h)
  have hnext : (p.at (listTokens line es ++ rest) mask).nextToken =
      p.at (entryTokens line es ++ rest) mask := rfl
  have hline : (p.at (listTokens line es ++ rest) mask).currentToken.line = line := rfl
  simp only [attributeList, hnext, hline, hloop]
  simp [Parser.at, Parser.currentTokenIs, Parser.currentToken, Parser.nextToken, hlen]

/-- An attribute without arguments takes a parenthesis behind it as its arguments. -/
def TakesArguments (e : Attribute × Option Text) : Prop :=
  e = (.doc, none) ∨ e = (.deprecated, none)

theorem attributeArguments_eq (line : ℕ) {e : Attribute × Option Text} (he : IsEntry e)
    (p : Parser) (mask : Attribute → Bool) (rest : List Token)
    (hrest : TakesArguments e → (p.at rest mask).currentToken.type ≠ .leftParenthesis) :
    attributeArguments e.1 (p.at (argumentTokens line e.2 ++ rest) mask) =
      (e.2, p.at rest mask) := by
  obtain ⟨a, message⟩ := e
  cases message with
  | none =>
    have hparen : a = .doc ∨ a = .deprecated →
        (p.at rest mask).currentTokenIs .leftParenthesis = false := by
      intro ha
      exact decide_eq_false (hrest (by
        rcases ha with rfl | rfl
        · exact .inl rfl
        · exact .inr rfl))
    cases a <;> simp only [argumentTokens, nil_append, attributeArguments]
    · simp [parseDeprecatedMessage, hparen (.inr rfl)]
    · simp [hparen (.inl rfl)]
  | some m =>
    obtain rfl : a = .deprecated := by
      by_contra ha
      exact absurd (he ha) nofun
    rfl

section Statements

variable {α : Type} (parseRest : Parser → Option (Statement α) × Parser)

theorem parseStatement_attribute {p : Parser} {a : Attribute}
    (h : p.currentToken.type = .attribute a) : parseStatement parseRest p =
      applyStacked a (rejectDuplicateAttribute p a).1
        (attributeArguments a (rejectDuplicateAttribute p a).2.nextToken).1
        (parseStatement parseRest
          (attributeArguments a (rejectDuplicateAttribute p a).2.nextToken).2) := by
  rw [parseStatement]
  split
  · rename_i b hb
    rw [h] at hb
    cases hb
    rfl
  · rename_i hlist
    rw [h] at hlist
    cases hlist
  · rename_i hoth _
    exact absurd h (hoth a)

theorem parseStatement_list {p : Parser} (h : p.currentToken.type = .hashLeftBracket) :
    parseStatement parseRest p =
      (attributeList p).1.foldl (fun parsed e => applyNamedAttribute e.1 e.2 parsed)
        (parseStatement parseRest (attributeList p).2) := by
  rw [parseStatement]
  split
  · rename_i b hb
    rw [h] at hb
    cases hb
  · rfl
  · rename_i _ hoth
    exact absurd h hoth

theorem parseStatement_stacked (line : ℕ) (p : Parser) {rest : List Token}
    {es : List (Attribute × Option Text)} (hents : ∀ e ∈ es, IsEntry e)
    (hnd : (es.map Prod.fst).Nodup) {mask : Attribute → Bool}
    (hfr : ∀ e ∈ es, mask e.1 = false)
    (hrest : ∀ e ∈ es.getLast?, TakesArguments e →
      (p.at rest mask).currentToken.type ≠ .leftParenthesis) :
    parseStatement parseRest (p.at (stackedTokens line es ++ rest) mask) =
      es.foldr (fun e parsed => applyNamedAttribute e.1 e.2 parsed)
        (parseStatement parseRest (p.at rest (seenAfter mask es))) := by
  induction es generalizing mask with
  | nil => rfl
  | cons e es ih =>
    have hmask := hfr e mem_cons_self
    have hnext := ih (fun e he => hents e (mem_cons_of_mem _ he))
      (nodup_cons.mp hnd).2 (fresh_tail hnd hfr) (by
        intro e' he'
        cases es with
        | nil => exact absurd he' nofun
        | cons => exact hrest e' he')
    have htoks : stackedTokens line (e :: es) ++ rest =
        ⟨.attribute e.1, byte '#' :: attributeName e.1, line⟩ ::
          (argumentTokens line e.2 ++ (stackedTokens line es ++ rest)) := by
      simp [stackedTokens]
    have harguments := attributeArguments_eq line (hents e mem_cons_self) p
      (update mask e.1 true) (stackedTokens line es ++ rest) (by
        intro htakes
        cases es with
        | nil => exact hrest e rfl htakes
        | cons e' es => exact nofun)
    have hreject := @rejectDuplicate_of_fresh p (⟨.attribute e.1,
      byte '#' :: attributeName e.1, line⟩ :: (argumentTokens line e.2 ++
        (stackedTokens line es ++ rest))) mask e.1 hmask
    have hmoved : (p.at (⟨.attribute e.1, byte '#' :: attributeName e.1, line⟩ ::
        (argumentTokens line e.2 ++ (stackedTokens line es ++ rest)))
        (update mask e.1 true)).nextToken =
        p.at (argumentTokens line e.2 ++ (stackedTokens line es ++ rest))
          (update mask e.1 true) := rfl
    rw [htoks, parseStatement_attribute parseRest rfl, hreject, hmoved, harguments, hnext,
      applyStacked_of_not_duplicate]
    rfl

end Statements

/-! ### The order of the attributes -/

section Order

variable {α : Type}

def adorn (depth : ℕ) (statement : Option (Statement α)) (e : Attribute × Option Text) :
    Option (Statement α) :=
  statement.map fun st => if accepts depth e.1 st.kind then st.mark e.1 e.2 else st

/-- The errors of an attribute in front of a statement. -/
def refusal (depth : ℕ) (kind : Option StatementKind) (e : Attribute × Option Text) : List Code :=
  if e.1 = .doc ∨ kind.any (accepts depth e.1) = true then [] else [misappliedCode e.1]

theorem accepts_doc (depth : ℕ) (kind : StatementKind) : accepts depth .doc kind = false := by
  cases kind <;> rfl

/-- A parser with more errors. -/
def Parser.report (p : Parser) (codes : List Code) : Parser :=
  { p with diagnostics := p.diagnostics ++ codes }

theorem Parser.report_nil (p : Parser) : p.report [] = p := by
  simp [Parser.report]

theorem Parser.report_append (p : Parser) (codes codes' : List Code) :
    (p.report codes).report codes' = p.report (codes ++ codes') := by
  simp [Parser.report]

theorem applyNamed_eq (e : Attribute × Option Text)
    {parsed : Option (Statement α) × Parser} (hroom : parsed.2.diagnostics.length < 20) :
    applyNamedAttribute e.1 e.2 parsed = (adorn parsed.2.depth parsed.1 e,
        parsed.2.report (refusal parsed.2.depth (parsed.1.map Statement.kind) e)) := by
  obtain ⟨statement, p⟩ := parsed
  rw [applyNamedAttribute]
  split_ifs with hdoc hacc
  · cases statement <;> simp [adorn, refusal, hdoc, accepts_doc, Parser.report_nil]
  · cases statement with
    | none => simp at hacc
    | some st =>
      simp only [Option.any_some] at hacc
      simp [adorn, refusal, hacc, Parser.report_nil]
  · have hadd : ∀ code, p.addError code = p.report [code] :=
      fun code => if_neg (Nat.not_le.mpr hroom)
    cases statement with
    | none => simp [adorn, refusal, hdoc, hadd]
    | some st =>
      simp only [Option.any_some] at hacc
      simp [adorn, refusal, hdoc, hacc, hadd]

@[simp] theorem kind_adorn (depth : ℕ) (statement : Option (Statement α))
    (e : Attribute × Option Text) :
    (adorn depth statement e).map Statement.kind = statement.map Statement.kind := by
  cases statement with
  | none => rfl
  | some st =>
    simp only [adorn, Option.map_some]
    split_ifs <;> rfl

theorem length_refusal_le (depth : ℕ) (kind : Option StatementKind) (e : Attribute × Option Text) :
    (refusal depth kind e).length ≤ 1 := by
  rw [refusal]
  split_ifs
  · exact Nat.zero_le _
  · exact le_rfl

theorem length_flatMap_refusal_le (depth : ℕ) (kind : Option StatementKind)
    (es : List (Attribute × Option Text)) :
    (es.flatMap (refusal depth kind)).length ≤ es.length := by
  induction es with
  | nil => exact le_rfl
  | cons e es ih =>
    have hle := length_refusal_le depth kind e
    rw [flatMap_cons, length_append, length_cons]
    omega

theorem foldl_applyNamed (es : List (Attribute × Option Text))
    {parsed : Option (Statement α) × Parser}
    (hroom : parsed.2.diagnostics.length + es.length ≤ 20) :
    es.foldl (fun parsed e => applyNamedAttribute e.1 e.2 parsed) parsed =
      (es.foldl (adorn parsed.2.depth) parsed.1,
        parsed.2.report (es.flatMap (refusal parsed.2.depth (parsed.1.map Statement.kind)))) := by
  induction es generalizing parsed with
  | nil => simp [Parser.report_nil]
  | cons e es ih =>
    rw [length_cons] at hroom
    have hlen := length_refusal_le parsed.2.depth (parsed.1.map Statement.kind) e
    rw [foldl_cons, applyNamed_eq e (by omega), ih (by
      simp only [Parser.report, length_append]; omega), Parser.report_append]
    simp [Parser.report]

theorem adorn_comm (depth : ℕ) (statement : Option (Statement α))
    {e e' : Attribute × Option Text} (hne : e.1 ≠ e'.1) :
    adorn depth (adorn depth statement e) e' = adorn depth (adorn depth statement e') e := by
  cases statement with
  | none => rfl
  | some st =>
    have hmark : (st.mark e.1 e.2).mark e'.1 e'.2 = (st.mark e'.1 e'.2).mark e.1 e.2 := by
      simp only [Statement.mark, Statement.mk.injEq, true_and, and_true]
      refine ⟨update_comm hne _ _ _, ?_⟩
      split_ifs with h h'
      · exact absurd (h'.trans h.symm) hne
      all_goals rfl
    have hkind : ∀ e : Attribute × Option Text, (st.mark e.1 e.2).kind = st.kind := fun _ => rfl
    simp only [adorn, Option.map_some]
    split_ifs <;> simp_all

theorem foldl_adorn_reverse (depth : ℕ) (statement : Option (Statement α))
    {es : List (Attribute × Option Text)} (hnd : (es.map Prod.fst).Nodup) :
    es.reverse.foldl (adorn depth) statement = es.foldl (adorn depth) statement := by
  refine (reverse_perm es).foldl_eq' (fun e he e' he' statement => ?_) statement
  by_cases hne : e.1 = e'.1
  · rw [inj_on_of_nodup_map hnd (mem_reverse.mp he) (mem_reverse.mp he') hne]
  · exact adorn_comm depth statement hne

/-- The same tree with the same marks, and the same codes in whichever order. -/
def SameOutcome (r r' : Option (Statement α) × Parser) : Prop :=
  r.1 = r'.1 ∧ r.2.diagnostics.Perm r'.2.diagnostics

theorem sameOutcome_foldr {es : List (Attribute × Option Text)}
    (hnd : (es.map Prod.fst).Nodup) {parsed : Option (Statement α) × Parser}
    (hroom : parsed.2.diagnostics.length + es.length ≤ 20) :
    SameOutcome (es.foldl (fun parsed e => applyNamedAttribute e.1 e.2 parsed) parsed)
      (es.foldr (fun e parsed => applyNamedAttribute e.1 e.2 parsed) parsed) := by
  rw [← foldl_reverse, foldl_applyNamed es hroom,
    foldl_applyNamed es.reverse (by rwa [length_reverse]), foldl_adorn_reverse _ _ hnd]
  exact ⟨rfl, ((reverse_perm es).symm.flatMap_right _).append_left _⟩

theorem marks_foldl_adorn (depth : ℕ) {a : Attribute} {es : List (Attribute × Option Text)}
    (ha : ∀ e ∈ es, e.1 ≠ a) {statement : Option (Statement α)}
    (hfr : ∀ st ∈ statement, st.marks a = false) :
    ∀ st ∈ es.foldl (adorn depth) statement, st.marks a = false := by
  induction es generalizing statement with
  | nil => exact hfr
  | cons e es ih =>
    refine ih (fun e' he' => ha e' (mem_cons_of_mem _ he')) fun st hst => ?_
    obtain ⟨st', hst', rfl⟩ := Option.map_eq_some_iff.mp hst
    split_ifs
    · exact (update_of_ne (ha e mem_cons_self).symm _ _).trans (hfr st' hst')
    · exact hfr st' hst'

theorem sameOutcome_applyNamed_iff {e : Attribute × Option Text}
    {parsed : Option (Statement α) × Parser} (hroom : parsed.2.diagnostics.length < 20)
    (hfr : ∀ st ∈ parsed.1, st.marks e.1 = false) :
    SameOutcome parsed (applyNamedAttribute e.1 e.2 parsed) ↔ e.1 = .doc := by
  constructor
  · intro hsame
    by_contra hdoc
    rw [applyNamed_eq e hroom] at hsame
    obtain ⟨hstmt, hcodes⟩ := hsame
    have hlen := hcodes.length_eq
    obtain ⟨statement, p⟩ := parsed
    simp only [Parser.report, length_append, refusal] at hlen
    split_ifs at hlen with haccepts
    · cases statement with
      | none => simp [hdoc] at haccepts
      | some st =>
        have hacc : accepts p.depth e.1 st.kind = true := by simpa [hdoc] using haccepts
        have hmarks := congrArg (fun s => s.map fun st : Statement α => st.marks e.1) hstmt
        simp [adorn, hacc, Statement.mark, hfr st rfl] at hmarks
    · simp at hlen
  · intro hdoc
    rw [applyNamedAttribute, if_pos hdoc]
    exact ⟨rfl, List.Perm.refl _⟩

theorem SameOutcome.symm {r r' : Option (Statement α) × Parser} (h : SameOutcome r r') :
    SameOutcome r' r := ⟨h.1.symm, h.2.symm⟩

theorem SameOutcome.trans {r r' r'' : Option (Statement α) × Parser} (h : SameOutcome r r')
    (h' : SameOutcome r' r'') : SameOutcome r r'' := ⟨h.1.trans h'.1, h.2.trans h'.2⟩

theorem length_le_nine {es : List (Attribute × Option Text)}
    (hnd : (es.map Prod.fst).Nodup) : es.length ≤ 9 := by
  have hall : ∀ a : Attribute, a ∈ attributes := by
    intro a
    cases a <;> decide
  have hle := (subperm_of_subset hnd fun a _ => hall a).length_le
  rwa [length_map] at hle

end Order

/-! ### Lists and stacked attributes -/

section Lists

variable {α : Type} (parseRest : Parser → Option (Statement α) × Parser)

theorem parseStatement_listTokens (line : ℕ) (p : Parser) (rest : List Token)
    {es : List (Attribute × Option Text)} (hne : es ≠ []) (hents : ∀ e ∈ es, IsEntry e)
    (hnd : (es.map Prod.fst).Nodup) {mask : Attribute → Bool}
    (hfr : ∀ e ∈ es, mask e.1 = false) :
    parseStatement parseRest (p.at (listTokens line es ++ rest) mask) =
      (es.take 8).foldl (fun parsed e => applyNamedAttribute e.1 e.2 parsed)
        (parseStatement parseRest (p.at rest (seenAfter mask es))) := by
  rw [parseStatement_list parseRest rfl, attributeList_eq line p rest hne hents hnd hfr]

/-- A list of distinct attributes has the outcome of the stacked attributes exactly up to eight of
them, or if the ninth is `doc`. The statement behind them has none of the attributes itself that
the list drops, its errors leave room for those of the attributes, and it does not start with what
the last stacked attribute takes as its arguments. -/
theorem attributeList_isStacked_iff (line : ℕ) (p : Parser) (rest : List Token)
    {es : List (Attribute × Option Text)} (hne : es ≠ []) (hentries : ∀ e ∈ es, IsEntry e)
    (hnodup : (es.map Prod.fst).Nodup)
    (hrest : ∀ e ∈ es.getLast?, TakesArguments e →
      (p.at rest fun _ => false).currentToken.type ≠ .leftParenthesis)
    (hroom : (parseStatement parseRest
      (p.at rest (seenAfter (fun _ => false) es))).2.diagnostics.length + es.length ≤ 20)
    (hfresh : ∀ e ∈ es.drop 8, ∀ st ∈ (parseStatement parseRest
      (p.at rest (seenAfter (fun _ => false) es))).1, st.marks e.1 = false) :
    SameOutcome (parseStatement parseRest (p.at (listTokens line es ++ rest) fun _ => false))
      (parseStatement parseRest (p.at (stackedTokens line es ++ rest) fun _ => false)) ↔
      ∀ e ∈ es.drop 8, e.1 = .doc := by
  rw [parseStatement_listTokens parseRest line p rest hne hentries hnodup fun _ _ => rfl,
    parseStatement_stacked parseRest line p hentries hnodup (fun _ _ => rfl) hrest]
  generalize parseStatement parseRest (p.at rest (seenAfter (fun _ => false) es)) = parsed at *
  have hstacked := sameOutcome_foldr hnodup hroom
  have hspl := take_append_drop 8 es
  have hnine := length_le_nine hnodup
  rcases hdrop : es.drop 8 with _ | ⟨e, tail⟩
  · rw [hdrop, append_nil] at hspl
    rw [hspl]
    exact iff_of_true hstacked nofun
  · obtain rfl : tail = [] := by
      have hlen := congrArg List.length hdrop
      rw [length_drop, length_cons] at hlen
      exact length_eq_zero_iff.mp (by omega)
    rw [hdrop] at hspl hfresh
    -- The list leaves out the last attribute, which the stacked form applies.
    have hfro : (es.take 8).length + 1 = es.length := by
      rw [← congrArg List.length hspl, length_append, length_singleton]
    have hoth : ∀ e' ∈ es.take 8, e'.1 ≠ e.1 := by
      rw [← hspl, map_append, nodup_append] at hnodup
      exact fun e' he' => hnodup.2.2 _ (mem_map_of_mem he') _ (mem_map_of_mem (by simp))
    have hall : es.foldl (fun parsed e => applyNamedAttribute e.1 e.2 parsed) parsed =
        applyNamedAttribute e.1 e.2
          ((es.take 8).foldl (fun parsed e => applyNamedAttribute e.1 e.2 parsed) parsed) := by
      conv_lhs => rw [← hspl]
      rw [foldl_append]
      rfl
    rw [hall] at hstacked
    have hcls := @foldl_applyNamed α (es.take 8) parsed (by omega)
    have hmore : ((es.take 8).foldl (fun parsed e => applyNamedAttribute e.1 e.2 parsed)
        parsed).2.diagnostics.length < 20 := by
      have hle := length_flatMap_refusal_le parsed.2.depth (parsed.1.map Statement.kind) (es.take 8)
      simp only [hcls, Parser.report, length_append]
      omega
    have hkept : ∀ st ∈ ((es.take 8).foldl (fun parsed e => applyNamedAttribute e.1 e.2 parsed)
        parsed).1, st.marks e.1 = false := by
      rw [hcls]
      exact marks_foldl_adorn _ hoth (hfresh e (by simp))
    have hnotice := sameOutcome_applyNamed_iff hmore hkept
    rw [show (∀ e' ∈ [e], e'.1 = .doc) ↔ e.1 = .doc by simp, ← hnotice]
    exact ⟨fun h => h.trans hstacked.symm, fun h => h.trans hstacked⟩

end Lists

/-- A parser that reads one function behind the attributes. -/
def parseFunction (p : Parser) : Option (Statement Unit) × Parser :=
  (some ⟨.functionDeclaration, fun _ => false, none, ()⟩, p.nextToken)

/-- A parser in front of `do`, in a new file. -/
def functionParser : Parser := ⟨[], fun _ => false, 0, []⟩

def functionTokens : List Token := [⟨.doKeyword, bytes "do", 1⟩]

/-- Attributes without arguments. -/
def bare (l : List Attribute) : List (Attribute × Option Text) := l.map fun a => (a, none)

theorem isEntry_of_mem_bare {l : List Attribute} : ∀ e ∈ bare l, IsEntry e := by
  intro e he _
  obtain ⟨a, -, rfl⟩ := mem_map.mp he
  rfl

/-- All attributes, `test` as the last one. -/
def allAttributes : List (Attribute × Option Text) :=
  bare [.strict, .flags, .json, .discard, .deprecated, .doc, .errorCode, .define, .test]

theorem parseStatement_functionTokens (mask : Attribute → Bool) :
    parseStatement parseFunction (functionParser.at functionTokens mask) =
      parseFunction (functionParser.at functionTokens mask) := by
  rw [parseStatement]
  rfl

theorem attributeList_isStacked_iff_two : SameOutcome
      (parseStatement parseFunction
        (functionParser.at (listTokens 1 (bare [.test, .discard]) ++ functionTokens)
          fun _ => false))
      (parseStatement parseFunction
        (functionParser.at (stackedTokens 1 (bare [.test, .discard]) ++ functionTokens)
          fun _ => false)) ↔ ∀ e ∈ (bare [.test, .discard]).drop 8, e.1 = .doc :=
  attributeList_isStacked_iff parseFunction 1 functionParser functionTokens nofun
    isEntry_of_mem_bare (by decide) (fun _ _ _ => nofun)
    (by rw [parseStatement_functionTokens]; decide) nofun

/-- In a list of all nine attributes a function is not marked as a test. -/
theorem attributeList_drops_ninth : (allAttributes.map Prod.fst).Nodup ∧
      (parseStatement parseFunction (functionParser.at
        (listTokens 1 allAttributes ++ functionTokens) fun _ => false)).1.map
          (fun st => st.marks .test) = some false ∧ (parseStatement parseFunction (functionParser.at
        (stackedTokens 1 allAttributes ++ functionTokens) fun _ => false)).1.map
          (fun st => st.marks .test) = some true ∧ ¬ SameOutcome
        (parseStatement parseFunction (functionParser.at
          (listTokens 1 allAttributes ++ functionTokens) fun _ => false))
        (parseStatement parseFunction (functionParser.at
          (stackedTokens 1 allAttributes ++ functionTokens) fun _ => false)) := by
  have hnd : (allAttributes.map Prod.fst).Nodup := by decide
  have hlist := @parseStatement_listTokens Unit parseFunction 1 functionParser functionTokens
    allAttributes nofun isEntry_of_mem_bare hnd (fun _ => false) fun _ _ => rfl
  have hstacked := @parseStatement_stacked Unit parseFunction 1 functionParser functionTokens
    allAttributes isEntry_of_mem_bare hnd (fun _ => false) (fun _ _ => rfl) fun _ _ _ => nofun
  rw [parseStatement_functionTokens] at hlist hstacked
  have hdropped : (parseStatement parseFunction (functionParser.at
      (listTokens 1 allAttributes ++ functionTokens) fun _ => false)).1.map
        (fun st => st.marks .test) = some false := by
    rw [hlist]
    decide
  have hmrk : (parseStatement parseFunction (functionParser.at
      (stackedTokens 1 allAttributes ++ functionTokens) fun _ => false)).1.map
        (fun st => st.marks .test) = some true := by
    rw [hstacked]
    decide
  refine ⟨hnd, hdropped, hmrk, fun hsame => ?_⟩
  rw [hsame.1, hmrk] at hdropped
  exact absurd hdropped (by decide)

end Grayscale.Attributes
