import Grayscale.Lexer.Token
import Grayscale.Typechecker.Magnitude
import Mathlib.Data.Int.Bitwise

/-!
# Folding of integer constants

`constant_fold` evaluates a constant expression on a sign and a magnitude of 320 bits. Decimal
numbers (`is_decimal`, the floating-point literals) are left out: an expression with one of them
is no integer constant.
-/

namespace Grayscale

/-! ### Values -/

/-- A folded integer. -/
structure LiteralValue where
  isTooLarge : Bool
  isNegative : Bool
  magnitude : Magnitude

/-- The integer of a sign and a magnitude. -/
def LiteralValue.toInt (v : LiteralValue) : ℤ :=
  if v.isNegative then -(v.magnitude.toNat : ℤ) else v.magnitude.toNat

def literalSetU64 (value : ℕ) : LiteralValue :=
  ⟨false, false, .ofLimbs fun i => if i = 0 then value else if i = 1 then value >>> 32 else 0⟩

def literalNormalizeSign (value : LiteralValue) : LiteralValue :=
  if magnitudeIsZero value.magnitude then { value with isNegative := false } else value

def Magnitude.complement (m : Magnitude) : Magnitude := .ofLimbs fun i => 2 ^ 32 - 1 - m.limb i

/-- `literal_to_twos`: the two's complement of a value. -/
def literalToTwos (value : LiteralValue) : Magnitude :=
  if value.isNegative then (magnitudeAdd value.magnitude.complement (.single 1)).1
  else value.magnitude

def literalFromTwos (twos : Magnitude) : LiteralValue :=
  if (twos.limb (literalLimbs - 1)).testBit 31 then
    ⟨false, true, (magnitudeAdd twos.complement (.single 1)).1⟩
  else ⟨false, false, twos⟩

/-- `literal_add`: the sum of integers of any sign. -/
def literalAdd (left right : LiteralValue) : LiteralValue :=
  let result : LiteralValue :=
    if left.isNegative = right.isNegative then
      let sum := magnitudeAdd left.magnitude right.magnitude
      { left with magnitude := sum.1, isTooLarge := left.isTooLarge || !sum.2 }
    else if magnitudeCompare left.magnitude right.magnitude ≥ 0 then
      { left with magnitude := magnitudeSubtract left.magnitude right.magnitude }
    else { right with magnitude := magnitudeSubtract right.magnitude left.magnitude }
  literalNormalizeSign
    { result with isTooLarge := result.isTooLarge || left.isTooLarge || right.isTooLarge }

/-! ### Types -/

/-- Whether an integer type has a sign. -/
inductive IntegerKind
  | signed | unsigned
  deriving DecidableEq

/-- An integer type: its kind and its name. -/
structure IntegerType where
  kind : IntegerKind
  name : Text
  deriving DecidableEq

/-- `integer_type_name_width_rank`: the rank of a named integer type; zero for another name. -/
def integerTypeNameWidthRank (typeName : Text) : ℕ :=
  if byteAt typeName 0 ≠ byte 'i' ∧ byteAt typeName 0 ≠ byte 'u' then 0
  else if typeName.drop 1 = bytes "8" then 1
  else if typeName.drop 1 = bytes "16" then 2
  else if typeName.drop 1 = bytes "32" then 3
  else if typeName.drop 1 = bytes "64" then 4
  else if typeName.drop 1 = bytes "128" then 5
  else if typeName.drop 1 = bytes "256" then 6
  else 0

/-- `integer_type_bits`: the bits of a sized integer type name; zero for anything else. -/
def integerTypeBits (name : Text) : ℕ :=
  if integerTypeNameWidthRank name ≠ 0 then 4 <<< integerTypeNameWidthRank name else 0

/-- `literal_fits`, for an integer type. -/
def literalFits (value : LiteralValue) (target : IntegerType) : Bool :=
  if value.isTooLarge then false
  else
    let bits := integerTypeBits target.name
    let length := magnitudeBitLength value.magnitude
    if target.kind = .unsigned then !value.isNegative && length ≤ bits
    else if !value.isNegative then (length : ℤ) ≤ bits - 1
    else length < bits || (length == bits && magnitudeIsPowerOfTwo value.magnitude (bits - 1))

/-! ### Expressions -/

/-- The number of a decimal text; characters other than digits do not count. -/
def decimalNumber (text : Text) : ℕ :=
  text.foldl (fun n c => if isdigit c then 10 * n + (c.toNat - 48) else n) 0

/-- An integer literal of the syntax tree: its value as `uint64_t`, whether it is above
`UINT64_MAX`, and its decimal text, of which `parse_integer_literal` computes the two. -/
structure IntegerLiteral where
  value : ℕ
  isAboveU64Maximum : Bool
  literal : Text
  value_eq : value = decimalNumber literal % 2 ^ 64
  isAboveU64Maximum_iff : isAboveU64Maximum = true ↔ 2 ^ 64 ≤ decimalNumber literal

/-- The syntax that folds to an integer. -/
inductive ConstantExpression
  | label (name : Text)
  | integerLiteral (literal : IntegerLiteral)
  | prefixExpression (operator : TokenType) (right : ConstantExpression)
  | infixExpression (left : ConstantExpression) (operator : TokenType)
      (right : ConstantExpression)
  | other

def isLiteralExpression : ConstantExpression → Bool
  | .label _ => false
  | .integerLiteral _ => true
  | .prefixExpression operator right =>
    (operator == .minus || operator == .bitNot) && isLiteralExpression right
  | .infixExpression left operator right =>
    if operator = .bitShiftLeft ∨ operator = .bitShiftRight then isLiteralExpression left
    else [TokenType.plus, .minus, .asterisk, .slash, .percent, .bitAnd, .bitOr, .bitXor].contains
        operator && isLiteralExpression left && isLiteralExpression right
  | .other => false

/-! ### Folding -/

/-- The loop that reads the decimal text of a literal above `UINT64_MAX`: the magnitude, and
whether it is too large. -/
def decimalMagnitude : Text → Magnitude → Magnitude × Bool
  | [], magnitude => (magnitude, false)
  | c :: l, magnitude =>
    if !isdigit c then decimalMagnitude l magnitude
    else match magnitudeMultiply magnitude (.single 10) with
      | none => (magnitude, true)
      | some product =>
        let sum := magnitudeAdd product (.single (c.toNat - 48))
        if sum.2 then decimalMagnitude l sum.1 else (sum.1, true)

def foldIntegerLiteral (literal : IntegerLiteral) : LiteralValue :=
  if literal.isAboveU64Maximum then
    let read := decimalMagnitude literal.literal .zero
    ⟨read.2, false, read.1⟩
  else literalSetU64 literal.value

/-- A sign operator of `constant_fold_step`. -/
def foldPrefixOperator (operator : TokenType) (value : LiteralValue) : Option LiteralValue :=
  if operator = .minus then
    some (literalNormalizeSign { value with isNegative := !value.isNegative })
  else if operator = .bitNot then
    some (literalAdd (literalNormalizeSign { value with isNegative := !value.isNegative })
      { literalSetU64 1 with isNegative := true })
  else none

/-- The operator of two limbs of a bitwise expression. -/
def limbOperator (operator : TokenType) (left right : ℕ) : ℕ :=
  if operator = .bitAnd then left &&& right
  else if operator = .bitOr then left ||| right
  else left ^^^ right

/-- The count of a shift, at most the bits of a magnitude. -/
def shiftCount (right : Magnitude) : ℕ :=
  if magnitudeBitLength right > 16 then literalBits else right.limb 0

/-- A binary operator of `constant_fold_step`. -/
def foldInfixOperator (operator : TokenType) (left right : LiteralValue) : Option LiteralValue :=
  if operator = .plus then some (literalAdd left right)
  else if operator = .minus then
    some (literalAdd left (literalNormalizeSign { right with isNegative := !right.isNegative }))
  else if operator = .asterisk then
    let product := magnitudeMultiply left.magnitude right.magnitude
    some (literalNormalizeSign
      ⟨product.isNone || left.isTooLarge || right.isTooLarge, left.isNegative != right.isNegative,
        product.getD left.magnitude⟩)
  else if operator = .slash ∨ operator = .percent then
    if magnitudeIsZero right.magnitude then none
    else
      let divided := magnitudeDivide left.magnitude right.magnitude
      some (literalNormalizeSign
        (if operator = .slash then
          ⟨left.isTooLarge || right.isTooLarge, left.isNegative != right.isNegative, divided.1⟩
        else ⟨left.isTooLarge || right.isTooLarge, left.isNegative, divided.2⟩))
  else if operator = .bitAnd ∨ operator = .bitOr ∨ operator = .bitXor then
    let leftLimb := literalToTwos left
    let rightLimb := literalToTwos right
    some { literalFromTwos (.ofLimbs fun i =>
        limbOperator operator (leftLimb.limb i) (rightLimb.limb i)) with
      isTooLarge := left.isTooLarge || right.isTooLarge }
  else if operator = .bitShiftLeft then
    if right.isNegative then none
    else
      let shifted := magnitudeShiftLeft left.magnitude (shiftCount right.magnitude)
      some (literalNormalizeSign
        ⟨shifted.isNone || left.isTooLarge, left.isNegative, shifted.getD left.magnitude⟩)
  else if operator = .bitShiftRight then
    if right.isNegative then none
    else
      -- an arithmetic shift: a negative value rounds toward negative infinity
      let shifted := magnitudeShiftRight left.magnitude (shiftCount right.magnitude)
      some (literalNormalizeSign { left with
        magnitude := if left.isNegative && shifted.2 then (magnitudeAdd shifted.1 (.single 1)).1
          else shifted.1 })
  else none

/-- What `constant_fold` reads of the checker: the const integer that a name is bound to, and the
sized integer type of an expression. -/
structure ConstantTables where
  findConstInteger : Text → Option LiteralValue
  typeTableGet : ConstantExpression → Option IntegerType

/-- The last step of `constant_fold`: a step with a sized type must fit it. -/
def foldTyped (checker : Option ConstantTables) (node : ConstantExpression)
    (value : LiteralValue) : LiteralValue :=
  match checker with
  | none => value
  | some tables =>
    if isLiteralExpression node then value
    else match tables.typeTableGet node with
      | none => value
      | some type => if literalFits value type then value else { value with isTooLarge := true }

def constantFold (checker : Option ConstantTables) : ConstantExpression → Option LiteralValue
  | .label name => checker.bind fun tables => tables.findConstInteger name
  | .integerLiteral literal => some (foldIntegerLiteral literal)
  | .prefixExpression operator right =>
    ((constantFold checker right).bind (foldPrefixOperator operator)).map
      (foldTyped checker (.prefixExpression operator right))
  | .infixExpression left operator right =>
    ((constantFold checker left).bind fun l =>
      (constantFold checker right).bind (foldInfixOperator operator l)).map
        (foldTyped checker (.infixExpression left operator right))
  | .other => none

def literalFold (node : ConstantExpression) : Option LiteralValue := constantFold none node

/-! ### Text -/

/-- The loop of `literal_integer_text`: the decimal digits, the lowest first. -/
def integerDigits : ℕ → Magnitude → List ℕ
  | 0, _ => []
  | fuel + 1, working =>
    let divided := magnitudeDivide working (.single 10)
    divided.2.limb 0 :: if magnitudeIsZero divided.1 then [] else integerDigits fuel divided.1

/-- `literal_integer_text`; its buffer has room for `literalLimbs * 10 + 2` digits. -/
def literalIntegerText (value : LiteralValue) : Text :=
  (if value.isNegative then [byte '-'] else []) ++
    (integerDigits (literalLimbs * 10 + 2) value.magnitude).reverse.map fun d => (48 + d).toUInt8

end Grayscale
