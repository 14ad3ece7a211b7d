import Grayscale.Codegen.StringLiterals
import Grayscale.Library.DecimalText
import Grayscale.Typechecker.LiteralExact

/-!
# Keys of constant cases

A repeated case of a `when` and a repeated key of a map literal are found by a text for each
constant, written into a buffer of fixed size. This file has the text, the two checks, and the
values that constants have at run time.
-/

namespace Grayscale.CaseKeys

open List

/-! ### Keys -/

/-- A number that `constant_fold` finds: an integer, or a decimal number as a finite `double`. -/
inductive FoldedNumber (D : Type)
  | integer (value : LiteralValue)
  | decimal (value : D)

/-- A case value or a map key, as `constant_case_key` tells them apart. -/
inductive CaseNode (D : Type)
  | stringValue (node : StringValueNode)
  | charValue (value : BitVec 32)
  | boolValue (value : Bool)
  | implicitEnum (variant : Text)
  /-- `NODE_MEMBER_EXPRESSION`; the object may be another expression than a label. -/
  | member (objectLabel : Option Text) (member : Text)
  | whenPattern (variant : Text)
  /-- Any other node, with what `constant_fold` makes of it. -/
  | other (folded : Option (FoldedNumber D))

inductive FloatType
  | f32 | f64
  deriving DecidableEq

/-- What the checks and the program use of `double` and of the library of C. -/
structure DoubleLibrary (D : Type) where
  /-- `decimal_text`: the shortest text of `printf` that `strtod` reads back. -/
  decimalText : D → Text
  /-- A decimal constant at run time. -/
  convert : FloatType → D → D
  /-- An integer constant at run time. -/
  ofInteger : FloatType → ℤ → D
  /-- `==` at run time. -/
  equal : D → D → Bool
  /-- The text is read back. -/
  decimalText_injective : Function.Injective decimalText
  /-- The buffer of the text has 64 bytes. -/
  length_decimalText : ∀ d, (decimalText d).length < 64
  /-- A text without a point or an exponent is that of an integer, which is the number. -/
  convert_of_text : ∀ T d value, decimalText d = literalIntegerText value →
    convert T d = ofInteger T value.toInt
  /-- A finite number equals itself. -/
  equal_self : ∀ d, equal d d = true

/-- What `constant_case_key` reads of the checker. -/
structure EnumNames where
  resolveTypeAlias : Text → Text
  isEnumName : Text → Bool

def messageBufferSize : ℕ := 256

/-- `snprintf` of a text into a key buffer: the last byte is the NUL. -/
def writeKey (text : Text) : Text := text.take (messageBufferSize - 1)

/-- `%d`. -/
def signedText (n : ℤ) : Text :=
  if n < 0 then byte '-' :: DecimalText.render n.natAbs else DecimalText.render n.natAbs

section Keys

variable {D : Type} (library : DoubleLibrary D) (checker : EnumNames)

def literalText : FoldedNumber D → Text
  | .decimal value => library.decimalText value
  | .integer value => literalIntegerText value

def constantCaseKey : CaseNode D → Option Text
  | .stringValue node => some (writeKey (bytes "s:" ++ node.value))
  | .charValue value => some (writeKey (bytes "c:" ++ signedText value.toInt))
  | .boolValue value => some (writeKey (bytes "b:" ++ signedText (if value then 1 else 0)))
  | .implicitEnum variant => some (writeKey (bytes "e:" ++ variant))
  | .member (some label) member =>
    if checker.isEnumName (checker.resolveTypeAlias label) then
      some (writeKey (bytes "e:" ++ member))
    else none
  | .member none _ => none
  | .whenPattern _ => none
  | .other none => none
  | .other (some (.integer value)) =>
    if value.isTooLarge then none
    else some (writeKey (bytes "n:" ++ literalText library (.integer value)))
  | .other (some (.decimal value)) =>
    some (writeKey (bytes "n:" ++ literalText library (.decimal value)))

def whenCaseVariantName : CaseNode D → Option Text
  | .whenPattern variant => some variant
  | .implicitEnum variant => some variant
  | .member (some _) member => some member
  | .member none _ | .stringValue _ | .charValue _ | .boolValue _ | .other _ => none

def whenCaseValuesEqual (left right : CaseNode D) : Bool :=
  match constantCaseKey library checker left, constantCaseKey library checker right with
  | some leftKey, some rightKey => leftKey == rightKey
  | _, _ =>
    match whenCaseVariantName left, whenCaseVariantName right with
    | some leftValue, some rightValue => leftValue == rightValue
    | _, _ => false

/-- `check_map_literal_duplicate_keys`: the keys that are reported as E12006. -/
def checkMapLiteralDuplicateKeys : List (CaseNode D) → List (CaseNode D)
  | [] => []
  | left :: keys =>
    (match constantCaseKey library checker left with
    | none => []
    | some leftKey =>
      keys.filter fun right => constantCaseKey library checker right == some leftKey) ++
      checkMapLiteralDuplicateKeys keys

end Keys

/-! ### Values -/

/-- The value behind an enum variant: a number, or the text of a string enum. -/
inductive EnumeratorValue
  | number (value : ℤ)
  | text (value : Text)
  deriving DecidableEq

/-- The values of an enum, by the name of the variant: no two variants have one name, E2014. -/
abbrev EnumType : Type := Text → Option EnumeratorValue

/-- The type of a case value or a map key. -/
inductive CaseType
  | string | char | bool
  | enumeration (values : EnumType)
  | integer
  | floating (T : FloatType)

/-- A value at run time. -/
inductive RuntimeValue (D : Type)
  | string (value : Text)
  | char (value : BitVec 32)
  | bool (value : Bool)
  | enumeration (value : EnumeratorValue)
  | integer (value : ℤ)
  | floating (value : D)

section Values

variable {D : Type} (library : DoubleLibrary D) (checker : EnumNames)

/-- The value of a constant that the checker accepts as one of the type: a string after its escapes,
a number as the type has it. An integer that is too large fits no type. -/
inductive Denotes : CaseNode D → CaseType → RuntimeValue D → Prop
  | string (node : StringValueNode) :
    Denotes (.stringValue node) .string (.string (astStringDecode node))
  | char (value : BitVec 32) : Denotes (.charValue value) .char (.char value)
  | bool (value : Bool) : Denotes (.boolValue value) .bool (.bool value)
  | implicitEnum {values : EnumType} {variant : Text} {value : EnumeratorValue}
    (h : values variant = some value) :
    Denotes (.implicitEnum variant) (.enumeration values) (.enumeration value)
  | member {values : EnumType} {label variant : Text} {value : EnumeratorValue}
    (hlabel : checker.isEnumName (checker.resolveTypeAlias label) = true)
    (h : values variant = some value) :
    Denotes (.member (some label) variant) (.enumeration values) (.enumeration value)
  | integer {value : LiteralValue} (hnormal : value.Normal) (hsize : value.isTooLarge = false) :
    Denotes (.other (some (.integer value))) .integer (.integer value.toInt)
  | floatingInteger {value : LiteralValue} (T : FloatType) (hnormal : value.Normal)
    (hsize : value.isTooLarge = false) : Denotes (.other (some (.integer value))) (.floating T)
      (.floating (library.ofInteger T value.toInt))
  | decimal (value : D) (T : FloatType) :
    Denotes (.other (some (.decimal value))) (.floating T) (.floating (library.convert T value))

/-- Two values of one type are equal at run time. -/
def RuntimeEqual : RuntimeValue D → RuntimeValue D → Prop
  | .floating left, .floating right => library.equal left right = true
  | left, right => left = right

/-- The spelling that a key is made of. -/
def spelling : CaseNode D → Text
  | .stringValue node => node.value
  | .charValue value => signedText value.toInt
  | .boolValue value => signedText (if value then 1 else 0)
  | .implicitEnum variant | .member _ variant | .whenPattern variant => variant
  | .other none => []
  | .other (some number) => literalText library number

/-- The part of a spelling that fits the buffer behind the two bytes of its kind. -/
def kept (text : Text) : Text := text.take (messageBufferSize - 3)

/-- The pairs of constants of a type that their keys do not tell: strings and enum variants that are
spelled alike in the part that fits and have different values, or are spelled apart there and have
one value, and numbers of a float type that are written apart and are equal as the type has them. -/
def KeyMisleads (left right : CaseNode D) (a b : RuntimeValue D) : CaseType → Prop
  | .string | .enumeration _ =>
    kept (spelling library left) = kept (spelling library right) ∧ a ≠ b ∨
      kept (spelling library left) ≠ kept (spelling library right) ∧ a = b
  | .floating _ => spelling library left ≠ spelling library right ∧ RuntimeEqual library a b
  | .char | .bool | .integer => False

/-- The keys and both checks tell whether two constants have one value. -/
structure KeysExact (left right : CaseNode D) (a b : RuntimeValue D) : Prop where
  key : constantCaseKey library checker left = constantCaseKey library checker right ↔
    RuntimeEqual library a b
  caseRepeated : whenCaseValuesEqual library checker left right = true ↔ RuntimeEqual library a b
  keyRepeated : checkMapLiteralDuplicateKeys library checker [left, right] = [right] ↔
    RuntimeEqual library a b

/-! ### When keys are equal -/

/-- The two bytes in front of a spelling. -/
def tag : CaseNode D → Text
  | .stringValue _ => bytes "s:"
  | .charValue _ => bytes "c:"
  | .boolValue _ => bytes "b:"
  | .implicitEnum _ | .member _ _ | .whenPattern _ => bytes "e:"
  | .other _ => bytes "n:"

variable {library checker}

theorem writeKey_append {prefixText : Text} (h : prefixText.length = 2) (text : Text) :
    writeKey (prefixText ++ text) = prefixText ++ kept text := by
  rw [writeKey, take_append, h, take_of_length_le (by rw [h]; decide)]
  rfl

theorem Denotes.key {node : CaseNode D} {type : CaseType} {a : RuntimeValue D}
    (h : Denotes library checker node type a) :
    constantCaseKey library checker node = some (tag node ++ kept (spelling library node)) := by
  cases h with
  | string node => exact congrArg some (writeKey_append rfl _)
  | char value => exact congrArg some (writeKey_append rfl _)
  | bool value => exact congrArg some (writeKey_append rfl _)
  | implicitEnum h => exact congrArg some (writeKey_append rfl _)
  | member hlab h =>
    rw [constantCaseKey, if_pos hlab]
    exact congrArg some (writeKey_append rfl _)
  | integer hnorm hsize | floatingInteger T hnorm hsize =>
    rw [constantCaseKey, if_neg (by rw [hsize]; decide)]
    exact congrArg some (writeKey_append rfl _)
  | decimal value T => exact congrArg some (writeKey_append rfl _)

variable {left right : CaseNode D} {type : CaseType} {a b : RuntimeValue D}

theorem Denotes.tag_eq
    (hleft : Denotes library checker left type a) (hrgt : Denotes library checker right type b) :
    tag left = tag right := by
  cases hleft <;> cases hrgt <;> rfl

theorem constantCaseKey_eq_iff
    (hleft : Denotes library checker left type a) (hrgt : Denotes library checker right type b) :
    constantCaseKey library checker left = constantCaseKey library checker right ↔
      kept (spelling library left) = kept (spelling library right) := by
  rw [hleft.key, hrgt.key, hleft.tag_eq hrgt, Option.some.injEq, append_cancel_left_eq]

theorem kept_of_length_le {text : Text} (h : text.length ≤ 253) : kept text = text :=
  take_of_length_le h

theorem length_integerDigits_le (fuel : ℕ) (m : Magnitude) :
    (integerDigits fuel m).length ≤ fuel := by
  induction fuel generalizing m with
  | zero => rfl
  | succ fuel ih =>
    rw [integerDigits]
    split_ifs
    · exact Nat.succ_le_succ (Nat.zero_le fuel)
    · exact Nat.succ_le_succ (ih _)

theorem length_integerText_le (value : LiteralValue) : (literalIntegerText value).length ≤ 253 := by
  have hdig := length_integerDigits_le (literalLimbs * 10 + 2) value.magnitude
  have hfuel : literalLimbs * 10 + 2 ≤ 252 := by decide
  rw [literalIntegerText, length_append, length_map, length_reverse]
  split_ifs
  · rw [length_singleton]
    omega
  · rw [length_nil]
    omega

theorem length_literalText_le (number : FoldedNumber D) :
    (literalText library number).length ≤ 253 := by
  cases number with
  | integer value => exact length_integerText_le value
  | decimal value =>
    have := library.length_decimalText value
    exact Nat.le_trans (Nat.le_of_lt this) (by decide)

theorem render_ne_minus (n m : ℕ) : DecimalText.render n ≠ byte '-' :: DecimalText.render m := by
  intro h
  have hmem : byte '-' ∈ DecimalText.render n := h ▸ mem_cons_self ..
  have := (DecimalText.isDigit_of_mem_render hmem).1
  exact absurd this (by decide)

theorem signedText_injective : Function.Injective signedText := by
  intro m n h
  rw [signedText, signedText] at h
  split_ifs at h with hm hn hn
  · have := DecimalText.render_injective (List.cons.inj h).2
    omega
  · exact absurd h.symm (render_ne_minus _ _)
  · exact absurd h (render_ne_minus _ _)
  · have := DecimalText.render_injective h
    omega

theorem length_signedText_le {n : ℤ} (h : n.natAbs < 10 ^ 10) : (signedText n).length ≤ 253 := by
  have hdig := DecimalText.length_render_le (by decide) h
  rw [signedText]
  split_ifs
  · rw [length_cons]
    omega
  · omega

theorem integerText_eq_iff {v w : LiteralValue} (hv : v.Normal) (hw : w.Normal) :
    literalIntegerText v = literalIntegerText w ↔ v.toInt = w.toInt := by
  constructor
  · intro h
    have := decimalInteger_integerText v
    rw [h, decimalInteger_integerText w] at this
    exact (Option.some.inj this).symm
  · intro h
    have hmag : v.magnitude.toNat = w.magnitude.toNat := by
      rw [← v.toInt_natAbs, h, w.toInt_natAbs]
    have hsign : v.isNegative = w.isNegative := by
      rw [Bool.eq_iff_iff, ← hv.toInt_neg_iff, ← hw.toInt_neg_iff, h]
    rw [literalIntegerText, literalIntegerText, hsign, Magnitude.ext_toNat hmag]

theorem runtimeEqual_of_spelling {T : FloatType} {a b : RuntimeValue D}
    (hleft : Denotes library checker left (.floating T) a)
    (hrgt : Denotes library checker right (.floating T) b)
    (h : spelling library left = spelling library right) : RuntimeEqual library a b := by
  cases hleft with
  | floatingInteger _ hnorm hsize =>
    cases hrgt with
    | floatingInteger _ hnorm' hsize' =>
      rw [(integerText_eq_iff hnorm hnorm').mp h]
      exact library.equal_self _
    | decimal d _ =>
      change library.equal _ _ = true
      rw [library.convert_of_text T d _ h.symm]
      exact library.equal_self _
  | decimal d _ =>
    cases hrgt with
    | floatingInteger _ hnorm' hsize' =>
      change library.equal _ _ = true
      rw [library.convert_of_text T d _ h]
      exact library.equal_self _
    | decimal d' _ =>
      rw [library.decimalText_injective h]
      exact library.equal_self _

theorem kept_eq_iff_runtimeEqual_iff_of_floating {T : FloatType}
    {a b : RuntimeValue D} (hleft : Denotes library checker left (.floating T) a)
    (hrgt : Denotes library checker right (.floating T) b) :
    (kept (spelling library left) = kept (spelling library right) ↔ RuntimeEqual library a b) ↔
      ¬ KeyMisleads library left right a b (.floating T) := by
  have hkept : ∀ {node : CaseNode D} {value : RuntimeValue D},
      Denotes library checker node (.floating T) value →
        kept (spelling library node) = spelling library node := by
    intro node value h
    cases h with
    | floatingInteger _ _ _ => rw [spelling, kept_of_length_le (length_literalText_le _)]
    | decimal _ _ => rw [spelling, kept_of_length_le (length_literalText_le _)]
  rw [hkept hleft, hkept hrgt]
  constructor
  · exact fun hiff hmisleads => hmisleads.1 (hiff.mpr hmisleads.2)
  · exact fun hnot => ⟨runtimeEqual_of_spelling hleft hrgt,
      fun heq => by_contra fun hne => hnot ⟨hne, heq⟩⟩

theorem kept_eq_iff_runtimeEqual_iff (hleft : Denotes library checker left type a)
    (hrgt : Denotes library checker right type b) :
    (kept (spelling library left) = kept (spelling library right) ↔ RuntimeEqual library a b) ↔
      ¬ KeyMisleads library left right a b type := by
  have htell : ∀ P Q : Prop, (P ↔ Q) ↔ ¬ (P ∧ ¬ Q ∨ ¬ P ∧ Q) := fun P Q => by tauto
  cases hleft with
  | string node =>
    cases hrgt with
    | string node' => exact htell _ _
  | char value =>
    cases hrgt with
    | char value' =>
      have hkept : ∀ v : BitVec 32, kept (signedText v.toInt) = signedText v.toInt := fun v => by
        have hlt := v.isLt
        exact kept_of_length_le (length_signedText_le (by grind [BitVec.toInt_eq_toNat_cond]))
      refine iff_of_true ?_ fun h => h
      change kept (signedText value.toInt) = kept (signedText value'.toInt) ↔
        RuntimeValue.char value = RuntimeValue.char value'
      rw [hkept, hkept, signedText_injective.eq_iff, BitVec.toInt_inj, RuntimeValue.char.injEq]
  | bool value =>
    cases hrgt with
    | bool value' =>
      refine iff_of_true ?_ fun h => h
      change kept (signedText (if value then 1 else 0)) =
        kept (signedText (if value' then 1 else 0)) ↔
        RuntimeValue.bool value = RuntimeValue.bool value'
      rw [RuntimeValue.bool.injEq]
      cases value <;> cases value' <;> decide
  | implicitEnum h | member hlab h => cases hrgt <;> exact htell _ _
  | integer hnorm hsize =>
    cases hrgt with
    | integer hnorm' hsize' =>
      refine iff_of_true ?_ fun h => h
      rw [spelling, spelling, kept_of_length_le (length_literalText_le _),
        kept_of_length_le (length_literalText_le _)]
      refine (integerText_eq_iff hnorm hnorm').trans ?_
      exact (RuntimeValue.integer.injEq _ _).symm ▸ Iff.rfl
  | floatingInteger T hnorm hsize =>
    exact kept_eq_iff_runtimeEqual_iff_of_floating (.floatingInteger T hnorm hsize) hrgt
  | decimal d T => exact kept_eq_iff_runtimeEqual_iff_of_floating (.decimal d T) hrgt

end Values

/-! ### Keys that mislead -/

/-- The library on the number zero, which is all that a program without decimal numbers needs. -/
def zeroLibrary : DoubleLibrary Unit where
  decimalText _ := bytes "0"
  convert _ _ := ()
  ofInteger _ _ := ()
  equal _ _ := true
  decimalText_injective _ _ _ := rfl
  length_decimalText _ := by decide
  convert_of_text _ _ _ _ := rfl
  equal_self _ := rfl

/-- A program without enums. -/
def noEnums : EnumNames := ⟨id, fun _ => false⟩

/-- A string literal with escapes. -/
def stringCase (text : String) : StringValueNode := ⟨bytes text, false⟩

end Grayscale.CaseKeys
