import Mathlib.Algebra.Order.Ring.Int
import Grayscale.Util.Bytes

/-!
# Base64

The base64 functions of `stdlib/encoding.c`, with the places they write to and the `int32_t` length
of the output.
-/

namespace Grayscale

open List

/-! ### The functions -/

def b64Table : Text :=
  bytes "ABCDEFGHIJKLMNOPQRSTUVWXYZabcdefghijklmnopqrstuvwxyz0123456789+/"

/-- The character of the low six bits of a number. -/
def b64Char (n : ℕ) : UInt8 := b64Table.getD (n &&& 0x3F) 0

/-- The writes `output[j++] = …` of some bytes, `none` past the end of the output. -/
def writeBytes (outputLength : ℕ) (written added : Text) : Option Text :=
  if written.length + added.length ≤ outputLength then some (written ++ added) else none

/-- The three bytes of a group of the input. -/
def packBytes (first second third : UInt8) : ℕ :=
  first.toNat <<< 16 ||| second.toNat <<< 8 ||| third.toNat

/-- The four characters of a group, by its last two places that are in the input. -/
def quadOf (triple : ℕ) (hasSecond hasThird : Bool) : Text :=
  [b64Char (triple >>> 18), b64Char (triple >>> 12),
    if hasSecond then b64Char (triple >>> 6) else byte '=',
    if hasThird then b64Char triple else byte '=']

/-- The loop of `gray_encoding_base64_encode`. -/
def base64EncodeLoop (outputLength : ℕ) : Text → Text → Option Text
  | [], written => some written
  | [first], written => writeBytes outputLength written (quadOf (packBytes first 0 0) false false)
  | [first, second], written =>
    writeBytes outputLength written (quadOf (packBytes first second 0) true false)
  | first :: second :: third :: rest, written =>
    (writeBytes outputLength written (quadOf (packBytes first second third) true true)).bind
      (base64EncodeLoop outputLength rest)

/-- `gray_encoding_base64_encode`, `none` when the `int32_t` length of the output overflows. -/
def grayEncodingBase64Encode (text : Text) : Option Text :=
  let outputLength := (text.length + 2) / 3 * 4
  if outputLength < 2 ^ 31 then base64EncodeLoop outputLength text [] else none

/-- `base64_value`, `none` for -1. -/
def base64Value (c : UInt8) : Option ℕ :=
  if byte 'A' ≤ c ∧ c ≤ byte 'Z' then some (c.toNat - (byte 'A').toNat)
  else if byte 'a' ≤ c ∧ c ≤ byte 'z' then some (c.toNat - (byte 'a').toNat + 26)
  else if byte '0' ≤ c ∧ c ≤ byte '9' then some (c.toNat - (byte '0').toNat + 52)
  else if c = byte '+' then some 62
  else if c = byte '/' then some 63
  else none

/-- The `=` among the last two characters. -/
def trailingPadding (text : Text) : ℕ :=
  (if text[text.length - 1]? = some (byte '=') then 1 else 0) +
    if 2 ≤ text.length ∧ text[text.length - 2]? = some (byte '=') then 1 else 0

/-- The value of a character that may be padding. -/
def paddedValue (c : UInt8) : Option ℕ := if c = byte '=' then some 0 else base64Value c

/-- The bytes of a quad, by the characters that may be padding. -/
def bytesOf (triple : ℕ) (third fourth : UInt8) : Text := UInt8.ofNat (triple >>> 16 &&& 0xFF) ::
    ((if third = byte '=' then [] else [UInt8.ofNat (triple >>> 8 &&& 0xFF)]) ++
      if fourth = byte '=' then [] else [UInt8.ofNat (triple &&& 0xFF)])

/-- The loop of `gray_encoding_base64_decode`: `none` for an access out of bounds, else the error or
the bytes. -/
def base64DecodeLoop (outputLength : ℕ) : Text → Text → Option (Except String Text)
  | [], written => some (.ok written)
  | first :: second :: third :: fourth :: rest, written =>
    if (third = byte '=' ∨ fourth = byte '=') ∧ rest ≠ [] then
      some (.error "base64 padding before the end of input")
    else if third = byte '=' ∧ fourth ≠ byte '=' then some (.error "invalid base64 padding")
    else
      match base64Value first, base64Value second, paddedValue third, paddedValue fourth with
      | some firstValue, some secondValue, some thirdValue, some fourthValue =>
        let triple := firstValue <<< 18 ||| secondValue <<< 12 ||| thirdValue <<< 6 ||| fourthValue
        (writeBytes outputLength written (bytesOf triple third fourth)).bind fun written =>
          base64DecodeLoop outputLength rest written
      | _, _, _, _ => some (.error "invalid base64 character")
  | _, _ => none

def grayEncodingBase64Decode (text : Text) : Option (Except String Text) :=
  if text = [] then some (.ok [])
  else if text.length % 4 ≠ 0 then some (.error "base64 input length is not a multiple of 4")
  else base64DecodeLoop (text.length / 4 * 3 - trailingPadding text) text []

/-- A character of the standard alphabet as one of the alphabet of URLs. -/
def toUrlChar (c : UInt8) : UInt8 :=
  if c = byte '+' then byte '-' else if c = byte '/' then byte '_' else c

/-- A character of the alphabet of URLs as one of the standard alphabet. -/
def ofUrlChar (c : UInt8) : UInt8 :=
  if c = byte '-' then byte '+' else if c = byte '_' then byte '/' else c

def grayEncodingBase64UrlEncode (text : Text) : Option Text :=
  (grayEncodingBase64Encode text).map fun standardText =>
    (standardText.takeWhile (· != byte '=')).map toUrlChar

/-- `gray_encoding_base64_url_decode`, `none` also when the `int32_t` length of the buffer
overflows. -/
def grayEncodingBase64UrlDecode (text : Text) : Option (Except String Text) :=
  let padding := (4 - text.length % 4) % 4
  if text.length + padding < 2 ^ 31 then
    grayEncodingBase64Decode (text.map ofUrlChar ++ replicate padding (byte '='))
  else none

/-! ### The alphabet -/

def IsBase64Char (c : UInt8) : Prop := (base64Value c).isSome = true

instance (c : UInt8) : Decidable (IsBase64Char c) := inferInstanceAs (Decidable (_ = _))

/-- Characters of the alphabet, then no, one or two `=`. -/
def IsPadded (text : Text) : Prop :=
  ∃ body padding, text = body ++ replicate padding (byte '=') ∧ padding ≤ 2 ∧
    ∀ c ∈ body, IsBase64Char c

def IsBase64Text (text : Text) : Prop := text.length % 4 = 0 ∧ IsPadded text

theorem not_isBase64_padding : ¬ IsBase64Char (byte '=') := by decide

variable {c : UInt8}

theorem IsBase64Char.ne_padding (h : IsBase64Char c) : c ≠ byte '=' :=
  fun heq => not_isBase64_padding (heq ▸ h)

theorem b64Table_spec : ∀ n < 64, base64Value (b64Table.getD n 0) = some n := by
  decide +kernel

theorem base64Value_b64Char (n : ℕ) : base64Value (b64Char n) = some (n % 64) := by
  rw [b64Char, show (0x3F : ℕ) = 2 ^ 6 - 1 from rfl, Nat.and_two_pow_sub_one_eq_mod]
  exact b64Table_spec _ (Nat.mod_lt _ (by decide))

theorem isBase64_b64Char (n : ℕ) : IsBase64Char (b64Char n) := by
  rw [IsBase64Char, base64Value_b64Char]
  rfl

theorem ofUrlChar_toUrlChar (h : IsBase64Char c) : ofUrlChar (toUrlChar c) = c := by
  have hneg : c ≠ byte '-' := fun heq => by
    rw [heq] at h
    revert h
    decide
  have hunderscore : c ≠ byte '_' := fun heq => by
    rw [heq] at h
    revert h
    decide
  unfold toUrlChar
  split_ifs with hplus hsla
  · rw [hplus]
    decide
  · rw [hsla]
    decide
  · rw [ofUrlChar, if_neg hneg, if_neg hunderscore]

/-! ### Groups -/

theorem packBytes_eq (first second third : UInt8) :
    packBytes first second third = first.toNat * 2 ^ 16 + second.toNat * 2 ^ 8 + third.toNat := by
  have hsnd := second.toNat_lt
  have hthird := third.toNat_lt
  rw [packBytes, Nat.or_assoc, shiftLeft_or 8 (by omega), shiftLeft_or 16 (by omega)]
  omega

theorem packSextets_eq {a b c d : ℕ} (hb : b < 64) (hc : c < 64) (hd : d < 64) :
    a <<< 18 ||| b <<< 12 ||| c <<< 6 ||| d = a * 2 ^ 18 + b * 2 ^ 12 + c * 2 ^ 6 + d := by
  rw [Nat.or_assoc, Nat.or_assoc, shiftLeft_or 6 (by omega), shiftLeft_or 12 (by omega),
    shiftLeft_or 18 (by omega)]
  omega

theorem ofNat_shiftRight {n k m : ℕ} (h : n / 2 ^ k = m * 256 + c.toNat) :
    UInt8.ofNat (n >>> k &&& 0xFF) = c := by
  have hc := c.toNat_lt
  rw [Nat.shiftRight_eq_div_pow, h, show (0xFF : ℕ) = 2 ^ 8 - 1 from rfl,
    Nat.and_two_pow_sub_one_eq_mod, show (m * 256 + c.toNat) % 2 ^ 8 = c.toNat by omega,
    UInt8.ofNat_toNat]

/-- The encoding of a text, whatever the length. -/
def base64Groups : Text → Text
  | [] => []
  | [first] => quadOf (packBytes first 0 0) false false
  | [first, second] => quadOf (packBytes first second 0) true false
  | first :: second :: third :: rest =>
    quadOf (packBytes first second third) true true ++ base64Groups rest

variable (text : Text)

theorem length_base64Groups : (base64Groups text).length = (text.length + 2) / 3 * 4 := by
  fun_induction base64Groups with
  | case1 => rfl
  | case2 | case3 => simp [quadOf]
  | case4 first second third rest ih =>
    rw [length_append, ih]
    simp only [quadOf, length_cons, length_nil]
    omega

variable {outputLength : ℕ}

theorem base64EncodeLoop_eq {text written : Text}
    (h : written.length + (text.length + 2) / 3 * 4 ≤ outputLength) :
    base64EncodeLoop outputLength text written = some (written ++ base64Groups text) := by
  induction text using base64Groups.induct generalizing written with
  | case1 => simp [base64EncodeLoop, base64Groups]
  | case2 | case3 =>
    rw [base64EncodeLoop, writeBytes, if_pos (by simpa [quadOf] using h), base64Groups]
  | case4 first second third rest ih =>
    simp only [length_cons] at h
    have hlen : (quadOf (packBytes first second third) true true).length = 4 := rfl
    rw [base64EncodeLoop, writeBytes, if_pos (by omega), Option.bind_some,
      ih (by rw [length_append]; omega), base64Groups, append_assoc]

theorem grayEncodingBase64Encode_eq : grayEncodingBase64Encode text =
      if text.length ≤ 1610612733 then some (base64Groups text) else none := by
  unfold grayEncodingBase64Encode
  dsimp only
  by_cases h : text.length ≤ 1610612733
  · rw [if_pos h, if_pos (by omega), base64EncodeLoop_eq (by simp), nil_append]
  · rw [if_neg h, if_neg (by omega)]

theorem base64Groups_padded :
    ∃ body, base64Groups text = body ++ replicate ((3 - text.length % 3) % 3) (byte '=') ∧
      ∀ c ∈ body, IsBase64Char c := by
  fun_induction base64Groups with
  | case1 => exact ⟨[], rfl, by simp⟩
  | case2 first =>
    exact ⟨[_, _], rfl, by simp [isBase64_b64Char]⟩
  | case3 first second =>
    exact ⟨[_, _, _], rfl, by simp [isBase64_b64Char]⟩
  | case4 first second third rest ih =>
    obtain ⟨body, hbody, hchars⟩ := ih
    refine ⟨quadOf (packBytes first second third) true true ++ body, ?_, ?_⟩
    · rw [hbody, append_assoc]
      simp only [length_cons]
      congr 3
      omega
    · intro c hc
      rcases mem_append.mp hc with hc | hc
      · simp only [quadOf, if_true, mem_cons, not_mem_nil, or_false] at hc
        rcases hc with rfl | rfl | rfl | rfl <;> exact isBase64_b64Char _
      · exact hchars c hc

/-! ### Padding -/

theorem trailingPadding_eq {body : Text} {padding : ℕ} (hpad : padding ≤ 2)
    (hbody : ∀ c ∈ body, IsBase64Char c) :
    trailingPadding (body ++ replicate padding (byte '=')) = padding := by
  have hin : ∀ i < body.length, (body ++ replicate padding (byte '='))[i]? ≠ some (byte '=') := by
    intro i hi heq
    rw [getElem?_append_left hi] at heq
    exact (hbody _ (mem_of_getElem? heq)).ne_padding rfl
  have haft : ∀ i, body.length ≤ i → i < body.length + padding →
      (body ++ replicate padding (byte '='))[i]? = some (byte '=') := by
    intro i hle hlt
    rw [getElem?_append_right hle, getElem?_replicate, if_pos (by omega)]
  have hlen : (body ++ replicate padding (byte '=')).length = body.length + padding := by
    simp
  unfold trailingPadding
  rw [hlen]
  rcases Nat.lt_trichotomy padding 1 with h | rfl | h
  · obtain rfl : padding = 0 := by omega
    rcases Nat.eq_zero_or_pos body.length with hnil | hpos
    · rw [length_eq_zero_iff.mp hnil]
      rfl
    · rw [if_neg (hin _ (by omega)), if_neg fun h => hin _ (by omega) h.2]
  · rw [if_pos (haft _ (by omega) (by omega)), if_neg fun h => hin _ (by omega) h.2]
  · rw [if_pos (haft _ (by omega) (by omega)), if_pos ⟨by omega, haft _ (by omega) (by omega)⟩]
    omega

theorem trailingPadding_append {rest : Text} (h : 2 ≤ rest.length) :
    trailingPadding (text ++ rest) = trailingPadding rest := by
  have hlen : (text ++ rest).length = text.length + rest.length := length_append
  unfold trailingPadding
  rw [hlen, getElem?_append_right (by omega), getElem?_append_right (by omega),
    show text.length + rest.length - 1 - text.length = rest.length - 1 by omega,
    show text.length + rest.length - 2 - text.length = rest.length - 2 by omega]
  simp only [h, show 2 ≤ text.length + rest.length by omega]

theorem isPadded_cons {text : Text} (h : 2 ≤ text.length) :
    IsPadded (c :: text) ↔ IsBase64Char c ∧ IsPadded text := by
  constructor
  · rintro ⟨body, padding, heq, hpad, hbody⟩
    cases body with
    | nil =>
      have hlen := congrArg List.length heq
      simp at hlen
      omega
    | cons d body =>
      obtain ⟨rfl, rfl⟩ := List.cons.inj heq
      exact ⟨hbody c mem_cons_self, body, padding, rfl, hpad,
        fun d hd => hbody d (mem_cons_of_mem _ hd)⟩
  · rintro ⟨hc, body, padding, rfl, hpad, hbody⟩
    exact ⟨c :: body, padding, rfl, hpad, forall_mem_cons.mpr ⟨hc, hbody⟩⟩

theorem isPadded_pair {third fourth : UInt8} :
    IsPadded [third, fourth] ↔ IsBase64Char third ∧ IsBase64Char fourth ∨
      IsBase64Char third ∧ fourth = byte '=' ∨ third = byte '=' ∧ fourth = byte '=' := by
  constructor
  · rintro ⟨body, padding, heq, hpad, hbody⟩
    have hlen := congrArg List.length heq
    simp only [length_cons, length_nil, length_append, length_replicate]
      at hlen
    match body, padding, hpad with
    | [], 2, _ =>
      simp only [nil_append, replicate, List.cons.injEq] at heq
      exact .inr (.inr ⟨heq.1, heq.2.1⟩)
    | [c], 1, _ =>
      simp only [cons_append, nil_append, replicate, List.cons.injEq] at heq
      exact .inr (.inl ⟨heq.1 ▸ hbody c (by simp), heq.2.1⟩)
    | [c, d], 0, _ =>
      simp only [replicate, append_nil, List.cons.injEq] at heq
      exact .inl ⟨heq.1 ▸ hbody c (by simp), heq.2.1 ▸ hbody d (by simp)⟩
    | [], 0, _ | [], 1, _ | [_], 0, _ | [_], 2, _ | [_, _], 1, _ | [_, _], 2, _ => simp at hlen
    | _ :: _ :: _ :: _, _, _ => simp only [length_cons] at hlen; omega
  · rintro (⟨hthird, hfourth⟩ | ⟨hthird, rfl⟩ | ⟨rfl, rfl⟩)
    · exact ⟨[third, fourth], 0, rfl, by decide, by simp [hthird, hfourth]⟩
    · exact ⟨[third], 1, rfl, by decide, by simp [hthird]⟩
    · exact ⟨[], 2, rfl, by decide, by simp⟩

/-! ### Decoding -/

theorem isBase64_iff : IsBase64Char c ↔ ∃ v, base64Value c = some v := Option.isSome_iff_exists

theorem padded_eq_some {v : ℕ} (h : paddedValue c = some v) : c = byte '=' ∨ IsBase64Char c := by
  unfold paddedValue at h
  split_ifs at h with heq
  · exact .inl heq
  · exact .inr (isBase64_iff.mpr ⟨v, h⟩)

theorem exists_padded (h : c = byte '=' ∨ IsBase64Char c) : ∃ v, paddedValue c = some v := by
  rcases h with rfl | h
  · exact ⟨0, rfl⟩
  · rw [paddedValue, if_neg h.ne_padding]
    exact isBase64_iff.mp h

theorem length_bytesOf (triple : ℕ) (third fourth : UInt8) : (bytesOf triple third fourth).length =
      1 + (if third = byte '=' then 0 else 1) + if fourth = byte '=' then 0 else 1 := by
  unfold bytesOf
  split_ifs <;> rfl

theorem trailingPadding_le : trailingPadding text ≤ 2 := by
  unfold trailingPadding
  split_ifs <;> omega

theorem padded_of_ne (h : c ≠ byte '=') : paddedValue c = base64Value c := if_neg h

theorem decodeLoop_quad {first second third fourth : UInt8} {rest : Text} {written : Text}
    {a b c d : ℕ} (hpad : rest ≠ [] → third ≠ byte '=' ∧ fourth ≠ byte '=')
    (hthird : third = byte '=' → fourth = byte '=') (ha : base64Value first = some a)
    (hb : base64Value second = some b) (hc : paddedValue third = some c)
    (hd : paddedValue fourth = some d) :
    base64DecodeLoop outputLength (first :: second :: third :: fourth :: rest) written =
      (writeBytes outputLength written
        (bytesOf (a <<< 18 ||| b <<< 12 ||| c <<< 6 ||| d) third fourth)).bind
        (base64DecodeLoop outputLength rest) := by
  have hlast : ¬ ((third = byte '=' ∨ fourth = byte '=') ∧ rest ≠ []) := by
    rintro ⟨h | h, hrest⟩
    · exact (hpad hrest).1 h
    · exact (hpad hrest).2 h
  have hpair : ¬ (third = byte '=' ∧ fourth ≠ byte '=') := fun h => h.2 (hthird h.1)
  rw [base64DecodeLoop, if_neg hlast, if_neg hpair]
  simp only [ha, hb, hc, hd]

theorem packSextets_split {t : ℕ} (h : t < 2 ^ 24) :
    ((t >>> 18) % 64) <<< 18 ||| ((t >>> 12) % 64) <<< 12 ||| ((t >>> 6) % 64) <<< 6 ||| t % 64 =
      t := by
  rw [packSextets_eq (Nat.mod_lt _ (by decide)) (Nat.mod_lt _ (by decide))
    (Nat.mod_lt _ (by decide))]
  simp only [Nat.shiftRight_eq_div_pow]
  omega

theorem packBytes_lt (first second third : UInt8) : packBytes first second third < 2 ^ 24 := by
  have hfst := first.toNat_lt
  have hsnd := second.toNat_lt
  have hthird := third.toNat_lt
  rw [packBytes_eq]
  omega

theorem bytesOf_packBytes (first second third c d : UInt8) :
    bytesOf (packBytes first second third) c d =
      first :: ((if c = byte '=' then [] else [second]) ++ if d = byte '=' then [] else [third]) := by
  have hsnd := second.toNat_lt
  have hthird := third.toNat_lt
  have hlow := ofNat_shiftRight (n := packBytes first second third) (k := 0) (c := third)
    (m := first.toNat * 2 ^ 8 + second.toNat) (by rw [packBytes_eq]; omega)
  rw [Nat.shiftRight_zero] at hlow
  rw [bytesOf, ofNat_shiftRight (c := first) (m := 0) (by rw [packBytes_eq]; omega),
    ofNat_shiftRight (c := second) (m := first.toNat) (by rw [packBytes_eq]; omega), hlow]

theorem decodeLoop_groups {text written : Text}
    (h : written.length + text.length ≤ outputLength) :
    base64DecodeLoop outputLength (base64Groups text) written = some (.ok (written ++ text)) := by
  induction text using base64Groups.induct generalizing written with
  | case1 => simp [base64DecodeLoop, base64Groups]
  | case2 first =>
    have hspl := packSextets_split (packBytes_lt first 0 0)
    have hthird : (packBytes first 0 0 >>> 6) % 64 = 0 := by
      rw [Nat.shiftRight_eq_div_pow, packBytes_eq]
      simp only [UInt8.toNat_zero]
      omega
    have hfourth : packBytes first 0 0 % 64 = 0 := by
      rw [packBytes_eq]
      simp only [UInt8.toNat_zero]
      omega
    rw [hthird, hfourth] at hspl
    rw [base64Groups, quadOf, if_neg Bool.false_ne_true, if_neg Bool.false_ne_true,
      decodeLoop_quad (by simp) (fun _ => rfl)
      (base64Value_b64Char _) (base64Value_b64Char _) rfl rfl, hspl, bytesOf_packBytes]
    simp only [if_true, nil_append]
    rw [writeBytes, if_pos (by simpa using h), Option.bind_some, base64DecodeLoop]
  | case3 first second =>
    have hspl := packSextets_split (packBytes_lt first second 0)
    have hfourth : packBytes first second 0 % 64 = 0 := by
      rw [packBytes_eq]
      simp only [UInt8.toNat_zero]
      omega
    have hne := (isBase64_b64Char (packBytes first second 0 >>> 6)).ne_padding
    rw [hfourth] at hspl
    rw [base64Groups, quadOf, if_pos rfl, decodeLoop_quad (by simp) (fun h => absurd h hne)
      (base64Value_b64Char _) (base64Value_b64Char _)
      ((padded_of_ne hne).trans (base64Value_b64Char _)) rfl, hspl, bytesOf_packBytes, if_neg hne]
    simp only [Bool.false_eq_true, if_false, if_true, append_nil]
    rw [writeBytes, if_pos (by simpa using h), Option.bind_some, base64DecodeLoop]
  | case4 first second third rest ih =>
    have hthird := (isBase64_b64Char (packBytes first second third >>> 6)).ne_padding
    have hfourth := (isBase64_b64Char (packBytes first second third)).ne_padding
    simp only [length_cons] at h
    rw [base64Groups, quadOf, if_pos rfl, if_pos rfl]
    simp only [cons_append, nil_append]
    rw [decodeLoop_quad (fun _ => ⟨hthird, hfourth⟩) (fun h => absurd h hthird)
      (base64Value_b64Char _) (base64Value_b64Char _)
      ((padded_of_ne hthird).trans (base64Value_b64Char _))
      ((padded_of_ne hfourth).trans (base64Value_b64Char _)),
      packSextets_split (packBytes_lt first second third), bytesOf_packBytes, if_neg hthird,
      if_neg hfourth, writeBytes, if_pos (by simp; omega), Option.bind_some, ih (by simp; omega)]
    simp

/-- The loop writes in its output, and succeeds on the padded texts. -/
theorem decodeLoop_spec {text written : Text} (h : text.length % 4 = 0)
    (hroom : written.length + (text.length / 4 * 3 - trailingPadding text) ≤ outputLength) :
    (IsPadded text ∧ ∃ decoded, base64DecodeLoop outputLength text written = some (.ok decoded)) ∨
      (¬ IsPadded text ∧
        ∃ message, base64DecodeLoop outputLength text written = some (.error message)) := by
  fun_induction base64DecodeLoop outputLength text written with
  | case1 written => exact .inl ⟨⟨[], 0, rfl, by decide, by simp⟩, _, rfl⟩
  | case2 first second third fourth rest written hearly =>
    refine .inr ⟨fun hpad => ?_, _, rfl⟩
    simp only [length_cons] at h
    have hrest : 2 ≤ rest.length := by
      have := length_pos_of_ne_nil hearly.2
      omega
    rw [isPadded_cons (by simp), isPadded_cons (by simp), isPadded_cons (by simp; omega),
      isPadded_cons hrest] at hpad
    rcases hearly.1 with heq | heq
    · exact hpad.2.2.1.ne_padding heq
    · exact hpad.2.2.2.1.ne_padding heq
  | case3 first second third fourth rest written hearly hpair =>
    have hrest : rest = [] := by
      by_contra hne
      exact hearly ⟨.inl hpair.1, hne⟩
    refine .inr ⟨fun hpad => ?_, _, rfl⟩
    rw [hrest, isPadded_cons (by simp), isPadded_cons (by simp), isPadded_pair, hpair.1] at hpad
    rcases hpad.2.2 with ⟨hthird, -⟩ | ⟨hthird, -⟩ | ⟨-, hfourth⟩
    · exact not_isBase64_padding hthird
    · exact not_isBase64_padding hthird
    · exact hpair.2 hfourth
  | case4 first second third fourth rest written hearly hpair a b c d hd hc hb ha triple ih =>
    have hfst : IsBase64Char first := isBase64_iff.mpr ⟨a, ha⟩
    have hsnd : IsBase64Char second := isBase64_iff.mpr ⟨b, hb⟩
    have hthird := padded_eq_some hc
    have hfourth := padded_eq_some hd
    have hlen := length_bytesOf triple third fourth
    rcases eq_or_ne rest [] with rfl | hne
    · have htrail : trailingPadding [first, second, third, fourth] =
          (if fourth = byte '=' then 1 else 0) + if third = byte '=' then 1 else 0 := by
        simp [trailingPadding]
      rw [htrail] at hroom
      simp only [length_cons, length_nil] at hroom
      rw [writeBytes, if_pos (by split_ifs at hlen hroom <;> omega), Option.bind_some,
        base64DecodeLoop]
      refine .inl ⟨?_, _, rfl⟩
      rw [isPadded_cons (by simp), isPadded_cons (by simp), isPadded_pair]
      refine ⟨hfst, hsnd, ?_⟩
      rcases hthird with hthird | hthird
      · rcases hfourth with hfourth | hfourth
        · exact .inr (.inr ⟨hthird, hfourth⟩)
        · exact absurd ⟨hthird, hfourth.ne_padding⟩ hpair
      · rcases hfourth with hfourth | hfourth
        · exact .inr (.inl ⟨hthird, hfourth⟩)
        · exact .inl ⟨hthird, hfourth⟩
    · have hthird' : third ≠ byte '=' := fun heq => hearly ⟨.inl heq, hne⟩
      have hfourth' : fourth ≠ byte '=' := fun heq => hearly ⟨.inr heq, hne⟩
      simp only [length_cons] at h hroom
      have hrest : 2 ≤ rest.length := by
        have := length_pos_of_ne_nil hne
        omega
      have htrail := trailingPadding_append [first, second, third, fourth] hrest
      simp only [cons_append, nil_append] at htrail
      rw [htrail] at hroom
      rw [if_neg hthird', if_neg hfourth'] at hlen
      have hle := trailingPadding_le rest
      rw [writeBytes, if_pos (by omega), Option.bind_some]
      rw [isPadded_cons (by simp), isPadded_cons (by simp), isPadded_cons (by simp; omega),
        isPadded_cons hrest]
      rcases ih (written ++ bytesOf triple third fourth) (by omega)
        (by rw [length_append]; omega) with ⟨hpad, hok⟩ | ⟨hpad, herr⟩
      · exact .inl ⟨⟨hfst, hsnd, hthird.resolve_left hthird',
          hfourth.resolve_left hfourth', hpad⟩, hok⟩
      · exact .inr ⟨fun h => hpad h.2.2.2.2, herr⟩
  | case5 first second third fourth rest written hearly hpair hvals =>
    refine .inr ⟨fun hpad => ?_, _, rfl⟩
    have hchars : IsBase64Char first ∧ IsBase64Char second ∧
        (∃ c, paddedValue third = some c) ∧ ∃ d, paddedValue fourth = some d := by
      rcases eq_or_ne rest [] with rfl | hne
      · rw [isPadded_cons (by simp), isPadded_cons (by simp), isPadded_pair] at hpad
        refine ⟨hpad.1, hpad.2.1, ?_⟩
        rcases hpad.2.2 with ⟨hthird, hfourth⟩ | ⟨hthird, hfourth⟩ | ⟨hthird, hfourth⟩
        · exact ⟨exists_padded (.inr hthird), exists_padded (.inr hfourth)⟩
        · exact ⟨exists_padded (.inr hthird), exists_padded (.inl hfourth)⟩
        · exact ⟨exists_padded (.inl hthird), exists_padded (.inl hfourth)⟩
      · simp only [length_cons] at h
        have hrest : 2 ≤ rest.length := by
          have := length_pos_of_ne_nil hne
          omega
        rw [isPadded_cons (by simp), isPadded_cons (by simp), isPadded_cons (by simp; omega),
          isPadded_cons hrest] at hpad
        exact ⟨hpad.1, hpad.2.1, exists_padded (.inr hpad.2.2.1), exists_padded (.inr hpad.2.2.2.1)⟩
    obtain ⟨hfst, hsnd, ⟨c, hc⟩, d, hd⟩ := hchars
    obtain ⟨a, ha⟩ := isBase64_iff.mp hfst
    obtain ⟨b, hb⟩ := isBase64_iff.mp hsnd
    exact hvals a b c d ha hb hc hd
  | case6 text written hnil hquad =>
    match text with
    | [] => exact absurd rfl hnil
    | [_] | [_, _] | [_, _, _] => simp at h
    | _ :: _ :: _ :: _ :: _ => exact absurd rfl (hquad _ _ _ _ _)

theorem base64Decode_spec :
    (IsBase64Text text ∧ ∃ decoded, grayEncodingBase64Decode text = some (.ok decoded)) ∨
      (¬ IsBase64Text text ∧ ∃ message, grayEncodingBase64Decode text = some (.error message)) := by
  unfold grayEncodingBase64Decode
  by_cases hnil : text = []
  · rw [if_pos hnil, hnil]
    exact .inl ⟨⟨rfl, [], 0, rfl, by decide, by simp⟩, _, rfl⟩
  rw [if_neg hnil]
  by_cases hlen : text.length % 4 = 0
  · rw [if_neg (not_not.mpr hlen)]
    have hroom : ([] : Text).length + (text.length / 4 * 3 - trailingPadding text) ≤
        text.length / 4 * 3 - trailingPadding text := Nat.le_of_eq (Nat.zero_add _)
    rcases decodeLoop_spec hlen hroom with ⟨h, hok⟩ | ⟨h, herr⟩
    · exact .inl ⟨⟨hlen, h⟩, hok⟩
    · exact .inr ⟨fun htext => h htext.2, herr⟩
  · rw [if_pos hlen]
    exact .inr ⟨fun htext => hlen htext.1, _, rfl⟩

/-! ### Round trips -/

theorem base64Decode_groups : grayEncodingBase64Decode (base64Groups text) = some (.ok text) := by
  obtain ⟨body, hbody, hchars⟩ := base64Groups_padded text
  have hlen := length_base64Groups text
  have htrail := trailingPadding_eq (by omega : (3 - text.length % 3) % 3 ≤ 2) hchars
  rw [← hbody] at htrail
  unfold grayEncodingBase64Decode
  by_cases hnil : base64Groups text = []
  · rw [hnil, length_nil] at hlen
    have htext : text = [] := length_eq_zero_iff.mp (by omega)
    rw [if_pos hnil, htext]
  · rw [if_neg hnil, if_neg (by omega), decodeLoop_groups, nil_append]
    rw [length_nil, hlen, htrail]
    omega

theorem grayEncodingBase64UrlDecode_encode {text : Text} (h : text.length ≤ 1610612733) :
    ∃ encoded, grayEncodingBase64UrlEncode text = some encoded ∧
      grayEncodingBase64UrlDecode encoded = some (.ok text) := by
  obtain ⟨body, hbody, hchars⟩ := base64Groups_padded text
  have hlen := length_base64Groups text
  rw [hbody, length_append, length_replicate] at hlen
  have htake : (base64Groups text).takeWhile (· != byte '=') = body := by
    rw [hbody, takeWhile_append_of_pos fun c hc => by simpa using (hchars c hc).ne_padding]
    cases (3 - text.length % 3) % 3 <;> simp [replicate_succ]
  have hback : (body.map toUrlChar).map ofUrlChar = body := by
    rw [map_map]
    exact (map_congr_left fun c hc => ofUrlChar_toUrlChar (hchars c hc)).trans (map_id _)
  refine ⟨body.map toUrlChar, ?_, ?_⟩
  · rw [grayEncodingBase64UrlEncode, grayEncodingBase64Encode_eq, if_pos h, Option.map_some, htake]
  · have hpad : (4 - body.length % 4) % 4 = (3 - text.length % 3) % 3 := by omega
    unfold grayEncodingBase64UrlDecode
    dsimp only
    rw [length_map, if_pos (by omega), hback, hpad, ← hbody, base64Decode_groups]

/-- Texts of at most 1610612733 bytes, whose encoding has an `int32_t` length, survive both round
trips; the decoder never leaves its output and accepts the base64 texts only. -/
theorem base64_roundTrip : (∀ text : Text, text.length ≤ 1610612733 →
      (∃ encoded, grayEncodingBase64Encode text = some encoded ∧
        grayEncodingBase64Decode encoded = some (.ok text)) ∧
      ∃ encoded, grayEncodingBase64UrlEncode text = some encoded ∧
        grayEncodingBase64UrlDecode encoded = some (.ok text)) ∧
    (∀ text, grayEncodingBase64Decode text ≠ none) ∧
    (∀ text, (∃ decoded, grayEncodingBase64Decode text = some (.ok decoded)) ↔
      IsBase64Text text) := by
  refine ⟨fun text h => ⟨⟨base64Groups text, ?_, base64Decode_groups text⟩,
    grayEncodingBase64UrlDecode_encode h⟩, fun text => ?_, fun text => ?_⟩
  · rw [grayEncodingBase64Encode_eq, if_pos h]
  · rcases base64Decode_spec text with ⟨-, _, h⟩ | ⟨-, _, h⟩ <;> simp [h]
  · rcases base64Decode_spec text with ⟨htext, h⟩ | ⟨htext, _, h⟩
    · exact iff_of_true h htext
    · exact iff_of_false (by simp [h]) htext

/-- The encoding of 1610612734 bytes, which is two less than 1.5 GiB, has no `int32_t` length. -/
theorem base64_roundTrip_too_long : ¬ ∀ text : Text, text.length < 1610612736 → ∃ encoded,
      grayEncodingBase64Encode text = some encoded ∧
        grayEncodingBase64Decode encoded = some (.ok text) := by
  intro h
  have hlen : (replicate 1610612734 (0 : UInt8)).length = 1610612734 := length_replicate
  obtain ⟨encoded, hencoded, -⟩ := h (replicate 1610612734 0) (by rw [hlen]; omega)
  rw [grayEncodingBase64Encode_eq, hlen, if_neg (by omega)] at hencoded
  cases hencoded

end Grayscale
