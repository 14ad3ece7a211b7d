import Grayscale.Util.Bytes

/-!
# Snake case and kebab case

`strings_delimit_words` of `stdlib/strings.c`, by which words are joined with a separator.
-/

namespace Grayscale.WordCase

open List

/-! ### The functions -/

def isUpper (c : UInt8) : Bool := byte 'A' ≤ c && c ≤ byte 'Z'

def isLower (c : UInt8) : Bool := byte 'a' ≤ c && c ≤ byte 'z'

/-- `gray_ascii_lower`. -/
def lower (c : UInt8) : UInt8 := if isUpper c then c + 32 else c

def isDelimiter (c : UInt8) : Bool := c == byte ' ' || c == byte '-' || c == byte '_'

/-- Whether a word begins at a letter, between the byte before it and the one behind it. -/
def isBoundary (previous c next : UInt8) : Bool :=
  isUpper c && (isLower previous || isdigit previous || (isUpper previous && isLower next))

/-- The loop of `strings_delimit_words`, with the previous byte, whether `position > 0`, and
`has_pending_separator`. -/
@[grind =]
def delimitLoop (separator : UInt8) : UInt8 → Bool → Bool → Text → Text
  | _, _, _, [] => []
  | previous, started, pending, c :: rest =>
    if isDelimiter c then delimitLoop separator c started started rest
    else if pending || (isBoundary previous c (byteAt rest 0) && started) then
      separator :: lower c :: delimitLoop separator c true false rest
    else lower c :: delimitLoop separator c true false rest

/-- `strings_delimit_words`, `none` when `position` overflows. -/
def stringsDelimitWords (separator : UInt8) (string : Text) : Option Text :=
  let buffer := delimitLoop separator 0 false false string
  if buffer.length < 2 ^ 31 then some buffer else none

def grayStringsToSnakeCase (string : Text) : Option Text := stringsDelimitWords (byte '_') string

def grayStringsToKebabCase (string : Text) : Option Text := stringsDelimitWords (byte '-') string

/-! ### The statement -/

/-- No letter is in upper case, and separators stand one by one between other bytes. -/
def IsDelimited (separator : UInt8) (text : Text) : Prop :=
  (∀ c ∈ text, isUpper c = false) ∧ text.head? ≠ some separator ∧
    text.getLast? ≠ some separator ∧ ¬ [separator, separator] <:+: text

def ConvertsStably (string : Text) : Prop :=
  ∃ snake kebab, grayStringsToSnakeCase string = some snake ∧
    grayStringsToKebabCase string = some kebab ∧
    grayStringsToSnakeCase snake = some snake ∧ grayStringsToKebabCase kebab = some kebab ∧
    grayStringsToKebabCase snake = some kebab ∧ grayStringsToSnakeCase kebab = some snake ∧
    IsDelimited (byte '_') snake ∧ IsDelimited (byte '-') kebab ∧
    snake.length ≤ 2 * string.length ∧ kebab.length ≤ 2 * string.length

/-! ### The loop -/

theorem lower_spec : ∀ c, isUpper (lower c) = false ∧ lower (lower c) = lower c ∧
    (isDelimiter c = false → isDelimiter (lower c) = false) ∧
    (isDelimiter c = true → isUpper c = false) := forall_byte (by decide +kernel)

variable {separator separator' previous previous' : UInt8} {started pending : Bool}

/-- A second pass puts its separators where the first one did: the invariant is that a pending
separator comes behind a byte that is written. -/
theorem delimitLoop_delimitLoop (hsep : isDelimiter separator = true) (string : Text)
    (hpend : pending = true → started = true) : delimitLoop separator' previous' started false
        (delimitLoop separator previous started pending string) =
      delimitLoop separator' previous started pending string := by
  induction string generalizing previous previous' started pending with
  | nil => rfl
  | cons c rest ih =>
    rw [delimitLoop, delimitLoop]
    by_cases hc : isDelimiter c = true
    · rw [if_pos hc, if_pos hc]
      exact ih id
    · obtain ⟨hupper, hlower, hkp, -⟩ := lower_spec c
      have hbnd : ∀ p n, isBoundary p (lower c) n = false := fun p n => by
        rw [isBoundary, hupper, Bool.false_and]
      have hrest := @ih c (lower c) true false nofun
      rw [if_neg hc, if_neg hc]
      split_ifs with hwrites
      · have hst : started = true := by
          rcases Bool.or_eq_true_iff.mp hwrites with h | h
          · exact hpend h
          · exact (Bool.and_eq_true_iff.mp h).2
        rw [hst, delimitLoop, if_pos hsep, delimitLoop,
          if_neg (Bool.eq_false_iff.mp (hkp (Bool.eq_false_iff.mpr hc))),
          Bool.true_or, if_pos rfl, hlower, hrest]
      · rw [delimitLoop, if_neg (Bool.eq_false_iff.mp (hkp (Bool.eq_false_iff.mpr hc))),
          hbnd, Bool.false_and, Bool.or_false, if_neg Bool.false_ne_true, hlower, hrest]

theorem length_delimitLoop (string : Text) :
    (delimitLoop separator previous started pending string).length =
      (delimitLoop separator' previous started pending string).length := by
  induction string generalizing previous started pending with
  | nil => rfl
  | cons c rest ih =>
    rw [delimitLoop, delimitLoop]
    split_ifs <;> simp only [length_cons, ih]

theorem length_delimitLoop_le (string : Text) :
    (delimitLoop separator previous started pending string).length ≤ 2 * string.length := by
  induction string generalizing previous started pending with
  | nil => exact le_rfl
  | cons c rest ih =>
    have hrest := @ih c true false
    have hrest' := @ih c started started
    rw [delimitLoop]
    split_ifs <;> simp only [length_cons] <;> omega

/-- Behind the start of a word and in it, what is written ends in no separator and holds no two. -/
theorem delimitLoop_spec (hsep : isDelimiter separator = true) (string : Text) :
    (∀ c ∈ delimitLoop separator previous started pending string, isUpper c = false) ∧
      (started = false → pending = false →
        (delimitLoop separator previous started pending string).head? ≠ some separator) ∧
      (delimitLoop separator previous started pending string).getLast? ≠ some separator ∧
      ¬ [separator, separator] <:+: delimitLoop separator previous started pending string := by
  induction string generalizing previous started pending with
  | nil => exact ⟨forall_mem_nil _, fun _ _ => nofun, nofun, fun h => nomatch eq_nil_of_infix_nil h⟩
  | cons c rest ih =>
    rw [delimitLoop]
    by_cases hc : isDelimiter c = true
    · rw [if_pos hc]
      obtain ⟨hupper, hhead, hlast, hdbl⟩ := @ih c started started
      exact ⟨hupper, fun hst _ => hhead hst hst, hlast, hdbl⟩
    · obtain ⟨hupper, -, hlast, hdbl⟩ := @ih c true false
      have hne : lower c ≠ separator := by
        rintro rfl
        have := (lower_spec c).2.2.1 (Bool.eq_false_iff.mpr hc)
        exact absurd (this.symm.trans hsep) Bool.false_ne_true
      have hword : ∀ l : Text, l.getLast? ≠ some separator →
          (lower c :: l).getLast? ≠ some separator := by
        intro l hl
        cases l with
        | nil => exact fun h => hne (Option.some.inj h)
        | cons d l => rwa [getLast?_cons_cons]
      have hdbl' : ¬ [separator, separator] <:+:
          lower c :: delimitLoop separator c true false rest := by
        rw [infix_cons_iff, cons_prefix_cons]
        rintro (⟨h, -⟩ | h)
        · exact hne h.symm
        · exact hdbl h
      have hupper' : ∀ d ∈ lower c :: delimitLoop separator c true false rest,
          isUpper d = false := forall_mem_cons.mpr ⟨(lower_spec c).1, hupper⟩
      rw [if_neg hc]
      split_ifs with hwrites
      · refine ⟨forall_mem_cons.mpr ⟨(lower_spec separator).2.2.2 hsep, hupper'⟩,
          fun hst hpend => ?_, ?_, ?_⟩
        · simp [hst, hpend] at hwrites
        · rw [getLast?_cons_cons]
          exact hword _ hlast
        · rw [infix_cons_iff, cons_prefix_cons, cons_prefix_cons]
          rintro (⟨-, h, -⟩ | h)
          · exact hne h.symm
          · exact hdbl' h
      · exact ⟨hupper', fun _ _ h => hne (Option.some.inj h), hword _ hlast, hdbl'⟩

theorem convertsStably_of_length {string : Text}
    (h : (delimitLoop (byte '_') 0 false false string).length < 2 ^ 31) :
    ConvertsStably string := by
  have hsnake : isDelimiter (byte '_') = true := by decide
  have hkebab : isDelimiter (byte '-') = true := by decide
  have hconverts : ∀ separator, isDelimiter separator = true → ∀ separator',
      stringsDelimitWords separator' (delimitLoop separator 0 false false string) =
        some (delimitLoop separator' 0 false false string) := by
    intro separator hsep separator'
    rw [stringsDelimitWords, delimitLoop_delimitLoop hsep string id,
      @length_delimitLoop _ (byte '_')]
    exact if_pos h
  have hdirect : ∀ separator, stringsDelimitWords separator string =
      some (delimitLoop separator 0 false false string) := by
    intro separator
    rw [stringsDelimitWords, @length_delimitLoop _ (byte '_')]
    exact if_pos h
  have hdelimited : ∀ separator, isDelimiter separator = true →
      IsDelimited separator (delimitLoop separator 0 false false string) := by
    intro separator hsep
    obtain ⟨hupper, hhead, hlast, hdbl⟩ := @delimitLoop_spec _ 0 false false hsep string
    exact ⟨hupper, hhead rfl rfl, hlast, hdbl⟩
  exact ⟨_, _, hdirect _, hdirect _, hconverts _ hsnake _, hconverts _ hkebab _,
    hconverts _ hsnake _, hconverts _ hkebab _, hdelimited _ hsnake, hdelimited _ hkebab,
    length_delimitLoop_le string, length_delimitLoop_le string⟩

theorem convertsStably_server : ConvertsStably (bytes "HTTPServer-2Go") :=
  convertsStably_of_length (by decide)

theorem length_delimitLoop_pairs (n : ℕ) : (delimitLoop (byte '_') (byte 'a') true false
      (replicate n [byte 'A', byte 'a']).flatten).length = 3 * n := by
  induction n with
  | zero => rfl
  | succ n ih =>
    rw [replicate_succ, flatten_cons]
    exact (congrArg (· + 3) ih).trans (Nat.mul_succ 3 n).symm

/-- The position overflows on a string of `2 ^ 30 - 1` times "Aa". -/
theorem not_convertsStably_pairs : ¬ ∀ s : Text, s.length < 2 ^ 31 → ConvertsStably s := by
  intro h
  obtain ⟨n, hn⟩ : ∃ n : ℕ, n = 2 ^ 30 - 2 := ⟨_, rfl⟩
  have hlen := length_delimitLoop_pairs n
  obtain ⟨snake, -, hsnake, -⟩ := h (replicate (n + 1) [byte 'A', byte 'a']).flatten (by
    rw [length_flatten, map_replicate, sum_replicate_nat]
    simp only [length_cons, length_nil]
    omega)
  rw [grayStringsToSnakeCase, stringsDelimitWords, if_neg] at hsnake
  · cases hsnake
  · rw [replicate_succ, flatten_cons]
    change ¬ (delimitLoop (byte '_') (byte 'a') true false
      (replicate n [byte 'A', byte 'a']).flatten).length + 2 < 2 ^ 31
    omega

end Grayscale.WordCase
