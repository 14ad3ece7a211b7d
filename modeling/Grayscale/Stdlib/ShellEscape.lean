import Grayscale.Library.ShellWords
import Grayscale.Stdlib.EncodingBuffers

/-!
# Shell escaping

`gray_encoding_shell_escape` of `stdlib/encoding.c`, in its POSIX form.
-/

namespace Grayscale

open Shell List

/-! ### The function -/

/-- A byte that the shell gives no meaning to. -/
def isShellSafe (c : UInt8) : Bool :=
  (byte 'A' ≤ c && c ≤ byte 'Z') || (byte 'a' ≤ c && c ≤ byte 'z') ||
    (byte '0' ≤ c && c ≤ byte '9') ||
    c == byte '_' || c == byte '-' || c == byte '.' || c == byte '/' || c == byte ',' ||
    c == byte ':' || c == byte '@' || c == byte '+' || c == byte '=' || c == byte '%'

/-- What a byte is written as between the single quotes. -/
def shellQuoted (c : UInt8) : Text :=
  if c = byte '\'' then [byte '\'', byte '\\', byte '\'', byte '\''] else [c]

/-- `gray_encoding_shell_escape`, `none` when a write has no room in the buffer or no `int32_t`
position. -/
def grayEncodingShellEscape (string : Text) : Option Text :=
  if string = [] then some (bytes "''")
  else if string.all isShellSafe then some string
  else
    let room := outputRoom (string.length * 4 + 3)
    (writeBytes room [] [byte '\'']).bind fun output =>
      (encodeLoop room shellQuoted string output).bind fun output =>
        writeBytes room output [byte '\'']

/-! ### The text -/

def shellEscaped (string : Text) : Text :=
  if string = [] then bytes "''"
  else if string.all isShellSafe then string
  else byte '\'' :: (string.flatMap shellQuoted ++ [byte '\''])

theorem length_shellQuoted_le (c : UInt8) : (shellQuoted c).length ≤ 4 := by
  unfold shellQuoted
  split_ifs <;> simp

theorem grayEncodingShellEscape_eq {string : Text} (hstr : string.length < 2 ^ 31) :
    grayEncodingShellEscape string =
      if (shellEscaped string).length < 2 ^ 31 then some (shellEscaped string) else none := by
  unfold grayEncodingShellEscape shellEscaped
  by_cases hnil : string = []
  · rw [if_pos hnil, if_pos hnil, if_pos (by decide)]
  by_cases hsafe : string.all isShellSafe = true
  · rw [if_neg hnil, if_neg hnil, if_pos hsafe, if_pos hsafe, if_pos hstr]
  · rw [if_neg hnil, if_neg hnil, if_neg hsafe, if_neg hsafe]
    exact enclosedLoop_eq length_shellQuoted_le (byte '\'') string

/-! ### How the shell reads it -/

theorem isPlain_of_isShellSafe : ∀ c, isShellSafe c = true →
    isPlain c = true ∧ isExpansionByte c = false := forall_byte (by decide +kernel)

variable {s : Text}

theorem isWordFor_of_isShellSafe (hnil : s ≠ []) (hsafe : ∀ c ∈ s, isShellSafe c = true) :
    IsWordFor s s := by
  have hpl : ∀ c ∈ s, isPlain c = true := fun c hc => (isPlain_of_isShellSafe c (hsafe c hc)).1
  obtain ⟨c, t, rfl⟩ := exists_cons_of_ne_nil hnil
  refine ⟨marked false (c :: t), ?_, map_value_marked _ _, not_isExpanded_marked_false fun d hd =>
    (isPlain_of_isShellSafe d (hsafe d hd)).2⟩
  have hread := read_plain hpl [] []
  rw [append_nil, nil_append] at hread
  rw [tokens, read_plain_none (hpl c mem_cons_self), hread]
  rfl

theorem read_shellQuoted (hnul : ∀ c ∈ s, c ≠ 0) (word : List WordByte) (rest : Text) :
    read .single (some word) (s.flatMap shellQuoted ++ rest) =
      read .single (some (word ++ marked true s)) rest := by
  induction s generalizing word with
  | nil => simp
  | cons c s ih =>
    obtain ⟨hc, hs⟩ := forall_mem_cons.mp hnul
    have hstep : read .single (some word) (shellQuoted c ++ (s.flatMap shellQuoted ++ rest)) =
        read .single (some (word ++ marked true [c])) (s.flatMap shellQuoted ++ rest) := by
      unfold shellQuoted
      split_ifs with hq
      · -- the quotation is left, the quote is escaped, and the quotation is entered again
        subst hq
        simp only [cons_append, nil_append]
        rw [read_close, read_escaped (by decide) (by decide), read_open, Option.getD_some]
      · exact read_single (by simpa using ⟨hc, hq⟩) word _
    rw [flatMap_cons, append_assoc, hstep, ih hs, append_assoc, ← marked_append, singleton_append]

theorem isWordFor_quoted (hnul : ∀ c ∈ s, c ≠ 0) :
    IsWordFor (byte '\'' :: (s.flatMap shellQuoted ++ [byte '\''])) s := by
  refine ⟨marked true s, ?_, map_value_marked _ _, not_isExpanded_marked_true s⟩
  rw [tokens, read_open, Option.getD_none, read_shellQuoted hnul, nil_append, read_close]
  rfl

theorem isWordFor_shellEscaped (hnul : ∀ c ∈ s, c ≠ 0) : IsWordFor (shellEscaped s) s := by
  unfold shellEscaped
  split_ifs with hnil hsafe
  · subst hnil
    exact isWordFor_quoted hnul
  · exact isWordFor_of_isShellSafe hnil (by simpa using hsafe)
  · exact isWordFor_quoted hnul

theorem length_flatMap_shellQuoted (s : Text) :
    (s.flatMap shellQuoted).length = s.length + 3 * s.count (byte '\'') := by
  induction s with
  | nil => rfl
  | cons c s ih =>
    have hpc : (shellQuoted c).length = 1 + 3 * if c = byte '\'' then 1 else 0 := by
      unfold shellQuoted
      split_ifs <;> rfl
    rw [flatMap_cons, length_append, length_cons, count_cons, ih, hpc]
    simp only [beq_iff_eq]
    omega

theorem length_shellEscaped_lt (hlen : s.length < 2 ^ 31)
    (h : (∀ c ∈ s, isShellSafe c = true) ∨ s.length + 3 * s.count (byte '\'') + 2 < 2 ^ 31) :
    (shellEscaped s).length < 2 ^ 31 := by
  unfold shellEscaped
  split_ifs with hnil hsafe
  · decide
  · exact hlen
  · have hcnt := h.resolve_left fun hall => hsafe (by simpa using hall)
    simp only [length_cons, length_append, length_nil, length_flatMap_shellQuoted]
    omega

/-- Every string without NUL whose escaped text has an `int32_t` length is escaped to one word with
that string as its value, in which nothing is expanded. -/
theorem shellEscape_isWord {s : Text} (hnul : ∀ c ∈ s, c ≠ 0) (hlength : s.length < 2 ^ 31)
    (hescaped : (∀ c ∈ s, isShellSafe c = true) ∨ s.length + 3 * s.count (byte '\'') + 2 < 2 ^ 31) :
    ∃ text, grayEncodingShellEscape s = some text ∧ IsWordFor text s := ⟨shellEscaped s, by
    rw [grayEncodingShellEscape_eq hlength, if_pos (length_shellEscaped_lt hlength hescaped)],
    isWordFor_shellEscaped hnul⟩

theorem shellEscape_isWord_quote :
    ∃ text, grayEncodingShellEscape (bytes "it's $HOME") = some text ∧
      IsWordFor text (bytes "it's $HOME") :=
  shellEscape_isWord (by decide +kernel) (by decide) (.inr (by decide))

/-- The position overflows on a string of `2 ^ 29` quotes. -/
theorem not_shellEscape_quotes : ¬ ∀ s : Text, (∀ c ∈ s, c ≠ 0) → s.length < 2 ^ 31 →
      ∃ text, grayEncodingShellEscape s = some text ∧ IsWordFor text s := by
  intro h
  obtain ⟨n, hn⟩ : ∃ n : ℕ, n = 2 ^ 29 := ⟨_, rfl⟩
  have hlen : (replicate n (byte '\'')).length = n := length_replicate
  obtain ⟨text, htext, -⟩ := h (replicate n (byte '\''))
    (fun c hc => by rw [eq_of_mem_replicate hc]; decide) (by omega)
  have hnil : replicate n (byte '\'') ≠ [] := ne_nil_of_length_pos (by omega)
  have hunsafe : ¬ (replicate n (byte '\'')).all isShellSafe = true := by
    rw [all_eq_true]
    exact fun hall => absurd (hall _ (mem_replicate.mpr ⟨by omega, rfl⟩)) (by decide)
  have hescaped : 2 ^ 31 ≤ (shellEscaped (replicate n (byte '\''))).length := by
    rw [shellEscaped, if_neg hnil, if_neg hunsafe]
    simp only [length_cons, length_append, length_nil, length_flatMap_shellQuoted,
      count_replicate_self, hlen]
    omega
  rw [grayEncodingShellEscape_eq (by omega), if_neg (Nat.not_lt.mpr hescaped)] at htext
  exact absurd htext (Option.some_ne_none text).symm

end Grayscale
