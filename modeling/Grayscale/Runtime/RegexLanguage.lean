import Grayscale.Library.Repetition
import Grayscale.Runtime.Regex

/-!
# The language of a pattern

The segments that a pattern denotes, and the ends of the segments at a position in the order in
which a search with full backtracking finds them.
-/

namespace Grayscale.Regex

open Repetition

/-! ### Segments -/

/-- A character of a class stands between the positions. -/
def IsCharacter (has : ℕ → Bool) (s t : Text) : Prop :=
  s ≠ [] ∧ has (regexDecode s).1 = true ∧ t = behindCharacter s

mutual

def RegexAtom.Denotes (context : RegexContext) : RegexAtom → Text → Text → Prop
  | .beginningOfLine, s, t => t = s ∧ s = context.start ∧ ¬ context.isNotBeginningOfLine
  | .endOfLine, s, t => t = s ∧ s = []
  | .any, s, t => IsCharacter (fun _ => true) s t
  | .character c, s, t => IsCharacter (fun codepoint => codepoint == c) s t
  | .bracket isNegated set, s, t =>
    IsCharacter (fun codepoint => classHas set codepoint != isNegated) s t
  | .group alternation, s, t => alternation.Denotes context s t

/-- The segments of a sequence: the nodes repeat and follow each other. -/
def RegexSequence.Denotes (context : RegexContext) : RegexSequence → Text → Text → Prop
  | .nil, s, t => t = s
  | .cons atom minimumRepeat maximumRepeat rest, s, t =>
    ∃ u, Repeats (atom.Denotes context) minimumRepeat maximumRepeat s u ∧ rest.Denotes context u t

def RegexAlternation.Denotes (context : RegexContext) : RegexAlternation → Text → Text → Prop
  | .last sequence, s, t => sequence.Denotes context s t
  | .cons sequence rest, s, t => sequence.Denotes context s t ∨ rest.Denotes context s t

end

/-- A character boundary of a text. -/
def IsBoundary (text s : Text) : Prop :=
  Relation.ReflTransGen (fun u v => u ≠ [] ∧ v = behindCharacter u) text s

/-- The language has a segment at the position. -/
def RegexAlternation.MatchesAt (root : RegexAlternation) (context : RegexContext) (s : Text) :
    Prop := ∃ t, root.Denotes context s t

/-- A position is the leftmost boundary at which the language has a segment. -/
def RegexAlternation.IsLeftmost (root : RegexAlternation) (context : RegexContext)
    (text s : Text) : Prop := IsBoundary text s ∧ root.MatchesAt context s ∧
    ∀ s', IsBoundary text s' → root.MatchesAt context s' → s'.length ≤ s.length

/-- A search reports a match if and only if there is one, and the leftmost start of one. -/
def IsSearched (root : RegexAlternation) (context : RegexContext) (outcome : Option (ℕ × ℕ)) :
    Prop := (outcome.isSome ↔ ∃ s, IsBoundary context.start s ∧ root.MatchesAt context s) ∧
    ∀ start stop, outcome = some (start, stop) →
      ∃ s, root.IsLeftmost context context.start s ∧ context.start.length - s.length = start

/-! ### Ends in order -/

/-- The positions behind the repetitions of an atom, longest repetitions first. -/
def allChoices (one : Text → List Text) (minimumRepeat : ℕ) (maximumRepeat : ℤ) (position : Text) :
    List Text :=
  if 0 ≤ maximumRepeat ∧ maximumRepeat < minimumRepeat then []
  else repeatEnds one (position.length + 1) minimumRepeat maximumRepeat position

mutual

def RegexAtom.ends (context : RegexContext) : RegexAtom → Text → List Text
  | .beginningOfLine, s => if s = context.start ∧ ¬ context.isNotBeginningOfLine then [s] else []
  | .endOfLine, s => if s = [] then [s] else []
  | .any, s => (matchCharacter (fun _ => true) s).toList
  | .character c, s => (matchCharacter (fun codepoint => codepoint == c) s).toList
  | .bracket isNegated set, s =>
    (matchCharacter (fun codepoint => classHas set codepoint != isNegated) s).toList
  | .group alternation, s => alternation.ends context s

/-- The ends of a sequence: those behind the first choice for the first node come first. -/
def RegexSequence.ends (context : RegexContext) : RegexSequence → Text → List Text
  | .nil, s => [s]
  | .cons atom minimumRepeat maximumRepeat rest, s =>
    (allChoices (atom.ends context) minimumRepeat maximumRepeat s).flatMap (rest.ends context)

/-- The ends of an alternation: those of the first sequence come first. -/
def RegexAlternation.ends (context : RegexContext) : RegexAlternation → Text → List Text
  | .last sequence, s => sequence.ends context s
  | .cons sequence rest, s => sequence.ends context s ++ rest.ends context s

end

section Ends

variable {context : RegexContext}

theorem behind_suffix (s : Text) : behindCharacter s <:+ s := List.drop_suffix _ _

theorem suffix_of_steps {R : Text → Text → Prop} (h : ∀ s t, R s t → t <:+ s) {n : ℕ} {s t : Text}
    (hsts : Steps R n s t) : t <:+ s := by
  induction hsts with
  | zero s => exact List.suffix_rfl
  | succ hstep _ ih => exact ih.trans (h _ _ hstep)

mutual

theorem RegexAtom.suffix_of_denotes : ∀ (atom : RegexAtom) (s t : Text),
    atom.Denotes context s t → t <:+ s
  | .beginningOfLine, s, t, h => by
    obtain ⟨rfl, -⟩ := h
    exact List.suffix_rfl
  | .endOfLine, s, t, h => by
    obtain ⟨rfl, -⟩ := h
    exact List.suffix_rfl
  | .any, s, t, h => h.2.2 ▸ behind_suffix s
  | .character c, s, t, h => h.2.2 ▸ behind_suffix s
  | .bracket isNegated set, s, t, h => h.2.2 ▸ behind_suffix s
  | .group alternation, s, t, h => alternation.suffix_of_denotes s t h

theorem RegexSequence.suffix_of_denotes : ∀ (sequence : RegexSequence) (s t : Text),
    sequence.Denotes context s t → t <:+ s
  | .nil, s, t, h => by
    obtain rfl : t = s := h
    exact List.suffix_rfl
  | .cons atom minimumRepeat maximumRepeat rest, s, t, h => by
    obtain ⟨u, ⟨n, -, -, hsts⟩, ht⟩ := h
    exact (rest.suffix_of_denotes u t ht).trans (suffix_of_steps atom.suffix_of_denotes hsts)

theorem RegexAlternation.suffix_of_denotes : ∀ (alternation : RegexAlternation) (s t : Text),
    alternation.Denotes context s t → t <:+ s
  | .last sequence, s, t, h => sequence.suffix_of_denotes s t h
  | .cons sequence rest, s, t, h =>
    h.elim (sequence.suffix_of_denotes s t) (rest.suffix_of_denotes s t)

end

theorem matchChar_eq_some_iff {has : ℕ → Bool} {s t : Text} :
    matchCharacter has s = some t ↔ IsCharacter has s t := by
  rw [matchCharacter, IsCharacter]
  split_ifs with hs hhas
  · simp [hs]
  · simp [hs, hhas, eq_comm]
  · simp [hhas]

theorem mem_allChoices_iff {R : Text → Text → Prop} {one : Text → List Text}
    (hone : ∀ u v, v ∈ one u ↔ R u v) (hsuf : ∀ u v, R u v → v <:+ u) {minimumRepeat : ℕ}
    {maximumRepeat : ℤ} {s t : Text} : t ∈ allChoices one minimumRepeat maximumRepeat s ↔
      Repeats R minimumRepeat maximumRepeat s t := by
  have hrelation : (fun u v => v ∈ one u) = R := by
    funext u v
    exact propext (hone u v)
  have hsize : ∀ u, ∀ v ∈ one u, v ≠ u → v.length < u.length := fun u v hv hne =>
    lt_of_le_of_ne (hsuf u v ((hone u v).mp hv)).length_le fun hlen =>
      hne ((hsuf u v ((hone u v).mp hv)).eq_of_length hlen)
  rw [allChoices]
  split_ifs with hbnd
  · refine iff_of_false List.not_mem_nil ?_
    rintro ⟨n, hlow, hhigh, -⟩
    omega
  · rw [mem_repeatEnds_iff List.length hsize (Nat.lt_succ_self _) (by omega), hrelation]

mutual

theorem RegexAtom.mem_ends_iff : ∀ (atom : RegexAtom) (s t : Text),
    t ∈ atom.ends context s ↔ atom.Denotes context s t
  | .beginningOfLine, s, t => by
    rw [RegexAtom.ends, RegexAtom.Denotes]
    split_ifs with h
    · simp [h]
    · simp only [List.not_mem_nil, false_iff]
      exact fun h' => h h'.2
  | .endOfLine, s, t => by
    rw [RegexAtom.ends, RegexAtom.Denotes]
    split_ifs with h <;> simp [h]
  | .any, s, t => Option.mem_toList.trans matchChar_eq_some_iff
  | .character c, s, t => Option.mem_toList.trans matchChar_eq_some_iff
  | .bracket isNegated set, s, t => Option.mem_toList.trans matchChar_eq_some_iff
  | .group alternation, s, t => alternation.mem_ends_iff s t

theorem RegexSequence.mem_ends_iff : ∀ (sequence : RegexSequence) (s t : Text),
    t ∈ sequence.ends context s ↔ sequence.Denotes context s t
  | .nil, s, t => List.mem_singleton
  | .cons atom minimumRepeat maximumRepeat rest, s, t => by
    rw [RegexSequence.ends, RegexSequence.Denotes, List.mem_flatMap]
    exact exists_congr fun u => and_congr
      (mem_allChoices_iff atom.mem_ends_iff atom.suffix_of_denotes) (rest.mem_ends_iff u t)

theorem RegexAlternation.mem_ends_iff : ∀ (alternation : RegexAlternation) (s t : Text),
    t ∈ alternation.ends context s ↔ alternation.Denotes context s t
  | .last sequence, s, t => sequence.mem_ends_iff s t
  | .cons sequence rest, s, t => List.mem_append.trans
    (or_congr (sequence.mem_ends_iff s t) (rest.mem_ends_iff s t))

end

end Ends

end Grayscale.Regex
