import Grayscale.Runtime.RegexLanguage
import Grayscale.Stdlib.StringChars

/-!
# The search of the regex engine

Where what the matcher keeps of its choices is enough, it finds the first of the ends, and the
search the leftmost start.
-/

namespace Grayscale.Regex

open Repetition

variable {context : RegexContext}

/-! ### What is found is in the language -/

/-- The positions of the loop are reached by as many steps as lie below them. -/
def IsStack (R : Text → Text → Prop) (s : Text) (stack : List Text) : Prop :=
  ∀ (i : ℕ) (u : Text), stack[i]? = some u → Steps R (stack.length - 1 - i) s u

variable {R : Text → Text → Prop}

theorem IsStack.push {s u v : Text} {stack : List Text}
    (h : IsStack R s (u :: stack)) (hstep : R u v) : IsStack R s (v :: u :: stack) := by
  intro i w hw
  cases i with
  | zero =>
    obtain rfl : v = w := by simpa using hw
    exact (h 0 u rfl).trans (.succ hstep (.zero _))
  | succ i =>
    have hsts := h i w (by simpa using hw)
    simp only [List.length_cons] at hsts ⊢
    rwa [show stack.length + 1 + 1 - 1 - (i + 1) = stack.length + 1 - 1 - i by omega]

theorem repeatLoop_isStack {one : Text → Option Text}
    (hone : ∀ u v, one u = some v → R u v) {maximumRepeat : ℤ} {s : Text} (room : ℕ) {cursor : Text}
    {stack : List Text} (hstack : IsStack R s (cursor :: stack))
    (hmax : maximumRepeat < 0 ∨ (stack.length : ℤ) ≤ maximumRepeat) :
    IsStack R s (repeatLoop one maximumRepeat room stack.length cursor (cursor :: stack)) ∧
      (maximumRepeat < 0 ∨
        ((repeatLoop one maximumRepeat room stack.length cursor (cursor :: stack)).length : ℤ) - 1 ≤
          maximumRepeat) := by
  induction room generalizing cursor stack with
  | zero =>
    rw [repeatLoop]
    exact ⟨hstack, hmax.imp_right fun h => by simpa using h⟩
  | succ room ih =>
    rw [repeatLoop]
    have hstop : maximumRepeat < 0 ∨ (((cursor :: stack).length : ℤ) - 1 ≤ maximumRepeat) :=
      hmax.imp_right fun h => by simpa using h
    split_ifs with hdep
    · cases hnext : one cursor with
      | none => exact ⟨hstack, hstop⟩
      | some next =>
        simp only
        split_ifs with hself
        · exact ⟨hstack, hstop⟩
        · exact ih (hstack.push (hone _ _ hnext)) (by simp only [List.length_cons]; omega)
    · exact ⟨hstack, hstop⟩

theorem repeats_of_mem_choices {one : Text → Option Text}
    (hone : ∀ u v, one u = some v → R u v) {minimumRepeat : ℕ} {maximumRepeat : ℤ} {s t : Text}
    (h : t ∈ choices one minimumRepeat maximumRepeat s)
    (hmax : maximumRepeat < 0 ∨ 0 ≤ maximumRepeat) : Repeats R minimumRepeat maximumRepeat s t := by
  rw [choices] at h
  split_ifs at h with hfixed
  · obtain ⟨rfl, rfl⟩ := hfixed
    exact repeats_one_iff.mpr (hone s t (Option.mem_toList.mp h))
  · obtain ⟨i, hi⟩ := List.mem_iff_getElem?.mp h
    have hst : IsStack R s [s] := fun i u hu => by
      cases i with
      | zero =>
        obtain rfl : s = u := by simpa using hu
        exact .zero s
      | succ i => simp at hu
    obtain ⟨hstack, hlen⟩ := repeatLoop_isStack hone regexMaxRepeat hst
      (by simpa using hmax)
    simp only [List.length_nil] at hstack hlen
    rw [List.getElem?_take] at hi
    split_ifs at hi with hless
    exact ⟨_, by omega, hlen.imp_right fun h => by omega, hstack i t hi⟩

mutual

theorem RegexAtom.denotes_of_match : ∀ (atom : RegexAtom) (s t : Text),
    matchOne context atom s = some t → atom.Denotes context s t
  | .beginningOfLine, s, t, h => by
    rw [matchOne] at h
    split_ifs at h with hst
    exact ⟨(Option.some.inj h).symm, hst⟩
  | .endOfLine, s, t, h => by
    rw [matchOne] at h
    split_ifs at h with hend
    exact ⟨(Option.some.inj h).symm, hend⟩
  | .any, s, t, h => by
    rw [matchOne] at h
    exact matchChar_eq_some_iff.mp h
  | .character c, s, t, h => by
    rw [matchOne] at h
    exact matchChar_eq_some_iff.mp h
  | .bracket isNegated set, s, t, h => by
    rw [matchOne] at h
    exact matchChar_eq_some_iff.mp h
  | .group alternation, s, t, h => alternation.denotes_of_match s t h

theorem RegexSequence.denotes_of_match : ∀ (sequence : RegexSequence) (s t : Text),
    matchSequence context sequence s = some t → sequence.Denotes context s t
  | .nil, s, t, h => (Option.some.inj h).symm
  | .cons atom minimumRepeat maximumRepeat rest, s, t, h => by
    rw [matchSequence] at h
    obtain ⟨u, hu, ht⟩ := List.exists_of_findSome?_eq_some h
    exact ⟨u, repeats_of_mem_choices atom.denotes_of_match hu (by omega),
      rest.denotes_of_match u t ht⟩

theorem RegexAlternation.denotes_of_match : ∀ (alternation : RegexAlternation) (s t : Text),
    matchAlternation context alternation s = some t → alternation.Denotes context s t
  | .last sequence, s, t, h => sequence.denotes_of_match s t h
  | .cons sequence rest, s, t, h => by
    rw [matchAlternation] at h
    cases hseq : matchSequence context sequence s with
    | some u =>
      rw [hseq] at h
      exact .inl (sequence.denotes_of_match s t (hseq.trans h))
    | none =>
      rw [hseq] at h
      exact .inr (rest.denotes_of_match s t h)

end

/-! ### What is kept -/

def tried (one : Text → Option Text) (minimumRepeat : ℕ) (maximumRepeat : ℤ) (position : Text) :
    List Text :=
  if minimumRepeat = 1 ∧ maximumRepeat = 1 then [position]
  else repeatLoop one maximumRepeat regexMaxRepeat 0 position [position]

mutual

/-- The groups of an atom keep enough. -/
def RegexAtom.Keeps (context : RegexContext) : RegexAtom → Text → Prop
  | .group alternation, s => alternation.Keeps context s
  | _, _ => True

/-- Of all the choices for a node, the first one from which the rest has an end is the first such
one among those that are kept, where a group keeps its first end. -/
def RegexSequence.Keeps (context : RegexContext) : RegexSequence → Text → Prop
  | .nil, _ => True
  | .cons atom minimumRepeat maximumRepeat rest, s =>
    let first := fun u => (atom.ends context u).head?
    (∀ u ∈ tried first minimumRepeat maximumRepeat s, atom.Keeps context u) ∧
      (∀ u ∈ choices first minimumRepeat maximumRepeat s, rest.Keeps context u) ∧
      (choices first minimumRepeat maximumRepeat s).find? (fun u => rest.ends context u ≠ []) =
        (allChoices (atom.ends context) minimumRepeat maximumRepeat s).find?
          fun u => rest.ends context u ≠ []

/-- A sequence is tried where those in front of it have no end. -/
def RegexAlternation.Keeps (context : RegexContext) : RegexAlternation → Text → Prop
  | .last sequence, s => sequence.Keeps context s
  | .cons sequence rest, s =>
    sequence.Keeps context s ∧ (sequence.ends context s = [] → rest.Keeps context s)

end

section Kept

variable {one one' : Text → Option Text}

theorem subset_repeatLoop (maximumRepeat : ℤ) (room depth : ℕ) (cursor : Text)
    (stack : List Text) : stack ⊆ repeatLoop one maximumRepeat room depth cursor stack := by
  induction room generalizing depth cursor stack with
  | zero => exact List.Subset.refl _
  | succ room ih =>
    rw [repeatLoop]
    split_ifs with hdep
    · cases one cursor with
      | none => exact List.Subset.refl _
      | some next =>
        simp only
        split_ifs with hself
        · exact List.Subset.refl _
        · exact List.Subset.trans (List.subset_cons_self _ _) (ih _ _ _)
    · exact List.Subset.refl _

theorem repeatLoop_congr {maximumRepeat : ℤ} {room depth : ℕ} {cursor : Text} {stack : List Text}
    (hcur : cursor ∈ stack)
    (h : ∀ u ∈ repeatLoop one' maximumRepeat room depth cursor stack, one u = one' u) :
    repeatLoop one maximumRepeat room depth cursor stack =
      repeatLoop one' maximumRepeat room depth cursor stack := by
  induction room generalizing depth cursor stack with
  | zero => rfl
  | succ room ih =>
    have heq : one cursor = one' cursor := h cursor (subset_repeatLoop _ _ _ _ _ hcur)
    rw [repeatLoop, repeatLoop, heq]
    rw [repeatLoop] at h
    split_ifs with hdep
    · rw [if_pos hdep] at h
      cases hnext : one' cursor with
      | none => rfl
      | some next =>
        rw [hnext] at h
        simp only at h ⊢
        split_ifs with hself
        · rfl
        · rw [if_neg hself] at h
          exact ih List.mem_cons_self h
    · rfl

theorem choices_congr {minimumRepeat : ℕ} {maximumRepeat : ℤ} {s : Text}
    (h : ∀ u ∈ tried one' minimumRepeat maximumRepeat s, one u = one' u) :
    choices one minimumRepeat maximumRepeat s = choices one' minimumRepeat maximumRepeat s := by
  rw [tried] at h
  rw [choices, choices]
  split_ifs at h ⊢ with hfixed
  · rw [h s List.mem_cons_self]
  · rw [repeatLoop_congr List.mem_cons_self h]

theorem findSome?_congr {l : List Text} (h : ∀ u ∈ l, one u = one' u) :
    l.findSome? one = l.findSome? one' := by
  induction l with
  | nil => rfl
  | cons u l ih =>
    obtain ⟨hu, hl⟩ := List.forall_mem_cons.mp h
    rw [List.findSome?_cons, List.findSome?_cons, hu, ih hl]

theorem findSome?_head? (l : List Text) (ends : Text → List Text) :
    l.findSome? (fun u => (ends u).head?) =
      (l.find? fun u => ends u ≠ []).bind fun u => (ends u).head? := by
  induction l with
  | nil => rfl
  | cons u l ih =>
    rw [List.findSome?_cons, List.find?_cons]
    cases hends : ends u with
    | nil =>
      simp only [List.head?_nil, ne_eq, not_true_eq_false, decide_false]
      exact ih
    | cons t rest => simp [hends]

theorem head?_flatMap_eq (l : List Text) (ends : Text → List Text) :
    (l.flatMap ends).head? = l.findSome? fun u => (ends u).head? := by
  induction l with
  | nil => rfl
  | cons u l ih =>
    rw [List.flatMap_cons, List.head?_append, ih, List.findSome?_cons]
    cases (ends u).head? <;> rfl

end Kept

mutual

theorem RegexAtom.match_eq_head? : ∀ (atom : RegexAtom) (s : Text), atom.Keeps context s →
    matchOne context atom s = (atom.ends context s).head?
  | .beginningOfLine, s, _ => by
    rw [matchOne, RegexAtom.ends]
    split_ifs <;> rfl
  | .endOfLine, s, _ => by
    rw [matchOne, RegexAtom.ends]
    split_ifs <;> rfl
  | .any, s, _ => by
    rw [matchOne, RegexAtom.ends, Option.head?_toList]
  | .character c, s, _ => by
    rw [matchOne, RegexAtom.ends, Option.head?_toList]
  | .bracket isNegated set, s, _ => by
    rw [matchOne, RegexAtom.ends, Option.head?_toList]
  | .group alternation, s, h => alternation.match_eq_head? s h

theorem RegexSequence.match_eq_head? : ∀ (sequence : RegexSequence) (s : Text),
    sequence.Keeps context s → matchSequence context sequence s = (sequence.ends context s).head?
  | .nil, s, _ => rfl
  | .cons atom minimumRepeat maximumRepeat rest, s, h => by
    obtain ⟨hatom, hrest, hfst⟩ := h
    rw [matchSequence, RegexSequence.ends, head?_flatMap_eq, findSome?_head?, ← hfst,
      ← findSome?_head?, choices_congr fun u hu => atom.match_eq_head? u (hatom u hu)]
    exact findSome?_congr fun u hu => rest.match_eq_head? u (hrest u hu)

theorem RegexAlternation.match_eq_head? : ∀ (alternation : RegexAlternation) (s : Text),
    alternation.Keeps context s →
      matchAlternation context alternation s = (alternation.ends context s).head?
  | .last sequence, s, h => sequence.match_eq_head? s h
  | .cons sequence rest, s, h => by
    rw [matchAlternation, RegexAlternation.ends, sequence.match_eq_head? s h.1]
    cases hends : sequence.ends context s with
    | nil => exact rest.match_eq_head? s (h.2 hends)
    | cons t ends => rfl

end

/-! ### The search -/

section Search

variable {root : RegexAlternation}

theorem IsBoundary.length_le {text s : Text} (h : IsBoundary text s) : s.length ≤ text.length := by
  induction h with
  | refl => exact le_rfl
  | tail _ hstep ih => exact (hstep.2 ▸ behind_suffix _).length_le.trans ih

theorem isBoundary_iff {text s : Text} :
    IsBoundary text s ↔ s = text ∨ text ≠ [] ∧ IsBoundary (behindCharacter text) s := by
  rw [IsBoundary, Relation.ReflTransGen.cases_head_iff]
  refine or_congr eq_comm ⟨?_, fun h => ⟨_, ⟨h.1, rfl⟩, h.2⟩⟩
  rintro ⟨u, ⟨htext, rfl⟩, hrest⟩
  exact ⟨htext, hrest⟩

theorem executeLoop_spec (start : Text)
    (hkp : ∀ s, root.IsLeftmost context start s → root.Keeps context s) :
    (executeLoop context root start = none → ∀ s, IsBoundary start s → ¬ root.MatchesAt context s) ∧
    ∀ found, executeLoop context root start = some found →
      root.IsLeftmost context start found.1 := by
  induction hlen : start.length using Nat.strong_induction_on generalizing start with
  | _ n ih =>
    rw [executeLoop]
    cases hmat : matchAlternation context root start with
    | some stop =>
      refine ⟨fun h => absurd h (by simp), fun found h => ?_⟩
      obtain rfl : (start, stop) = found := Option.some.inj h
      exact ⟨.refl, ⟨stop, root.denotes_of_match start stop hmat⟩, fun s' hs' _ => hs'.length_le⟩
    | none =>
      -- Otherwise the start would be the leftmost match, and found.
      have hst : ¬ root.MatchesAt context start := by
        rintro ⟨t, ht⟩
        have hleft : root.IsLeftmost context start start :=
          ⟨.refl, ⟨t, ht⟩, fun s' hs' _ => hs'.length_le⟩
        rw [root.match_eq_head? start (hkp start hleft), List.head?_eq_none_iff] at hmat
        exact List.not_mem_nil (hmat ▸ (root.mem_ends_iff start t).mpr ht)
      simp only
      split_ifs with hend
      · refine ⟨fun _ s hs => ?_, fun found h => absurd h (by simp)⟩
        rcases isBoundary_iff.mp hs with rfl | ⟨hne, -⟩
        · exact hst
        · exact absurd hend hne
      · have hless : (behindCharacter start).length < n := by
          have h := length_behind_le start
          have hpos := List.length_pos_iff.mpr hend
          omega
        have hleft : ∀ s, root.IsLeftmost context (behindCharacter start) s →
            root.IsLeftmost context start s := by
          rintro s ⟨hs, hmatches, hfst⟩
          refine ⟨isBoundary_iff.mpr (.inr ⟨hend, hs⟩), hmatches, fun s' hs' hmatches' => ?_⟩
          rcases isBoundary_iff.mp hs' with rfl | ⟨-, hs'⟩
          · exact absurd hmatches' hst
          · exact hfst s' hs' hmatches'
        obtain ⟨hnone, hsome⟩ := ih _ hless (behindCharacter start)
          (fun s hs => hkp s (hleft s hs)) rfl
        refine ⟨fun h s hs => ?_, fun found h => hleft _ (hsome found h)⟩
        rcases isBoundary_iff.mp hs with rfl | ⟨-, hs⟩
        · exact hst
        · exact hnone h s hs

end Search

/-! ### Steps of the parser -/

def AtomParses (cursor : Text) (atom : RegexAtom) (minimum : ℕ) (maximum : ℤ) (rest : Text) : Prop :=
  ∃ h, parseAtom cursor = .ok (some (atom, minimum, maximum, ⟨rest, h⟩))

def SequenceParses (cursor : Text) (sequence : RegexSequence) (rest : Text) : Prop :=
  ∃ h, parseSequence cursor = .ok (sequence, ⟨rest, h⟩)

def AlternationParses (cursor : Text) (alternation : RegexAlternation) (rest : Text) : Prop :=
  ∃ h, parseAlternation cursor = .ok (alternation, ⟨rest, h⟩)

variable {cursor rest : Text}

theorem quantified_once {atom : RegexAtom} (h : rest.length < cursor.length)
    (hrest : byteAt rest 0 ∉ bytes "*+?\x7b") :
    quantified cursor atom rest h = .ok (some (atom, 1, 1, ⟨rest, h⟩)) := by
  have hquantifier : parseQuantifier rest = .ok (1, 1, ⟨rest, le_rfl⟩) := by
    have hne : ∀ c ∈ bytes "*+?\x7b", byteAt rest 0 ≠ c := fun c hc heq => hrest (heq ▸ hc)
    rw [parseQuantifier, if_neg (hne _ (by decide)), if_neg (hne _ (by decide)),
      if_neg (hne _ (by decide)), if_neg (hne _ (by decide))]
  rw [quantified, hquantifier]

theorem regexDecode_char {s : Text} (hs : Utf8Char s) (r : Text) :
    regexDecode (s ++ r) = (utf8Value s, s.length) := by
  have hlen : s.length ≤ 4 := by cases hs <;> simp
  rw [regexDecode, List.take_append, List.take_of_length_le hlen, utf8Decode_char hs]

theorem behind_char {s : Text} (hs : Utf8Char s) (r : Text) : behindCharacter (s ++ r) = r := by
  rw [behindCharacter, regexDecode_char hs, List.drop_left]

theorem atomParses_char {s rest : Text} (hs : Utf8Char s)
    (hspec : byteAt s 0 ∉ bytes "|)([.^$\\") (hrest : byteAt rest 0 ∉ bytes "*+?\x7b") :
    AtomParses (s ++ rest) (.character (utf8Value s)) 1 1 rest := by
  obtain ⟨c, t, rfl⟩ := List.exists_cons_of_ne_nil hs.ne_nil
  have hne : ∀ e ∈ bytes "|)([.^$\\", byteAt (c :: t ++ rest) 0 ≠ e := by
    rintro e he rfl
    exact hspec he
  refine ⟨by simp, ?_⟩
  rw [parseAtom, dif_neg (by simpa using ⟨hne _ (by decide), hne _ (by decide)⟩)]
  simp only
  rw [if_neg (hne _ (by decide)), if_neg (hne _ (by decide)), if_neg (hne _ (by decide)),
    if_neg (hne _ (by decide)), if_neg (hne _ (by decide)), if_neg fun h => hne _ (by decide) h.1]
  simp only [behind_char hs, regexDecode_char hs]
  exact quantified_once _ hrest

theorem atomParses_character {c : UInt8} {rest : Text} (hc : c < 0x80)
    (hspec : c ∉ bytes "|)([.^$\\") (hrest : byteAt rest 0 ∉ bytes "*+?\x7b") :
    AtomParses (c :: rest) (.character c.toNat) 1 1 rest := atomParses_char (.one hc) hspec hrest

theorem sequenceParses_nil {cursor : Text}
    (h : cursor = [] ∨ byteAt cursor 0 = byte '|' ∨ byteAt cursor 0 = byte ')') :
    SequenceParses cursor .nil cursor := by
  refine ⟨le_rfl, ?_⟩
  rw [parseSequence, parseAtom, dif_pos h]

theorem SequenceParses.cons {cursor rest behind : Text} {atom : RegexAtom} {minimum : ℕ}
    {maximum : ℤ} {sequence : RegexSequence} (hatom : AtomParses cursor atom minimum maximum rest)
    (hseq : SequenceParses rest sequence behind) :
    SequenceParses cursor (.cons atom minimum maximum sequence) behind := by
  obtain ⟨hrest, hatom⟩ := hatom
  obtain ⟨hbeh, hseq⟩ := hseq
  refine ⟨hbeh.trans hrest.le, ?_⟩
  rw [parseSequence, hatom]
  simp only [hseq]

theorem SequenceParses.last {sequence : RegexSequence}
    (h : SequenceParses cursor sequence rest) (hrest : byteAt rest 0 ≠ byte '|') :
    AlternationParses cursor (.last sequence) rest := by
  obtain ⟨hlen, h⟩ := h
  refine ⟨hlen, ?_⟩
  rw [parseAlternation, h]
  simp only
  rw [dif_neg hrest]

theorem AlternationParses.cons {cursor rest behind : Text} {sequence : RegexSequence}
    {alternation : RegexAlternation} (hseq : SequenceParses cursor sequence (byte '|' :: rest))
    (h : AlternationParses rest alternation behind) :
    AlternationParses cursor (.cons sequence alternation) behind := by
  obtain ⟨hlen, hseq⟩ := hseq
  obtain ⟨hbeh, h⟩ := h
  rw [List.length_cons] at hlen
  refine ⟨by omega, ?_⟩
  rw [parseAlternation, hseq]
  simp only
  have hnext : parseAlternation ((byte '|' :: rest).drop 1) = .ok (alternation, ⟨behind, hbeh⟩) := h
  rw [dif_pos (byteAt_zero _ _), hnext]

theorem AlternationParses.group {alternation : RegexAlternation}
    (h : AlternationParses cursor alternation (byte ')' :: rest))
    (hrest : byteAt rest 0 ∉ bytes "*+?\x7b") :
    AtomParses (byte '(' :: cursor) (.group alternation) 1 1 rest := by
  obtain ⟨hgrp, h⟩ := h
  have hlen := hgrp
  rw [List.length_cons] at hlen
  refine ⟨by rw [List.length_cons]; omega, ?_⟩
  rw [parseAtom, dif_neg (not_or.mpr ⟨List.cons_ne_nil _ _, by rw [byteAt_zero]; decide⟩)]
  simp only
  have hnext : parseAlternation ((byte '(' :: cursor).drop 1) =
      .ok (alternation, ⟨byte ')' :: rest, hgrp⟩) := h
  rw [if_pos (byteAt_zero _ _), hnext]
  simp only
  rw [if_pos (byteAt_zero _ _)]
  exact quantified_once _ hrest

theorem AlternationParses.compile {pattern : Text} {alternation : RegexAlternation}
    (h : AlternationParses pattern alternation []) : regexEngineCompile pattern = .ok alternation := by
  obtain ⟨hlen, h⟩ := h
  rw [regexEngineCompile, h]
  rfl

/-- `(a|ab)c`. -/
def keptPattern : RegexAlternation := .last (.cons (.group (.cons (.cons (.character 97) 1 1 .nil)
    (.last (.cons (.character 97) 1 1 (.cons (.character 98) 1 1 .nil))))) 1 1
      (.cons (.character 99) 1 1 .nil))

theorem regexEngineCompile_keptPattern :
    regexEngineCompile (bytes "(a|ab)c") = .ok keptPattern := by
  have hcl : SequenceParses (bytes ")c") .nil (bytes ")c") := sequenceParses_nil (.inr (.inr rfl))
  have hlong : SequenceParses (bytes "ab)c") _ (bytes ")c") :=
    .cons (atomParses_character (by decide) (by decide) (by decide))
      (.cons (atomParses_character (by decide) (by decide) (by decide)) hcl)
  have hsho : SequenceParses (bytes "a|ab)c") _ (bytes "|ab)c") :=
    .cons (atomParses_character (by decide) (by decide) (by decide))
      (sequenceParses_nil (.inr (.inl rfl)))
  have hgrp : AtomParses (bytes "(a|ab)c") _ 1 1 (bytes "c") :=
    (AlternationParses.cons hsho (hlong.last (by decide))).group (by decide)
  have hend : SequenceParses (bytes "c") _ [] :=
    .cons (atomParses_character (by decide) (by decide) (by decide))
      (sequenceParses_nil (.inl rfl))
  exact ((SequenceParses.cons hgrp hend).last (by decide)).compile

end Grayscale.Regex
