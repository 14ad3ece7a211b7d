import Mathlib.Algebra.BigOperators.Group.List.Basic
import Mathlib.Algebra.Ring.Nat
import Mathlib.Data.Nat.Find

/-!
# First occurrences

The first occurrence of a list inside another one, in a text that arrives piece by piece, and the
pieces between the occurrences of a separator.
-/

namespace Grayscale

open List

variable {α : Type}

def FirstSplit (needle text before after : List α) : Prop := text = before ++ needle ++ after ∧
    ∀ before' after', text = before' ++ needle ++ after' → before.length ≤ before'.length

namespace FirstSplit

variable {needle text before after : List α}

theorem length_le (h : FirstSplit needle text before after) :
    before.length + needle.length ≤ text.length := by
  rw [h.1, length_append, length_append]
  omega

theorem eq_of_split {before' after' : List α} (h : FirstSplit needle text before after)
    (h' : FirstSplit needle text before' after') : before = before' := by
  have hlen : before.length = before'.length := le_antisymm (h.2 _ _ h'.1) (h'.2 _ _ h.1)
  have heq := h.1.symm.trans h'.1
  rw [append_assoc, append_assoc] at heq
  exact (List.append_inj heq hlen).1

theorem append (h : FirstSplit needle text before after) (more : List α) :
    FirstSplit needle (text ++ more) before (after ++ more) := by
  refine ⟨by rw [h.1, append_assoc _ after], fun before' after' heq => ?_⟩
  by_contra hlt
  have hlen := h.length_le
  -- An earlier occurrence ends inside of the text, hence is one of the text.
  have hpre : before' ++ needle <+: text := by
    refine prefix_of_prefix_length_le ⟨after', heq.symm⟩ (prefix_append text more) ?_
    rw [length_append]
    omega
  obtain ⟨after'', htext⟩ := hpre
  exact hlt (h.2 before' after'' htext.symm)

theorem take (h : FirstSplit needle text before after) {m : ℕ}
    (hm : before.length + needle.length ≤ m) :
    FirstSplit needle (text.take m) before (after.take (m - (before.length + needle.length))) := by
  refine ⟨?_, fun before' after' heq => ?_⟩
  · rw [h.1, take_append, length_append, take_of_length_le
      (by rw [length_append]; exact hm)]
  · refine h.2 before' (after' ++ text.drop m) ?_
    rw [← append_assoc, ← heq, take_append_drop]

end FirstSplit

theorem exists_firstSplit {needle text : List α} (h : needle <:+: text) :
    ∃ before after, FirstSplit needle text before after := by
  classical
  have hlen : ∃ n before after, text = before ++ needle ++ after ∧ before.length = n := by
    obtain ⟨before, after, heq⟩ := h
    exact ⟨_, before, after, heq.symm, rfl⟩
  obtain ⟨before, after, heq, hfind⟩ := Nat.find_spec hlen
  refine ⟨before, after, heq, fun before' after' heq' => ?_⟩
  rw [hfind]
  exact Nat.find_min' hlen ⟨before', after', heq', rfl⟩

section Index

variable [DecidableEq α] {needle text before after : List α}

def firstIndex (needle text : List α) : Option ℕ :=
  (text.dropInfix? needle).map fun split => split.1.length

theorem firstIndex_eq_some_iff {i : ℕ} : firstIndex needle text = some i ↔
    ∃ before after, FirstSplit needle text before after ∧ before.length = i := by
  simp only [firstIndex, Option.map_eq_some_iff, Prod.exists, dropInfix?_eq_some_iff,
    beq_iff_eq, exists_eq_right, FirstSplit, ge_iff_le]
  refine exists_congr fun before => exists_congr fun after => and_congr_left fun _ =>
    and_congr_right fun _ => ?_
  exact ⟨fun h before' after' heq => h before' needle after' heq rfl,
    fun h before' inner' after' heq hinn => h before' after' (hinn ▸ heq)⟩

theorem FirstSplit.firstIndex_eq (h : FirstSplit needle text before after) :
    firstIndex needle text = some before.length := firstIndex_eq_some_iff.mpr ⟨_, _, h, rfl⟩

theorem firstIndex_eq_none_iff : firstIndex needle text = none ↔ ¬ needle <:+: text := by
  rw [← not_iff_not, not_not, ← ne_eq, Option.ne_none_iff_exists']
  constructor
  · rintro ⟨i, hi⟩
    obtain ⟨before, after, h, -⟩ := firstIndex_eq_some_iff.mp hi
    exact ⟨before, after, h.1.symm⟩
  · rintro ⟨before, after, heq⟩
    obtain ⟨before', after', h⟩ := exists_firstSplit ⟨before, after, heq⟩
    exact ⟨_, h.firstIndex_eq⟩

theorem firstSplit_of_firstIndex {i : ℕ} (h : firstIndex needle text = some i) :
    FirstSplit needle text (text.take i) (text.drop (i + needle.length)) := by
  obtain ⟨before, after, hspl, rfl⟩ := firstIndex_eq_some_iff.mp h
  have htake : text.take before.length = before := by
    rw [hspl.1, append_assoc, take_left]
  have hdrop : text.drop (before.length + needle.length) = after := by
    rw [hspl.1, drop_left' (by rw [length_append])]
  rw [htake, hdrop]
  exact hspl

theorem firstIndex_eq_some_iff_starts (hne : needle ≠ []) {i : ℕ} :
    firstIndex needle text = some i ↔
      needle <+: text.drop i ∧ ∀ j, needle <+: text.drop j → i ≤ j := by
  rw [firstIndex_eq_some_iff]
  constructor
  · rintro ⟨before, after, h, rfl⟩
    refine ⟨⟨after, ?_⟩, fun j hj => ?_⟩
    · rw [h.1, append_assoc, drop_left]
    · obtain ⟨after', haft'⟩ := hj
      have hle := h.2 (text.take j) after'
        (by rw [append_assoc, haft', take_append_drop])
      exact Nat.le_trans hle (length_take_le _ _)
  · rintro ⟨⟨after, haft⟩, hleast⟩
    have hle : i ≤ text.length := by
      by_contra hlt
      rw [drop_eq_nil_of_le (by omega)] at haft
      exact hne (append_eq_nil_iff.mp haft).1
    refine ⟨text.take i, after, ⟨?_, fun before' after' heq => ?_⟩, length_take_of_le hle⟩
    · rw [append_assoc, haft, take_append_drop]
    · rw [length_take_of_le hle]
      refine hleast _ ⟨after', ?_⟩
      rw [heq, append_assoc, drop_left]

theorem firstIndex_eq_none_of_append {more : List α} (h : firstIndex needle (text ++ more) = none) :
    firstIndex needle text = none := by
  rw [firstIndex_eq_none_iff] at h ⊢
  exact fun hocc => h (hocc.trans (prefix_append text more).isInfix)

end Index

/-! ### Splitting -/

section Splitting

variable {α : Type} [DecidableEq α] {separator : List α}

/-- The pieces of a text that is cut at most `n` times. -/
@[grind =] def splitUpTo (separator : List α) : ℕ → List α → List (List α)
  | 0, text => [text]
  | n + 1, text =>
    match firstIndex separator text with
    | none => [text]
    | some i => text.take i :: splitUpTo separator n (text.drop (i + separator.length))

/-- The pieces of a text that is cut at every occurrence. -/
def splitPieces (separator text : List α) : List (List α) := splitUpTo separator text.length text

theorem splitUpTo_ne_nil (separator : List α) (n : ℕ) (text : List α) : splitUpTo separator n text ≠ [] := by
  cases n with
  | zero => exact cons_ne_nil _ _
  | succ n =>
    rw [splitUpTo]
    cases firstIndex separator text with
    | none => exact cons_ne_nil _ _
    | some i => exact cons_ne_nil _ _

theorem intercalate_splitUpTo (separator : List α) (n : ℕ) (text : List α) :
    separator.intercalate (splitUpTo separator n text) = text := by
  induction n generalizing text with
  | zero => exact intercalate_singleton
  | succ n ih =>
    rw [splitUpTo]
    cases h : firstIndex separator text with
    | none => exact intercalate_singleton
    | some i =>
      have hspl := (firstSplit_of_firstIndex h).1
      simp only
      rw [intercalate_cons_of_ne_nil (splitUpTo_ne_nil _ n _), ih]
      exact hspl.symm

theorem intercalate_pieces (separator text : List α) :
    separator.intercalate (splitPieces separator text) = text := intercalate_splitUpTo _ _ _

theorem length_drop_lt (hne : separator ≠ []) {text : List α} {i : ℕ}
    (h : firstIndex separator text = some i) :
    (text.drop (i + separator.length)).length < text.length := by
  obtain ⟨before, after, hspl, rfl⟩ := firstIndex_eq_some_iff.mp h
  have hle := hspl.length_le
  have hpos := length_pos_of_ne_nil hne
  rw [length_drop]
  omega

theorem splitUpTo_of_le (hne : separator ≠ []) {m n : ℕ} {text : List α} (hm : text.length ≤ m)
    (hn : text.length ≤ n) : splitUpTo separator m text = splitUpTo separator n text := by
  induction m generalizing n text with
  | zero =>
    obtain rfl := eq_nil_of_length_eq_zero (Nat.le_zero.mp hm)
    cases n with
    | zero => rfl
    | succ n =>
      have hnone : firstIndex separator ([] : List α) = none :=
        firstIndex_eq_none_iff.mpr fun h => hne (infix_nil.mp h)
      rw [splitUpTo, splitUpTo, hnone]
  | succ m ih =>
    cases hidx : firstIndex separator text with
    | none =>
      cases n with
      | zero => simp only [splitUpTo, hidx]
      | succ n => simp only [splitUpTo, hidx]
    | some i =>
      have hlt := length_drop_lt hne hidx
      cases n with
      | zero => omega
      | succ n =>
        simp only [splitUpTo, hidx]
        rw [ih (by omega) (by omega : _ ≤ n)]

theorem pieces_of_none {text : List α} (h : firstIndex separator text = none) :
    splitPieces separator text = [text] := by
  rw [splitPieces]
  cases text.length with
  | zero => rfl
  | succ n => rw [splitUpTo, h]

theorem pieces_of_some (hne : separator ≠ []) {text : List α} {i : ℕ}
    (h : firstIndex separator text = some i) : splitPieces separator text =
      text.take i :: splitPieces separator (text.drop (i + separator.length)) := by
  have hlt := length_drop_lt hne h
  obtain ⟨n, hn⟩ := Nat.exists_eq_add_one_of_ne_zero (Nat.ne_zero_of_lt hlt)
  rw [splitPieces, hn, splitUpTo, h]
  simp only
  rw [splitPieces, splitUpTo_of_le hne (by omega : _ ≤ n) le_rfl]

theorem pieces_ne_nil (separator text : List α) : splitPieces separator text ≠ [] :=
  splitUpTo_ne_nil _ _ _

theorem length_splitUpTo (hne : separator ≠ []) (n : ℕ) (text : List α) :
    (splitUpTo separator n text).length = min (n + 1) (splitPieces separator text).length := by
  induction n generalizing text with
  | zero =>
    have hpos := length_pos_of_ne_nil (pieces_ne_nil separator text)
    rw [splitUpTo, length_singleton]
    omega
  | succ n ih =>
    cases h : firstIndex separator text with
    | none =>
      rw [pieces_of_none h, splitUpTo, h, length_singleton]
      omega
    | some i =>
      rw [pieces_of_some hne h, splitUpTo, h, length_cons, length_cons, ih]
      omega

omit [DecidableEq α] in
theorem length_intercalate_cons (separator piece : List α) (pieces : List (List α)) :
    (separator.intercalate (piece :: pieces)).length =
      piece.length + (pieces.map fun piece => separator.length + piece.length).sum := by
  induction pieces generalizing piece with
  | nil => rw [intercalate_singleton, map_nil, sum_nil, Nat.add_zero]
  | cons next pieces ih =>
    rw [intercalate_cons_cons, length_append, length_append, ih, map_cons, sum_cons]
    omega

end Splitting

end Grayscale
