import Grayscale.Stdlib.Strings

/-!
# The loops of the regex module

`regex_find_all_compiled`, `regex_replace_compiled`, `regex_split_compiled` and the loops of
`gray_regex_count_result` and `gray_regex_find_all_groups` of `stdlib/regex.c`, over any function
that searches a text.
-/

namespace Grayscale

open List

/-! ### The functions -/

/-- A match: the span of the whole and those of the groups, `none` for a group that did not take
part. -/
structure RegexMatch where
  start : ℕ
  stop : ℕ
  groups : List (Option (ℕ × ℕ))
  deriving DecidableEq

/-- A compiled pattern: what it matches in a text that may be behind the start of the whole text. -/
structure RegexSearch where
  execute : Text → Bool → Option RegexMatch
  /-- A match does not end in front of its start. -/
  start_le : ∀ text isAfterStart found,
    execute text isAfterStart = some found → found.start ≤ found.stop
  /-- It ends in the text. -/
  stop_le : ∀ text isAfterStart found,
    execute text isAfterStart = some found → found.stop ≤ text.length

/-- The loop of `regex_text_buffer`, which replaces every invalid byte by ASCII SUB. -/
def regexTextLoop (text : Text) : Text :=
  if _h : text = [] then []
  else
    let length := (grayUtf8Decode text).2
    (if (grayUtf8Decode text).1 = 0xFFFD ∧ length = 1 then [0x1A] else text.take length) ++
      regexTextLoop (text.drop length)
termination_by text.length
decreasing_by
  have hpos := utf8Decode_pos text
  have := length_pos_of_ne_nil _h
  rw [length_drop]
  omega

/-- `regex_text_buffer`, without the NUL at its end. -/
def regexTextBuffer (text : Text) : Except StringFailure Text :=
  if text.contains 0 then .error (.panic "P0146") else .ok (regexTextLoop text)

def regexNextCharacter (buffer : Text) (cursor : ℕ) : ℕ :=
  cursor + (grayUtf8Decode ((buffer.drop cursor).take 4)).2

theorem regexNextCharacter_spec {buffer : Text} {cursor : ℕ} (h : cursor < buffer.length) :
    cursor < regexNextCharacter buffer cursor ∧
      regexNextCharacter buffer cursor ≤ buffer.length := by
  have hpos := utf8Decode_pos ((buffer.drop cursor).take 4)
  have hne : (buffer.drop cursor).take 4 ≠ [] := by
    refine ne_nil_of_length_pos ?_
    rw [length_take, length_drop]
    omega
  have hle := utf8Decode_le hne
  rw [length_take, length_drop] at hle
  rw [regexNextCharacter]
  omega

/-- The loop over the matches in a buffer. A search goes on behind the match before it; behind an
empty match it goes on one character further, if there is one. `body` gets a match, with the place
from which it was searched, and `skip` the character that is stepped over. -/
def forSpans {m : Type → Type} [Monad m] {σ : Type} (search : RegexSearch) (buffer : Text)
    (body : σ → ℕ → RegexMatch → m σ) (skip : σ → ℕ → ℕ → m σ) (cursor : ℕ) (state : σ) :
    m (σ × ℕ) :=
  match _h : search.execute (buffer.drop cursor) (cursor != 0) with
  | none => pure (state, cursor)
  | some found => do
    let state ← body state cursor found
    if _hempty : found.start = found.stop then
      if _hnext : cursor + found.stop < buffer.length then
        let next := regexNextCharacter buffer (cursor + found.stop)
        let state ← skip state (cursor + found.stop) next
        forSpans search buffer body skip next state
      else pure (state, cursor + found.stop)
    else forSpans search buffer body skip (cursor + found.stop) state
termination_by buffer.length - cursor
decreasing_by
  · have hnext := (regexNextCharacter_spec _hnext).1
    have hstop := search.stop_le _ _ _ _h
    rw [length_drop] at hstop
    omega
  · have hstart := search.start_le _ _ _ _h
    have hstop := search.stop_le _ _ _ _h
    rw [length_drop] at hstop
    omega

/-- `regex_find_all_compiled`. -/
def regexFindAll (search : RegexSearch) (text : Text) : Except StringFailure (List Text) := do
  let buffer ← regexTextBuffer text
  let (array, _) ← forSpans search buffer (fun array cursor found =>
    arrayPush array (slice text (cursor + found.start) (cursor + found.stop)))
    (fun array _ _ => pure array) 0 []
  pure array

/-- The loop of `gray_regex_count_result`. -/
def regexCount (search : RegexSearch) (text : Text) : Except StringFailure ℕ := do
  let buffer ← regexTextBuffer text
  let (count, _) ← forSpans search buffer (fun count _ _ => pure (count + 1))
    (fun count _ _ => pure count) 0 0
  pure count

def regexGroupsOfMatch (base : Text) (found : RegexMatch) : List Text :=
  (some (found.start, found.stop) :: found.groups).map fun group =>
    group.elim [] fun span => slice base span.1 span.2

/-- The loop of `gray_regex_find_all_groups`. -/
def regexFindAllGroups (search : RegexSearch) (text : Text) :
    Except StringFailure (List (List Text)) := do
  let buffer ← regexTextBuffer text
  let (outer, _) ← forSpans search buffer (fun outer cursor found =>
    arrayPush outer (regexGroupsOfMatch (text.drop cursor) found))
    (fun outer _ _ => pure outer) 0 []
  pure outer

/-- A pass of `regex_replace_compiled`: `emit` takes a range of the text, and `mark` the
replacement. -/
def replacePass {m : Type → Type} [Monad m] {σ : Type} (search : RegexSearch) (buffer : Text)
    (emit : σ → ℕ → ℕ → m σ) (mark : σ → m σ) (state : σ) : m σ := do
  let (state, cursor) ← forSpans search buffer (fun state cursor found => do
    let state ← emit state cursor (cursor + found.start)
    mark state) emit 0 state
  emit state cursor buffer.length

/-- The bytes that are copied behind a result, whose position is an `int`. -/
def regexWrite (result bytes : Text) : Except StringFailure Text :=
  if result.length + bytes.length < 2 ^ 31 then .ok (result ++ bytes) else .error .overflow

/-- `regex_replace_compiled`. The first pass has the size and, as an `int`, the number of the
matches. -/
def regexReplace (search : RegexSearch) (text replacement : Text) : Except StringFailure Built := do
  let buffer ← regexTextBuffer text
  let sizes ← replacePass search buffer
    (fun sizes start stop => pure (sizes.1 + (stop - start), sizes.2))
    (fun sizes => if sizes.2 + 1 < 2 ^ 31 then pure (sizes.1 + replacement.length, sizes.2 + 1)
      else .error .overflow) (0, 0)
  if sizes.2 = 0 then pure ⟨none, text⟩
  else do
    let result ← replacePass search buffer
      (fun result start stop => regexWrite result (slice text start stop))
      (fun result => regexWrite result replacement) []
    pure ⟨some (sizes.1 + 1), result⟩

/-- `regex_split_compiled`. -/
def regexSplit (search : RegexSearch) (text : Text) : Except StringFailure (List Text) := do
  let buffer ← regexTextBuffer text
  let ((array, pieceStart), _) ← forSpans search buffer (fun (array, pieceStart) cursor found =>
    if found.start = found.stop then pure (array, pieceStart)
    else do
      let array ← arrayPush array (slice text pieceStart (cursor + found.start))
      pure (array, cursor + found.stop))
    (fun state _ _ => pure state) 0 ([], 0)
  arrayPush array (text.drop pieceStart)

/-! ### The matches -/

/-- The matches that a loop meets, each with the place from which it was searched. -/
def regexMatches (search : RegexSearch) (buffer : Text) (cursor : ℕ) : List (ℕ × RegexMatch) :=
  match _h : search.execute (buffer.drop cursor) (cursor != 0) with
  | none => []
  | some found =>
    (cursor, found) ::
      if _hempty : found.start = found.stop then
        if _hnext : cursor + found.stop < buffer.length then
          regexMatches search buffer (regexNextCharacter buffer (cursor + found.stop))
        else []
      else regexMatches search buffer (cursor + found.stop)
termination_by buffer.length - cursor
decreasing_by
  · have hnext := (regexNextCharacter_spec _hnext).1
    have hstop := search.stop_le _ _ _ _h
    rw [length_drop] at hstop
    omega
  · have hstart := search.start_le _ _ _ _h
    have hstop := search.stop_le _ _ _ _h
    rw [length_drop] at hstop
    omega

def matchSpan (place : ℕ × RegexMatch) : ℕ × ℕ := (place.1 + place.2.start, place.1 + place.2.stop)

/-- The spans of the matches in a text, in the order in which they are reported. -/
def regexSpans (search : RegexSearch) (text : Text) : List (ℕ × ℕ) :=
  (regexMatches search (regexTextLoop text) 0).map matchSpan

theorem length_regexTextLoop (text : Text) : (regexTextLoop text).length = text.length := by
  fun_induction regexTextLoop text with
  | case1 => rfl
  | case2 text h length ih =>
    have hle : length ≤ text.length := utf8Decode_le h
    rw [length_append, ih, length_drop]
    split_ifs with hinvalid
    · rw [length_singleton]
      omega
    · rw [length_take]
      omega

theorem spansWithin_regexMatches (search : RegexSearch) (buffer : Text) {cursor : ℕ}
    (hcur : cursor ≤ buffer.length) :
    SpansWithin buffer.length cursor ((regexMatches search buffer cursor).map matchSpan) := by
  fun_induction regexMatches search buffer cursor with
  | case1 cursor h => exact hcur
  | case2 cursor found h hrest ih =>
    have hst := search.start_le _ _ _ h
    have hstop := search.stop_le _ _ _ h
    rw [length_drop] at hstop
    rw [map_cons]
    refine ⟨Nat.le_add_right _ _, Nat.add_le_add_left hst _, ?_⟩
    change SpansWithin buffer.length (cursor + found.stop) _
    split_ifs with hemp hlt
    · have hnext := regexNextCharacter_spec hlt
      exact (hrest hemp hlt hnext.2).mono hnext.1.le
    · exact (by omega : cursor + found.stop ≤ buffer.length)
    · exact ih hemp (by omega)

variable {m : Type → Type}

theorem forSpans_eq [Monad m] [LawfulMonad m] {σ : Type} (search : RegexSearch)
    (buffer : Text) (body : σ → ℕ → RegexMatch → m σ) (cursor : ℕ) (state : σ) :
    (forSpans search buffer body (fun state _ _ => pure state) cursor state >>= fun result =>
      pure result.1) =
        (regexMatches search buffer cursor).foldlM (fun state place => body state place.1 place.2)
          state := by
  induction cursor using regexMatches.induct search buffer generalizing state with
  | case1 cursor h => rw [forSpans, regexMatches, h]; simp
  | case2 cursor found h hrest ih =>
    rw [forSpans, regexMatches, h]
    simp only [bind_assoc, foldlM_cons]
    congr 1
    funext state
    split_ifs with hemp hlt
    · rw [pure_bind]
      exact hrest hemp hlt state
    · simp
    · exact ih hemp state

/-- The ranges between spans, with a mark for each span. -/
def replaySpans {m : Type → Type} [Monad m] {σ : Type} (emit : σ → ℕ → ℕ → m σ) (mark : σ → m σ)
    (length : ℕ) : ℕ → List (ℕ × ℕ) → σ → m σ
  | place, [], state => emit state place length
  | place, span :: spans, state => do
    let state ← emit state place span.1
    let state ← mark state
    replaySpans emit mark length span.2 spans state

theorem emit_replaySpans [Monad m] [LawfulMonad m] {σ : Type}
    {emit : σ → ℕ → ℕ → m σ} {mark : σ → m σ} {length : ℕ}
    (hemit : ∀ state {start middle stop}, start ≤ middle → middle ≤ stop → stop ≤ length →
      (emit state start middle >>= fun state => emit state middle stop) = emit state start stop)
    {place next : ℕ} {spans : List (ℕ × ℕ)} (hle : place ≤ next)
    (hwith : SpansWithin length next spans) (state : σ) :
    (emit state place next >>= fun state => replaySpans emit mark length next spans state) =
      replaySpans emit mark length place spans state := by
  cases spans with
  | nil => exact hemit state hle hwith le_rfl
  | cons span spans =>
    rw [replaySpans, ← hemit state hle hwith.1 (hwith.2.1.trans hwith.2.2.le), bind_assoc]
    rfl

theorem replacePass_eq [Monad m] [LawfulMonad m] {σ : Type} (search : RegexSearch)
    (buffer : Text) (emit : σ → ℕ → ℕ → m σ) (mark : σ → m σ)
    (hemit : ∀ state {start middle stop}, start ≤ middle → middle ≤ stop → stop ≤ buffer.length →
      (emit state start middle >>= fun state => emit state middle stop) = emit state start stop)
    (state : σ) : replacePass search buffer emit mark state =
      replaySpans emit mark buffer.length 0 ((regexMatches search buffer 0).map matchSpan)
        state := by
  have hloop (cursor : ℕ) (hcur : cursor ≤ buffer.length) (state : σ) :
      (forSpans search buffer (fun state cursor found => do
          let state ← emit state cursor (cursor + found.start)
          mark state) emit cursor state >>= fun result => emit result.1 result.2 buffer.length) =
        replaySpans emit mark buffer.length cursor
          ((regexMatches search buffer cursor).map matchSpan) state := by
    induction cursor using regexMatches.induct search buffer generalizing state with
    | case1 cursor h => rw [forSpans, regexMatches, h]; simp [replaySpans]
    | case2 cursor found h hrest ih =>
      have hstop := search.stop_le _ _ _ h
      rw [length_drop] at hstop
      rw [forSpans, regexMatches, h]
      simp only [bind_assoc, map_cons, replaySpans, matchSpan]
      congr 1
      funext state
      congr 1
      funext state
      split_ifs with hemp hlt
      · have hnext := regexNextCharacter_spec hlt
        rw [← emit_replaySpans hemit hnext.1.le (spansWithin_regexMatches search buffer hnext.2),
          bind_assoc]
        congr 1
        funext state
        exact hrest hemp hlt hnext.2 state
      · simp [replaySpans]
      · exact ih hemp (by omega) state
  exact hloop 0 (Nat.zero_le _) state

/-! ### The passes of a replacement -/

theorem regexWrite_bind (result first second : Text) :
    (regexWrite result first >>= fun result => regexWrite result second) =
      regexWrite result (first ++ second) := by
  rw [regexWrite, regexWrite, length_append]
  by_cases h : result.length + first.length < 2 ^ 31
  · rw [if_pos h]
    change regexWrite (result ++ first) second = _
    rw [regexWrite, length_append, append_assoc, Nat.add_assoc]
  · rw [if_neg h, if_neg (by omega)]
    rfl

theorem replaySpans_write (text replacement : Text) {place : ℕ} {spans : List (ℕ × ℕ)}
    (hwith : SpansWithin text.length place spans) (result : Text) :
    replaySpans (fun result start stop => regexWrite result (slice text start stop))
        (fun result => regexWrite result replacement) text.length place spans result =
      regexWrite result (replacement.intercalate (partsBetween text place spans)) := by
  induction spans generalizing place result with
  | nil => rw [replaySpans, partsBetween, intercalate_singleton, slice_length]
  | cons span spans ih =>
    rw [replaySpans, partsBetween,
      intercalate_cons_of_ne_nil (partsBetween_ne_nil text span.2 spans), append_assoc,
      ← regexWrite_bind]
    congr 1
    funext result
    rw [← regexWrite_bind]
    congr 1
    funext result
    exact ih hwith.2.2 result

theorem replaySpans_size (text replacement : Text) {place : ℕ} {spans : List (ℕ × ℕ)}
    (hwith : SpansWithin text.length place spans) (state : ℕ × ℕ) (hsta : state.2 < 2 ^ 31) :
    replaySpans (m := Except StringFailure)
        (fun state start stop => pure (state.1 + (stop - start), state.2))
        (fun state => if state.2 + 1 < 2 ^ 31 then pure (state.1 + replacement.length, state.2 + 1)
          else .error .overflow) text.length place spans state =
      if state.2 + spans.length < 2 ^ 31 then
        .ok (state.1 + (replacement.intercalate (partsBetween text place spans)).length,
          state.2 + spans.length)
      else .error .overflow := by
  induction spans generalizing place state with
  | nil =>
    rw [replaySpans, partsBetween, intercalate_singleton, length_drop, length_nil,
      Nat.add_zero, if_pos hsta]
    rfl
  | cons span spans ih =>
    have hle := hwith.2.2.le
    rw [replaySpans, pure_bind, partsBetween,
      intercalate_cons_of_ne_nil (partsBetween_ne_nil text span.2 spans), length_append,
      length_append, length_slice (hwith.2.1.trans hle), length_cons]
    by_cases hroom : state.2 + 1 < 2 ^ 31
    · rw [if_pos hroom, pure_bind, ih hwith.2.2 _ hroom]
      simp only [Nat.add_assoc, Nat.add_comm 1]
    · rw [if_neg hroom, if_neg (by omega)]
      rfl

variable {text : Text}

theorem regexTextBuffer_eq (h : text.contains 0 = false) :
    regexTextBuffer text = .ok (regexTextLoop text) := by
  rw [regexTextBuffer, h]
  rfl

theorem spansWithin_regexSpans (search : RegexSearch) (text : Text) :
    SpansWithin text.length 0 (regexSpans search text) :=
  length_regexTextLoop text ▸ spansWithin_regexMatches search (regexTextLoop text) (Nat.zero_le _)

def replacedText (search : RegexSearch) (text replacement : Text) : Text :=
  replacement.intercalate (partsBetween text 0 (regexSpans search text))

variable {search : RegexSearch}

/-- A replacement is the parts with the replacement between them, where its length and the number of
the matches are `int`s. -/
theorem regexReplace_eq (hnul : text.contains 0 = false) (hlen : text.length < 2 ^ 31)
    (replacement : Text) : regexReplace search text replacement =
      if (regexSpans search text).length < 2 ^ 31 ∧
          (replacedText search text replacement).length < 2 ^ 31 then
        .ok ⟨if (regexSpans search text).length = 0 then none
          else some ((replacedText search text replacement).length + 1),
          replacedText search text replacement⟩
      else .error .overflow := by
  have hbuf := length_regexTextLoop text
  have hwith := spansWithin_regexSpans search text
  have hsize := (replacePass_eq (m := Except StringFailure) search (regexTextLoop text)
    (fun sizes start stop => pure (sizes.1 + (stop - start), sizes.2))
    (fun sizes : ℕ × ℕ => if sizes.2 + 1 < 2 ^ 31 then
      pure (sizes.1 + replacement.length, sizes.2 + 1) else .error .overflow)
    (fun sizes start middle stop hmid hstop _ => by
      rw [pure_bind]
      exact congrArg (fun size => pure (size, sizes.2)) (by omega)) (0, 0)).trans
    (hbuf ▸ replaySpans_size text replacement hwith (0, 0) (by decide))
  have hwrite := (replacePass_eq (m := Except StringFailure) search (regexTextLoop text)
    (fun result start stop => regexWrite result (slice text start stop))
    (fun result => regexWrite result replacement)
    (fun result start middle stop hmid hstop _ => by
      rw [regexWrite_bind, slice_append_slice text hmid hstop]) []).trans
    (hbuf ▸ replaySpans_write text replacement hwith [])
  rw [← replacedText, regexWrite, length_nil, Nat.zero_add, nil_append] at hwrite
  rw [← replacedText, Nat.zero_add, Nat.zero_add] at hsize
  rw [regexReplace, regexTextBuffer_eq hnul]
  change ((replacePass search (regexTextLoop text) _ _ _ : Except StringFailure (ℕ × ℕ)) >>= _) = _
  rw [hsize]
  by_cases hcnt : (regexSpans search text).length < 2 ^ 31
  · rw [if_pos hcnt]
    change (if (regexSpans search text).length = 0 then _ else _) = _
    by_cases hzero : (regexSpans search text).length = 0
    · have htext : replacedText search text replacement = text := by
        rw [replacedText, eq_nil_of_length_eq_zero hzero, partsBetween,
          intercalate_singleton, drop_zero]
      rw [if_pos hzero, if_pos hzero, htext, if_pos ⟨hcnt, hlen⟩]
      rfl
    · rw [if_neg hzero, if_neg hzero, hwrite]
      by_cases hfits : (replacedText search text replacement).length < 2 ^ 31
      · rw [if_pos hfits, if_pos ⟨hcnt, hfits⟩]
        rfl
      · rw [if_neg hfits, if_neg fun h => hfits h.2]
        rfl
  · rw [if_neg hcnt, if_neg fun h => hcnt h.1]
    rfl

/-! ### Agreement -/

def nonEmptySpans (spans : List (ℕ × ℕ)) : List (ℕ × ℕ) := spans.filter fun span => span.1 ≠ span.2

theorem regexFindAll_eq (hnul : text.contains 0 = false) : regexFindAll search text =
      if (regexSpans search text).length ≤ 2 ^ 30 then
        .ok ((regexSpans search text).map fun span => slice text span.1 span.2)
      else .error (.panic "P0130") := by
  have hpush := foldlM_arrayPush
    ((regexSpans search text).map fun span => slice text span.1 span.2) [] (Nat.zero_le _)
  rw [length_nil, Nat.zero_add, nil_append, length_map] at hpush
  rw [regexFindAll, regexTextBuffer_eq hnul, ← hpush, regexSpans, map_map, foldlM_map]
  exact forSpans_eq (m := Except StringFailure) search (regexTextLoop text) _ 0 []

theorem regexCount_eq (hnul : text.contains 0 = false) :
    regexCount search text = .ok (regexSpans search text).length := by
  have hcnt (places : List (ℕ × RegexMatch)) (n : ℕ) :
      places.foldl (fun count _ => count + 1) n = n + places.length := by
    induction places generalizing n with
    | nil => rfl
    | cons place places ih => rw [foldl_cons, ih, length_cons]; omega
  have hloop := forSpans_eq (m := Except StringFailure) search (regexTextLoop text)
    (fun count _ _ => pure (count + 1)) 0 0
  rw [foldlM_pure, hcnt, Nat.zero_add] at hloop
  rw [regexCount, regexTextBuffer_eq hnul, regexSpans, length_map]
  exact hloop

theorem regexFindAllGroups_eq (hnul : text.contains 0 = false) : regexFindAllGroups search text =
      if (regexSpans search text).length ≤ 2 ^ 30 then
        .ok ((regexMatches search (regexTextLoop text) 0).map fun place =>
          regexGroupsOfMatch (text.drop place.1) place.2)
      else .error (.panic "P0130") := by
  have hpush := foldlM_arrayPush ((regexMatches search (regexTextLoop text) 0).map fun place =>
    regexGroupsOfMatch (text.drop place.1) place.2) [] (Nat.zero_le _)
  rw [length_nil, Nat.zero_add, nil_append, length_map] at hpush
  rw [regexFindAllGroups, regexTextBuffer_eq hnul, regexSpans, length_map, ← hpush, foldlM_map]
  exact forSpans_eq (m := Except StringFailure) search (regexTextLoop text) _ 0 []

/-- The body of the loop of a split, on a match with the place from which it was searched. -/
def splitStep (text : Text) (state : List Text × ℕ) (place : ℕ × RegexMatch) :
    Except StringFailure (List Text × ℕ) :=
  if place.2.start = place.2.stop then pure state
  else do
    let array ← arrayPush state.1 (slice text state.2 (place.1 + place.2.start))
    pure (array, place.1 + place.2.stop)

theorem foldlM_splitStep (text : Text) (places : List (ℕ × RegexMatch)) (state : List Text × ℕ) :
    (places.foldlM (splitStep text) state >>= fun state =>
      arrayPush state.1 (text.drop state.2)) =
        (partsBetween text state.2 (nonEmptySpans (places.map matchSpan))).foldlM arrayPush
          state.1 := by
  induction places generalizing state with
  | nil => simp [nonEmptySpans, partsBetween]
  | cons place places ih =>
    rw [foldlM_cons, splitStep, map_cons, nonEmptySpans, filter_cons]
    by_cases hemp : place.2.start = place.2.stop
    · rw [if_pos hemp, pure_bind, ih, if_neg (by simp [matchSpan, hemp]), nonEmptySpans]
    · rw [if_neg hemp, if_pos (by simp [matchSpan, hemp])]
      simp only [bind_assoc, pure_bind, ih]
      rfl

theorem regexSplit_eq (hnul : text.contains 0 = false) : regexSplit search text =
      if (partsBetween text 0 (nonEmptySpans (regexSpans search text))).length ≤ 2 ^ 30 then
        .ok (partsBetween text 0 (nonEmptySpans (regexSpans search text)))
      else .error (.panic "P0130") := by
  have hpush := foldlM_arrayPush (partsBetween text 0 (nonEmptySpans (regexSpans search text))) []
    (Nat.zero_le _)
  rw [length_nil, Nat.zero_add, nil_append] at hpush
  have hpts := foldlM_splitStep text (regexMatches search (regexTextLoop text) 0) ([], 0)
  have hloop := forSpans_eq search (regexTextLoop text)
    (fun state cursor found => splitStep text state (cursor, found)) 0 ([], 0)
  rw [regexSplit, regexTextBuffer_eq hnul, ← hpush, regexSpans, ← hpts, ← hloop]
  simp only [bind_assoc, pure_bind]
  rfl

/-- Finding, counting and splitting go over the same matches. -/
structure RegexAgrees (search : RegexSearch) (text : Text) : Prop where
  /-- The strings that are found are those of the matches, where an array has room for them. -/
  findAll : regexFindAll search text =
    if (regexSpans search text).length ≤ 2 ^ 30 then
      .ok ((regexSpans search text).map fun span => slice text span.1 span.2)
    else .error (.panic "P0130")
  count : regexCount search text = .ok (regexSpans search text).length
  /-- The groups are found for every match, the match first. -/
  findAllGroups : ∃ results : List (List Text), results.map List.head? =
      (regexSpans search text).map (fun span => some (slice text span.1 span.2)) ∧
    regexFindAllGroups search text =
      if results.length ≤ 2 ^ 30 then .ok results else .error (.panic "P0130")
  /-- The pieces and the matches that are not empty, in turn, are the text. -/
  split : ∃ pieces : List Text,
    interleave pieces ((nonEmptySpans (regexSpans search text)).map fun span =>
      slice text span.1 span.2) = text ∧
    pieces.length = (nonEmptySpans (regexSpans search text)).length + 1 ∧ regexSplit search text =
      if pieces.length ≤ 2 ^ 30 then .ok pieces else .error (.panic "P0130")

/-- A replacement is the text with the replacement for every match, in a buffer of its length and a
NUL, if it needs one. -/
def ReplacesMatches (search : RegexSearch) (text replacement : Text) : Prop :=
  ∃ built, regexReplace search text replacement = .ok built ∧
    built.text = replacedText search text replacement ∧
    ∀ size, built.allocated = some size → size = built.text.length + 1

theorem regexAgrees (search : RegexSearch) (hnul : text.contains 0 = false) :
    RegexAgrees search text := by
  have hwith := spansWithin_regexSpans search text
  refine ⟨regexFindAll_eq hnul, regexCount_eq hnul,
    ⟨(regexMatches search (regexTextLoop text) 0).map fun place =>
      regexGroupsOfMatch (text.drop place.1) place.2, ?_, ?_⟩, _, ?_, ?_, regexSplit_eq hnul⟩
  · rw [regexSpans, map_map, map_map]
    refine map_congr_left fun place _ => congrArg some ?_
    change slice (text.drop place.1) place.2.start place.2.stop = _
    rw [slice, slice, drop_drop, matchSpan, Nat.add_sub_add_left]
  · rw [regexFindAllGroups_eq hnul, length_map, regexSpans, length_map]
  · exact (interleave_partsBetween text (hwith.filter _)).trans drop_zero
  · exact length_partsBetween _ _ _

/-- The functions agree, and a replacement is made exactly when its length and the number of the
matches are `int`s. -/
theorem regexOperations_iff (search : RegexSearch) (text replacement : Text)
    (hnul : text.contains 0 = false) (hlength : text.length < 2 ^ 31) : RegexAgrees search text ∧
      (ReplacesMatches search text replacement ↔ (regexSpans search text).length < 2 ^ 31 ∧
          (replacedText search text replacement).length < 2 ^ 31) := by
  refine ⟨regexAgrees search hnul, ?_⟩
  rw [ReplacesMatches, regexReplace_eq hnul hlength]
  by_cases hfits : (regexSpans search text).length < 2 ^ 31 ∧
      (replacedText search text replacement).length < 2 ^ 31
  · rw [if_pos hfits]
    refine iff_of_true ⟨_, rfl, rfl, fun size hsize => ?_⟩ hfits
    simp only at hsize
    split_ifs at hsize
    exact (Option.some.inj hsize).symm
  · rw [if_neg hfits]
    exact iff_of_false (fun ⟨_, h, _⟩ => by cases h) hfits

/-- A search for the first byte, at the start of a text only. -/
def firstByteSearch : RegexSearch where
  execute text isAfterStart :=
    if isAfterStart = false ∧ text ≠ [] then some ⟨0, 1, []⟩ else none
  start_le text isAfterStart found h := by
    split_ifs at h
    cases h
    exact Nat.zero_le 1
  stop_le text isAfterStart found h := by
    split_ifs at h with hne
    cases h
    exact length_pos_of_ne_nil hne.2

theorem regexOperations_firstByte : RegexAgrees firstByteSearch (bytes "ab") ∧
      (ReplacesMatches firstByteSearch (bytes "ab") (bytes "c") ↔
        (regexSpans firstByteSearch (bytes "ab")).length < 2 ^ 31 ∧
          (replacedText firstByteSearch (bytes "ab") (bytes "c")).length < 2 ^ 31) :=
  regexOperations_iff firstByteSearch (bytes "ab") (bytes "c") (by decide) (by decide)

theorem regexSpans_firstByteSearch (hne : text ≠ []) :
    regexSpans firstByteSearch text = [(0, 1)] := by
  have hpos := length_pos_of_ne_nil hne
  have hbuf : regexTextLoop text ≠ [] :=
    ne_nil_of_length_pos ((length_regexTextLoop text).symm ▸ hpos)
  have hfst : firstByteSearch.execute ((regexTextLoop text).drop 0) (0 != 0) = some ⟨0, 1, []⟩ :=
    if_pos ⟨rfl, hbuf⟩
  have hsnd : firstByteSearch.execute ((regexTextLoop text).drop 1) (1 != 0) = none := by
    change (if true = false ∧ (regexTextLoop text).drop 1 ≠ [] then
      some (RegexMatch.mk 0 1 []) else none) = none
    exact if_neg fun h => Bool.noConfusion h.1
  rw [regexSpans, regexMatches, hfst]
  simp only [Nat.zero_add]
  rw [dif_neg (by decide), regexMatches, hsnd]
  rfl

/-- A replacement may be too long. -/
theorem not_replacesMatches : ∃ (search : RegexSearch) (text replacement : Text),
    text.contains 0 = false ∧ text.length < 2 ^ 31 ∧ replacement.length < 2 ^ 31 ∧
      ¬ ReplacesMatches search text replacement := by
  refine ⟨firstByteSearch, bytes "ab", replicate (2 ^ 31 - 1) (byte 'c'), by decide, by decide,
    ?_, ?_⟩
  · rw [length_replicate]
    decide
  · rintro ⟨built, hblt, -⟩
    have hlen : (replacedText firstByteSearch (bytes "ab")
        (replicate (2 ^ 31 - 1) (byte 'c'))).length = 2 ^ 31 - 1 + 1 := by
      rw [replacedText, regexSpans_firstByteSearch (by decide), partsBetween, partsBetween,
        length_intercalate_cons, map_singleton, sum_singleton, length_replicate]
      rfl
    rw [regexReplace_eq (by decide) (by decide), hlen, if_neg fun h => absurd h.2 (by decide)]
      at hblt
    cases hblt

end Grayscale
