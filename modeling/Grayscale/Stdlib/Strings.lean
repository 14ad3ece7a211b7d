import Grayscale.Library.Spans
import Grayscale.Library.FirstOccurrence
import Grayscale.Stdlib.Time
import Grayscale.Util.Bytes
import Mathlib.Tactic.Ring

/-!
# Searching, splitting and joining strings

`gray_strings_find`, `gray_strings_count`, `gray_strings_split`, `gray_strings_split_n`,
`gray_strings_replace` and `gray_strings_join` of `stdlib/strings.c`.
-/

namespace Grayscale

open List
open Option (bind_none bind_some map_eq_none_iff map_eq_some_iff map_none map_some)

/-! ### The functions -/

/-- How a function fails: it panics, it ends the process, or an integer overflows. -/
inductive StringFailure
  | panic (code : String)
  | exit
  | overflow
  deriving DecidableEq

/-- A string, with the size of the buffer that was allocated for it and its NUL, if one was. -/
structure Built where
  allocated : Option ℕ
  text : Text
  deriving DecidableEq

/-- `memchr` on the bytes from `start` to `stop`. -/
def memchr (string : Text) (c : UInt8) (start stop : ℕ) : Option ℕ :=
  ((slice string start stop).findIdx? (· == c)).map (start + ·)

theorem getElem_eq_byteAt {text : Text} {k : ℕ} (h : k < text.length) :
    text[k] = byteAt text k := by
  rw [byteAt, getD_eq_getElem?_getD, getElem?_eq_getElem h, Option.getD_some]

variable {string : Text}

theorem byteAt_slice {start stop k : ℕ} (h : start + k < stop) :
    byteAt (slice string start stop) k = byteAt string (start + k) := by
  rw [byteAt, slice, getD_eq_getElem?_getD, getElem?_take_of_lt (by omega),
    getElem?_drop, ← getD_eq_getElem?_getD, byteAt]

theorem memchr_some {c : UInt8} {start stop i : ℕ} (h : memchr string c start stop = some i) :
    start ≤ i ∧ i < stop ∧ i < string.length ∧ byteAt string i = c ∧
      ∀ j, start ≤ j → j < i → byteAt string j ≠ c := by
  obtain ⟨k, hk, rfl⟩ := map_eq_some_iff.mp h
  obtain ⟨hlt, hc, hbef⟩ := findIdx?_eq_some_iff_getElem.mp hk
  have hlen : k < stop - start ∧ k < string.length - start := by
    rw [slice, length_take, length_drop] at hlt
    omega
  refine ⟨by omega, by omega, by omega, ?_, fun j hj hji hjc => ?_⟩
  · rw [getElem_eq_byteAt, byteAt_slice (by omega)] at hc
    exact eq_of_beq hc
  · refine hbef (j - start) (by omega) ?_
    rw [getElem_eq_byteAt, byteAt_slice (by omega), Nat.add_sub_cancel' hj, hjc]
    exact beq_self_eq_true c

theorem memchr_none {c : UInt8} {start stop : ℕ} (hstop : stop ≤ string.length)
    (h : memchr string c start stop = none) {j : ℕ} (hj : start ≤ j) (hlt : j < stop) :
    byteAt string j ≠ c := by
  intro hc
  have hall := findIdx?_eq_none_iff.mp (map_eq_none_iff.mp h)
  have hlen : j - start < (slice string start stop).length := by
    rw [slice, length_take, length_drop]
    omega
  refine Bool.false_ne_true ((hall _ (getElem_mem hlen)).symm.trans ?_)
  rw [getElem_eq_byteAt, byteAt_slice (by omega), Nat.add_sub_cancel' hj, hc]
  exact beq_self_eq_true c

/-- The loop of `gray_strings_find`. -/
def findLoop (string needle : Text) (stop cursor : ℕ) : Option ℕ :=
  if cursor < stop then
    match _h : memchr string (byteAt needle 0) cursor stop with
    | none => none
    | some candidate =>
      if slice string (candidate + 1) (candidate + needle.length) = needle.drop 1 then
        some candidate
      else findLoop string needle stop (candidate + 1)
  else none
termination_by stop - cursor
decreasing_by
  have hcandidate := memchr_some _h
  omega

/-- `gray_strings_find`, with `none` for -1. -/
def grayStringsFind (string needle : Text) (start : ℕ) : Option ℕ :=
  if string.length < start + needle.length then none
  else findLoop string needle (string.length - needle.length + 1) start

/-! ### The search -/

variable {needle : Text}

theorem prefix_drop_iff (hne : needle ≠ []) {i : ℕ} (hi : i < string.length) :
    needle <+: string.drop i ↔ byteAt string i = byteAt needle 0 ∧
      slice string (i + 1) (i + needle.length) = needle.drop 1 := by
  obtain ⟨c, rest, rfl⟩ := exists_cons_of_ne_nil hne
  rw [drop_eq_getElem_cons hi, cons_prefix_cons, getElem_eq_byteAt, byteAt_zero,
    prefix_iff_eq_take, slice, length_cons, drop_one, tail_cons,
    show i + (rest.length + 1) - (i + 1) = rest.length by omega]
  exact and_congr eq_comm eq_comm

theorem lt_of_prefix_drop (hne : needle ≠ []) {i : ℕ} (h : needle <+: string.drop i) :
    i + needle.length ≤ string.length := by
  have hle := h.length_le
  have hpos := length_pos_of_ne_nil hne
  rw [length_drop] at hle
  omega

theorem findLoop_spec (hne : needle ≠ []) (hle : needle.length ≤ string.length) (cursor : ℕ) :
    match findLoop string needle (string.length - needle.length + 1) cursor with
    | some i => cursor ≤ i ∧ needle <+: string.drop i ∧
        ∀ j, cursor ≤ j → needle <+: string.drop j → i ≤ j
    | none => ∀ j, cursor ≤ j → ¬ needle <+: string.drop j := by
  have hpos := length_pos_of_ne_nil hne
  generalize hstop : string.length - needle.length + 1 = stop
  fun_induction findLoop string needle stop cursor with
  | case1 cursor hlt h =>
    intro j hj hocc
    have hbnd := lt_of_prefix_drop hne hocc
    exact memchr_none (by omega) h hj (by omega) ((prefix_drop_iff hne (by omega)).mp hocc).1
  | case2 cursor hlt i h heq =>
    obtain ⟨hi, -, hlen, hbyte, hbef⟩ := memchr_some h
    refine ⟨hi, (prefix_drop_iff hne hlen).mpr ⟨hbyte, heq⟩, fun j hj hocc => ?_⟩
    by_contra hji
    exact hbef j hj (by omega) ((prefix_drop_iff hne (by omega)).mp hocc).1
  | case3 cursor hlt i h hneq ih =>
    obtain ⟨hi, -, hlen, hbyte, hbef⟩ := memchr_some h
    have hskip (j : ℕ) (hj : cursor ≤ j) (hocc : needle <+: string.drop j) : i + 1 ≤ j := by
      by_contra hji
      have hat := (prefix_drop_iff hne (by omega)).mp hocc
      rcases Nat.lt_or_eq_of_le (by omega : j ≤ i) with hlt | rfl
      · exact hbef j hj hlt hat.1
      · exact hneq hat.2
    revert ih
    cases findLoop string needle stop (i + 1) with
    | none => exact fun ih j hj hocc => ih j (hskip j hj hocc) hocc
    | some k =>
      exact fun ih => ⟨by omega, ih.2.1, fun j hj hocc => ih.2.2 j (hskip j hj hocc) hocc⟩
  | case4 cursor hlt =>
    intro j hj hocc
    have hbnd := lt_of_prefix_drop hne hocc
    omega

theorem grayStringsFind_eq (hne : needle ≠ []) (string : Text) (start : ℕ) :
    grayStringsFind string needle start =
      (firstIndex needle (string.drop start)).map (start + ·) := by
  have hdrop (j : ℕ) : (string.drop start).drop j = string.drop (start + j) := drop_drop
  have hnone (h : ∀ j, start ≤ j → ¬ needle <+: string.drop j) :
      firstIndex needle (string.drop start) = none := by
    refine Option.eq_none_iff_forall_ne_some.mpr fun i hi => ?_
    have hocc := ((firstIndex_eq_some_iff_starts hne).mp hi).1
    rw [hdrop] at hocc
    exact h _ (Nat.le_add_right _ _) hocc
  rw [grayStringsFind]
  split_ifs with hlt
  · rw [hnone fun j hj hocc => ?_, map_none]
    have hbnd := lt_of_prefix_drop hne hocc
    omega
  · have hspec := findLoop_spec hne (by omega : needle.length ≤ string.length) start
    revert hspec
    cases findLoop string needle (string.length - needle.length + 1) start with
    | none => exact fun hspec => by rw [hnone hspec, map_none]
    | some i =>
      rintro ⟨hi, hocc, hleast⟩
      have hidx : firstIndex needle (string.drop start) = some (i - start) := by
        refine (firstIndex_eq_some_iff_starts hne).mpr ⟨?_, fun j hj => ?_⟩
        · rwa [hdrop, Nat.add_sub_cancel' hi]
        · rw [hdrop] at hj
          have := hleast _ (Nat.le_add_right _ _) hj
          omega
      rw [hidx, map_some, Nat.add_sub_cancel' hi]

theorem find_some (hne : needle ≠ []) {start i : ℕ}
    (h : grayStringsFind string needle start = some i) :
    start ≤ i ∧ i + needle.length ≤ string.length ∧
      firstIndex needle (string.drop start) = some (i - start) := by
  rw [grayStringsFind_eq hne] at h
  obtain ⟨k, hk, rfl⟩ := map_eq_some_iff.mp h
  have hbnd := lt_of_prefix_drop hne ((firstIndex_eq_some_iff_starts hne).mp hk).1
  rw [length_drop] at hbnd
  have hpos := length_pos_of_ne_nil hne
  exact ⟨Nat.le_add_right _ _, by omega, by rwa [Nat.add_sub_cancel_left]⟩

/-! ### The loops -/

/-- The loop over the matches of a needle. The body gets the end of the match before and the start
of the match, and the loop gives the end of the last one. -/
def forMatches {m : Type → Type} [Monad m] {σ : Type} (string needle : Text) (hne : needle ≠ [])
    (body : σ → ℕ → ℕ → m σ) (start : ℕ) (state : σ) : m (σ × ℕ) :=
  match _h : grayStringsFind string needle start with
  | none => pure (state, start)
  | some i => do
    let state ← body state start i
    forMatches string needle hne body (i + needle.length) state
termination_by string.length - start
decreasing_by
  have hmatch := find_some hne _h
  have hpos := length_pos_of_ne_nil hne
  omega

def grayStringsCount (string substring : Text) : ℕ :=
  if hne : substring = [] then 0
  else (Id.run (forMatches string substring hne (fun count _ _ => pure (count + 1)) 0 0)).1

/-- A result is pushed to a new array. The array doubles, up to room for `2 ^ 30` results. -/
def arrayPush {α : Type} (array : List α) (result : α) : Except StringFailure (List α) :=
  if array.length < 2 ^ 30 then .ok (array ++ [result]) else .error (.panic "P0130")

def grayStringsSplit (string separator : Text) : Except StringFailure (List Text) :=
  if hne : separator = [] then arrayPush [] string
  else do
    let (array, start) ← forMatches string separator hne
      (fun array start i => arrayPush array (slice string start i)) 0 []
    arrayPush array (string.drop start)

/-- The loop of `gray_strings_split_n`. -/
def splitNLoop (string separator : Text) : ℕ → List Text → ℕ → Except StringFailure (List Text × ℕ)
  | maximumParts + 2, array, start =>
    match grayStringsFind string separator start with
    | none => pure (array, start)
    | some i => do
      let array ← arrayPush array (slice string start i)
      splitNLoop string separator (maximumParts + 1) array (i + separator.length)
  | _, array, start => pure (array, start)

def grayStringsSplitN (string separator : Text) (maximumParts : ℤ) :
    Except StringFailure (List Text) :=
  if maximumParts ≤ 0 then .ok []
  else if separator = [] then arrayPush [] string
  else do
    let (array, start) ← splitNLoop string separator maximumParts.toNat [] 0
    arrayPush array (string.drop start)

def grayStringsReplace (string oldText newText : Text) : Except StringFailure Built :=
  if hne : oldText = [] then .ok ⟨none, string⟩
  else
    let count := grayStringsCount string oldText
    if count = 0 then .ok ⟨none, string⟩
    else
      let newLengthWide : ℤ := string.length + count * (newText.length - oldText.length : ℤ)
      if newLengthWide < 0 ∨ 2 ^ 31 - 1 < newLengthWide then .error (.panic "P0071")
      else
        let (buffer, i) := Id.run (forMatches string oldText hne
          (fun buffer i place => pure (buffer ++ slice string i place ++ newText)) 0 [])
        .ok ⟨some (newLengthWide.toNat + 1), buffer ++ string.drop i⟩

/-- The loop of `gray_strings_join` that sums the lengths, behind the first part; `none` when the
sum overflows. -/
def joinTotal (separator : Text) : ℤ → List Text → Option ℤ
  | total, [] => some total
  | total, part :: parts =>
    (cInt (total + part.length)).bind fun total =>
      (cInt (total + separator.length)).bind fun total => joinTotal separator total parts

/-- The buffer of a join, and the loop of `gray_strings_join` that copies the parts. -/
def joinCopy (separator part : Text) (parts : List Text) (total : ℤ) : Built :=
  ⟨some (total.toNat + 1), parts.foldl (fun buffer part => buffer ++ separator ++ part) part⟩

def grayStringsJoin (array : List Text) (separator : Text) : Except StringFailure Built :=
  match array with
  | [] => .ok ⟨none, []⟩
  | part :: parts =>
    (((cInt (0 + part.length)).bind fun total => joinTotal separator total parts).map
      (joinCopy separator part parts)).elim (.error .overflow) .ok

/-! ### The loops over the pieces -/

theorem forMatches_eq {m : Type → Type} [Monad m] [LawfulMonad m] {σ : Type} (hne : needle ≠ [])
    {body : σ → ℕ → ℕ → m σ} (step : σ → Text → m σ)
    (hbody : ∀ state start i, body state start i = step state (slice string start i)) (start : ℕ) :
    ∃ pieces stop, splitPieces needle (string.drop start) = pieces ++ [string.drop stop] ∧
      ∀ state, forMatches string needle hne body start state =
        pieces.foldlM step state >>= fun state => pure (state, stop) := by
  induction hlen : string.length - start using Nat.strongRecOn generalizing start with
  | ind length ih =>
    cases h : grayStringsFind string needle start with
    | none =>
      refine ⟨[], start, ?_, fun state => ?_⟩
      · rw [grayStringsFind_eq hne, map_eq_none_iff] at h
        rw [pieces_of_none h, nil_append]
      · rw [forMatches, h, foldlM_nil, pure_bind]
    | some i =>
      obtain ⟨hi, hbnd, hidx⟩ := find_some hne h
      have hpos := length_pos_of_ne_nil hne
      obtain ⟨pieces, stop, hpcs, hloop⟩ := ih _ (by omega) (i + needle.length) rfl
      refine ⟨slice string start i :: pieces, stop, ?_, fun state => ?_⟩
      · rw [pieces_of_some hne hidx, drop_drop,
          show start + (i - start + needle.length) = i + needle.length by omega, hpcs, slice,
          cons_append]
      · rw [forMatches, h]
        simp only [hbody, hloop, foldlM_cons, bind_assoc]

theorem length_pieces_eq_count {substring : Text} (hne : substring ≠ []) (string : Text) :
    (splitPieces substring string).length = grayStringsCount string substring + 1 := by
  have hcnt (pieces : List Text) (n : ℕ) :
      pieces.foldl (fun count _ => count + 1) n = n + pieces.length := by
    induction pieces generalizing n with
    | nil => rfl
    | cons piece pieces ih => rw [foldl_cons, ih, length_cons]; omega
  obtain ⟨pieces, stop, hpcs, hloop⟩ :=
    forMatches_eq (m := Id) hne (fun count _ => pure (count + 1)) (fun _ _ _ => rfl) 0
  rw [drop_zero] at hpcs
  rw [grayStringsCount, dif_neg hne, hloop, foldlM_pure, pure_bind, Id.run_pure, hcnt,
    hpcs, length_append, length_singleton, Nat.zero_add]

theorem foldlM_arrayPush {α : Type} (results array : List α) (harr : array.length ≤ 2 ^ 30) :
    results.foldlM arrayPush array =
      if array.length + results.length ≤ 2 ^ 30 then .ok (array ++ results)
      else .error (.panic "P0130") := by
  induction results generalizing array with
  | nil =>
    rw [foldlM_nil, length_nil, Nat.add_zero, if_pos harr, append_nil]
    rfl
  | cons result results ih =>
    rw [foldlM_cons, arrayPush, length_cons]
    by_cases hroom : array.length < 2 ^ 30
    · rw [if_pos hroom]
      refine (ih _ (by rw [length_append]; exact hroom)).trans ?_
      rw [length_append, length_singleton, append_assoc, singleton_append,
        Nat.add_assoc, Nat.add_comm 1]
    · rw [if_neg hroom, if_neg (by omega)]
      rfl

variable {separator : Text}

theorem grayStringsSplit_eq (hne : separator ≠ []) (string : Text) :
    grayStringsSplit string separator =
      if (splitPieces separator string).length ≤ 2 ^ 30 then .ok (splitPieces separator string)
      else .error (.panic "P0130") := by
  obtain ⟨pieces, stop, hpcs, hloop⟩ := forMatches_eq hne arrayPush (fun _ _ _ => rfl) 0
  rw [drop_zero] at hpcs
  have hpush := foldlM_arrayPush (splitPieces separator string) [] (Nat.zero_le _)
  rw [length_nil, Nat.zero_add, nil_append] at hpush
  rw [grayStringsSplit, dif_neg hne, hloop, ← hpush, hpcs, foldlM_append]
  simp only [bind_assoc, pure_bind, foldlM_cons, foldlM_nil, bind_pure]

theorem splitNLoop_eq (hne : separator ≠ []) (string : Text) (n : ℕ) (array : List Text) (start : ℕ) :
    (splitNLoop string separator (n + 1) array start >>= fun state =>
      arrayPush state.1 (string.drop state.2)) =
        (splitUpTo separator n (string.drop start)).foldlM arrayPush array := by
  induction n generalizing array start with
  | zero => simp [splitNLoop, splitUpTo]
  | succ n ih =>
    rw [splitNLoop, splitUpTo]
    cases h : grayStringsFind string separator start with
    | none =>
      rw [grayStringsFind_eq hne, map_eq_none_iff] at h
      rw [h, pure_bind]
      simp
    | some i =>
      obtain ⟨hi, hbnd, hidx⟩ := find_some hne h
      rw [hidx]
      simp only [bind_assoc, ih, foldlM_cons, drop_drop, slice]
      rw [show start + (i - start + separator.length) = i + separator.length by omega]

theorem grayStringsSplitN_eq (hne : separator ≠ []) (string : Text) (n : ℕ) :
    grayStringsSplitN string separator (n + 1 : ℕ) =
      if (splitUpTo separator n string).length ≤ 2 ^ 30 then .ok (splitUpTo separator n string)
      else .error (.panic "P0130") := by
  have hpush := foldlM_arrayPush (splitUpTo separator n string) [] (Nat.zero_le _)
  rw [length_nil, Nat.zero_add, nil_append] at hpush
  have hloop := splitNLoop_eq hne string n [] 0
  rw [drop_zero] at hloop
  rw [grayStringsSplitN, if_neg (by omega), if_neg hne, Int.toNat_natCast, ← hpush, ← hloop]

theorem foldl_append_eq_intercalate (newText last : Text) (pieces : List Text) (buffer : Text) :
    pieces.foldl (fun buffer piece => buffer ++ piece ++ newText) buffer ++ last =
      buffer ++ newText.intercalate (pieces ++ [last]) := by
  induction pieces generalizing buffer with
  | nil => rw [foldl_nil, nil_append, intercalate_singleton]
  | cons piece pieces ih =>
    rw [foldl_cons, ih, cons_append, intercalate_cons_of_ne_nil
      (append_ne_nil_of_right_ne_nil _ (cons_ne_nil _ _))]
    simp only [append_assoc]

theorem length_intercalate_sub (oldText newText : Text) {pieces : List Text} {n : ℕ}
    (hlen : pieces.length = n + 1) : ((newText.intercalate pieces).length : ℤ) =
      (oldText.intercalate pieces).length + n * (newText.length - oldText.length : ℤ) := by
  have hsum (k : ℕ) (l : List Text) : (l.map fun piece => k + piece.length).sum =
      l.length * k + (l.map List.length).sum := by
    induction l with
    | nil => simp
    | cons piece l ih =>
      rw [map_cons, sum_cons, ih, map_cons, sum_cons, length_cons]
      ring
  obtain ⟨piece, pieces, rfl⟩ := exists_cons_of_length_eq_add_one hlen
  rw [length_intercalate_cons, length_intercalate_cons, hsum, hsum,
    show pieces.length = n by simpa using hlen]
  push_cast
  ring

theorem grayStringsReplace_eq {oldText : Text} (hne : oldText ≠ [])
    (hstr : string.length < 2 ^ 31) (newText : Text) : grayStringsReplace string oldText newText =
      if (newText.intercalate (splitPieces oldText string)).length < 2 ^ 31 then
        .ok ⟨if grayStringsCount string oldText = 0 then none
          else some ((newText.intercalate (splitPieces oldText string)).length + 1),
          newText.intercalate (splitPieces oldText string)⟩
      else .error (.panic "P0071") := by
  have hcnt := length_pieces_eq_count hne string
  have hlen := length_intercalate_sub oldText newText hcnt
  rw [intercalate_pieces] at hlen
  obtain ⟨pieces, stop, hpcs, hloop⟩ := forMatches_eq (m := Id) hne
    (fun buffer piece => pure (buffer ++ piece ++ newText)) (fun _ _ _ => rfl) 0
  rw [drop_zero] at hpcs
  have hcopy := foldl_append_eq_intercalate newText (string.drop stop) pieces []
  rw [← hpcs, nil_append] at hcopy
  rw [grayStringsReplace, dif_neg hne]
  simp only
  generalize hwide : (string.length + grayStringsCount string oldText *
    (newText.length - oldText.length : ℤ) : ℤ) = wide at hlen ⊢
  split_ifs with hzero hfits hpanic hfits hfits
  · obtain ⟨piece, hpc⟩ := length_eq_one_iff.mp (hcnt.trans (congrArg (· + 1) hzero))
    have htext := intercalate_pieces oldText string
    rw [hpc, intercalate_singleton] at htext
    rw [hpc, intercalate_singleton, htext]
  · rw [hzero] at hwide
    omega
  · omega
  · rfl
  · have hlengthWide : wide.toNat = (newText.intercalate (splitPieces oldText string)).length := by
      omega
    rw [hloop, foldlM_pure, pure_bind, Id.run_pure, hlengthWide]
    exact congrArg (fun text => Except.ok (Built.mk _ text)) hcopy
  · omega

theorem joinTotal_eq (separator : Text) (parts : List Text) {total : ℤ} (hpos : 0 ≤ total) :
    joinTotal separator total parts =
      if parts = [] ∨
          total + (parts.map fun part => separator.length + part.length).sum < 2 ^ 31 then
        some (total + (parts.map fun part => separator.length + part.length).sum)
      else none := by
  induction parts generalizing total with
  | nil => simp [joinTotal]
  | cons part parts ih =>
    rw [joinTotal, map_cons, sum_cons]
    generalize hsum : (parts.map fun part => separator.length + part.length).sum = sum at ih ⊢
    simp only [cons_ne_nil, false_or]
    by_cases hpart : total + part.length < 2 ^ 31
    · by_cases hsep : total + part.length + separator.length < 2 ^ 31
      · rw [cInt_of (by omega) hpart, bind_some, cInt_of (by omega) hsep, bind_some, ih (by omega)]
        have hiff : (parts = [] ∨ total + part.length + separator.length + sum < 2 ^ 31) ↔
            total + (separator.length + part.length + sum : ℕ) < 2 ^ 31 := by
          constructor
          · rintro (rfl | h)
            · obtain rfl : 0 = sum := hsum
              push_cast
              omega
            · push_cast
              omega
          · refine fun h => .inr ?_
            push_cast at h
            omega
        simp only [hiff]
        congr 2
        push_cast
        ring
      · rw [cInt_of (by omega) hpart, bind_some, cInt, if_neg (by omega), bind_none,
          if_neg (by push_cast; omega)]
    · rw [cInt, if_neg (by omega), bind_none, if_neg (by push_cast; omega)]

theorem foldl_append_separator (separator part : Text) (parts : List Text) (buffer : Text) :
    parts.foldl (fun buffer part => buffer ++ separator ++ part) (buffer ++ part) =
      buffer ++ separator.intercalate (part :: parts) := by
  induction parts generalizing part buffer with
  | nil => rw [foldl_nil, intercalate_singleton]
  | cons next parts ih =>
    rw [foldl_cons, intercalate_cons_cons, ih]
    simp only [append_assoc]

theorem grayStringsJoin_eq {parts : List Text} (hne : parts ≠ []) (separator : Text) :
    grayStringsJoin parts separator =
      if (separator.intercalate parts).length < 2 ^ 31 then
        .ok ⟨some ((separator.intercalate parts).length + 1), separator.intercalate parts⟩
      else .error .overflow := by
  obtain ⟨part, parts, rfl⟩ := exists_cons_of_ne_nil hne
  have hcopy := foldl_append_separator separator part parts []
  rw [nil_append, nil_append] at hcopy
  have hlen : (separator.intercalate (part :: parts)).length =
      part.length + (parts.map fun part => separator.length + part.length).sum :=
    length_intercalate_cons separator part parts
  rw [grayStringsJoin]
  by_cases hpart : (part.length : ℤ) < 2 ^ 31
  · rw [zero_add, cInt_of (by omega) hpart, bind_some, joinTotal_eq _ _ (by omega)]
    have hiff : (parts = [] ∨ (part.length : ℤ) +
        (parts.map fun part => separator.length + part.length).sum < 2 ^ 31) ↔
          (separator.intercalate (part :: parts)).length < 2 ^ 31 := by
      refine ⟨?_, fun h => .inr (by omega)⟩
      rintro (rfl | h)
      · rw [map_nil, sum_nil] at hlen
        omega
      · omega
    simp only [hiff]
    split_ifs
    · have htot : ((part.length : ℤ) +
          (parts.map fun part => separator.length + part.length).sum).toNat =
            (separator.intercalate (part :: parts)).length := by omega
      rw [map_some, Option.elim_some, joinCopy, htot, hcopy]
    · rfl
  · rw [zero_add, cInt, if_neg (by omega), bind_none, if_neg (by omega)]
    rfl

/-! ### Agreement -/

/-- The search gives the least place from `start` on at which the needle stands. -/
def FindsLeast (string needle : Text) : Prop :=
  ∀ start, (∀ i, grayStringsFind string needle start = some i ↔
      start ≤ i ∧ needle <+: string.drop i ∧ ∀ j, start ≤ j → needle <+: string.drop j → i ≤ j) ∧
    (grayStringsFind string needle start = none ↔ ∀ j, start ≤ j → ¬ needle <+: string.drop j)

theorem findsLeast (hne : needle ≠ []) (string : Text) : FindsLeast string needle := by
  have hsome (start i : ℕ) : grayStringsFind string needle start = some i ↔
      start ≤ i ∧ needle <+: string.drop i ∧ ∀ j, start ≤ j → needle <+: string.drop j → i ≤ j := by
    rw [grayStringsFind_eq hne, map_eq_some_iff]
    simp only [firstIndex_eq_some_iff_starts hne, drop_drop]
    constructor
    · rintro ⟨k, ⟨hocc, hleast⟩, rfl⟩
      refine ⟨Nat.le_add_right _ _, hocc, fun j hj hocc => ?_⟩
      have := hleast (j - start) (by rwa [Nat.add_sub_cancel' hj])
      omega
    · rintro ⟨hi, hocc, hleast⟩
      refine ⟨i - start, ⟨by rwa [Nat.add_sub_cancel' hi], fun j hj => ?_⟩, Nat.add_sub_cancel' hi⟩
      have := hleast _ (Nat.le_add_right _ _) hj
      omega
  refine fun start => ⟨hsome start, ⟨fun h j hj hocc => ?_, fun h => ?_⟩⟩
  · rw [grayStringsFind_eq hne, map_eq_none_iff, firstIndex_eq_none_iff] at h
    refine h (hocc.isInfix.trans ?_)
    exact (drop_suffix_drop_left string hj).isInfix
  · exact Option.eq_none_iff_forall_ne_some.mpr fun i hi => h i ((hsome start i).mp hi).1
      ((hsome start i).mp hi).2.1

/-- A string is split, counted, joined, replaced in and split with a limit by the same pieces. -/
structure StringsAgree (string separator : Text) (pieces : List Text) : Prop where
  /-- Splitting gives the pieces, where an array has room for them. -/
  split : grayStringsSplit string separator =
    if pieces.length ≤ 2 ^ 30 then .ok pieces else .error (.panic "P0130")
  join : (grayStringsJoin pieces separator).map Built.text = .ok string
  /-- There is one match less than pieces. -/
  count : pieces.length = grayStringsCount string separator + 1
  replace : ∀ newText, ((newText.intercalate pieces).length < 2 ^ 31 ∧
      (grayStringsReplace string separator newText).map Built.text =
        .ok (newText.intercalate pieces) ∧
      (grayStringsJoin pieces newText).map Built.text = .ok (newText.intercalate pieces)) ∨
    (2 ^ 31 ≤ (newText.intercalate pieces).length ∧
      grayStringsReplace string separator newText = .error (.panic "P0071"))
  /-- A limit gives at most as many parts, which are joined to the string too. -/
  splitN : ∀ n : ℤ, 1 ≤ n → ∃ parts : List Text, (parts.length : ℤ) ≤ n ∧
    parts.length ≤ pieces.length ∧ grayStringsSplitN string separator n =
      (if parts.length ≤ 2 ^ 30 then .ok parts else .error (.panic "P0130")) ∧
    (grayStringsJoin parts separator).map Built.text = .ok string

theorem map_text_join {parts : List Text} (hne : parts ≠ [])
    (hlen : (separator.intercalate parts).length < 2 ^ 31) :
    (grayStringsJoin parts separator).map Built.text = .ok (separator.intercalate parts) := by
  rw [grayStringsJoin_eq hne, if_pos hlen]
  rfl

/-- Searching, counting, splitting, joining and replacing agree. -/
theorem strings_agree (string separator : Text) (hne : separator ≠ [])
    (hstring : string.length < 2 ^ 31) :
    FindsLeast string separator ∧ ∃ pieces, StringsAgree string separator pieces := by
  have hpcs := pieces_ne_nil separator string
  refine ⟨findsLeast hne string, splitPieces separator string, grayStringsSplit_eq hne string, ?_,
    length_pieces_eq_count hne string, fun newText => ?_, fun n hn => ?_⟩
  · have htext := intercalate_pieces separator string
    exact (map_text_join hpcs (by rwa [htext])).trans (congrArg _ htext)
  · rw [grayStringsReplace_eq hne hstring]
    by_cases hfits : (newText.intercalate (splitPieces separator string)).length < 2 ^ 31
    · rw [if_pos hfits]
      exact .inl ⟨hfits, rfl, map_text_join hpcs hfits⟩
    · rw [if_neg hfits]
      exact .inr ⟨Nat.le_of_not_lt hfits, rfl⟩
  · obtain ⟨k, hk⟩ : ∃ k : ℕ, n = (k + 1 : ℕ) := ⟨(n - 1).toNat, by omega⟩
    have hlen := length_splitUpTo hne k string
    have htext := intercalate_splitUpTo separator k string
    refine ⟨splitUpTo separator k string, by omega, by omega,
      hk ▸ grayStringsSplitN_eq hne string k, ?_⟩
    exact (map_text_join (splitUpTo_ne_nil separator k string) (by rwa [htext])).trans
      (congrArg _ htext)

theorem strings_agree_commas : FindsLeast (bytes "a,b") (bytes ",") ∧
      ∃ pieces, StringsAgree (bytes "a,b") (bytes ",") pieces :=
  strings_agree (bytes "a,b") (bytes ",") (by decide) (by decide)

theorem pieces_replicate (c : UInt8) (n : ℕ) :
    (splitPieces [c] (replicate n c)).length = n + 1 := by
  induction n with
  | zero => rfl
  | succ n ih =>
    have hidx : firstIndex [c] (replicate (n + 1) c) = some 0 := by
      refine (firstIndex_eq_some_iff_starts (cons_ne_nil _ _)).mpr
        ⟨⟨replicate n c, rfl⟩, fun j _ => Nat.zero_le j⟩
    rw [pieces_of_some (cons_ne_nil _ _) hidx, length_cons,
      show (replicate (n + 1) c).drop (0 + [c].length) = replicate n c from rfl, ih]

/-- A string with too many matches is not split. -/
theorem not_grayStringsSplit_ok : ∃ string separator : Text, separator ≠ [] ∧
    string.length < 2 ^ 31 ∧ ¬ ∃ parts, grayStringsSplit string separator = .ok parts := by
  refine ⟨replicate (2 ^ 30) (byte 'a'), [byte 'a'], cons_ne_nil _ _, ?_, ?_⟩
  · rw [length_replicate]
    decide
  · rintro ⟨parts, h⟩
    rw [grayStringsSplit_eq (cons_ne_nil _ _), pieces_replicate,
      if_neg (Nat.not_succ_le_self _)] at h
    cases h

end Grayscale
