import Grayscale.Codegen.StringLiterals
import Mathlib.Data.List.Count
import Mathlib.Data.List.Chain

/-!
# Reading the emitted string literals

What C reads in the text that the emitter writes for a string literal, and which bytes the emitted
string denotes with its length.
-/

namespace Grayscale

open List
open Bool (and_eq_true eq_false_iff not_eq_true or_eq_true)

/-! ### No trigraphs -/

/-- A text without two question marks in a row, that does not begin with one. -/
def IsGuarded (l : Text) : Prop := l.IsChain NotDoubleQuestion ∧ l.head? ≠ some (byte '?')

theorem IsGuarded.nil : IsGuarded [] := ⟨List.IsChain.nil, by simp⟩

theorem IsGuarded.append {a b : Text} (ha : IsGuarded a) (hb : IsGuarded b) :
    IsGuarded (a ++ b) := by
  cases a with
  | nil => exact hb
  | cons c a =>
    refine ⟨isChain_append.mpr ⟨ha.1, hb.1, fun x _ y hy h => ?_⟩, ha.2⟩
    rw [h.2] at hy
    exact hb.2 hy

variable {l : Text}

theorem IsGuarded.of_notMem (h : byte '?' ∉ l) : IsGuarded l := by
  refine ⟨?_, fun hhead => h (mem_of_head? hhead)⟩
  induction l with
  | nil => exact List.IsChain.nil
  | cons a l ih =>
    cases l with
    | nil => exact List.IsChain.singleton a
    | cons b l =>
      refine isChain_cons_cons.mpr ⟨fun hab => h (hab.1 ▸ mem_cons_self), ?_⟩
      exact ih fun hmem => h (mem_cons_of_mem a hmem)

theorem IsGuarded.escaped (c : UInt8) : IsGuarded [byte '\\', c] :=
  ⟨isChain_cons_cons.mpr ⟨fun h => absurd h.1 (by decide), List.IsChain.singleton c⟩,
    by simp⟩

theorem EscapePiece.emitted_isGuarded (next : List EscapePiece) (piece : EscapePiece) :
    IsGuarded (piece.emitted next) := by
  cases piece with
  | plain c h =>
    rw [EscapePiece.emitted]
    split_ifs with hret hquest
    · exact IsGuarded.escaped (byte 'r')
    · exact IsGuarded.escaped (byte '?')
    · exact IsGuarded.of_notMem fun hmem => hquest (mem_singleton.mp hmem).symm
  | simple escape h =>
    rw [EscapePiece.emitted]
    split_ifs
    · exact IsGuarded.of_notMem (by decide)
    · exact IsGuarded.escaped escape
  | hex high low h =>
    have hdig : ∀ c, isxdigit c = true → byte '?' ≠ c := by
      rintro c hc rfl
      exact absurd hc (by decide)
    refine IsGuarded.append (IsGuarded.of_notMem ?_) ?_
    · simp only [mem_cons, not_mem_nil, or_false, not_or]
      exact ⟨by decide, by decide, hdig high h.1, hdig low h.2⟩
    · split_ifs
      · exact IsGuarded.of_notMem (by decide)
      · exact IsGuarded.nil

variable (pieces : List EscapePiece)

theorem piecesEmitted_isGuarded : IsGuarded (piecesEmitted pieces) := by
  induction pieces with
  | nil => exact IsGuarded.nil
  | cons piece next ih => exact (piece.emitted_isGuarded next).append ih

theorem emitRawByte_isGuarded (c : UInt8) : IsGuarded (emitRawByte c) := by
  unfold emitRawByte
  split_ifs with h1 h2 h3 h4 h5 h6
  · exact IsGuarded.escaped (byte '\\')
  · exact IsGuarded.escaped (byte '"')
  · exact IsGuarded.escaped (byte 'n')
  · exact IsGuarded.escaped (byte 'r')
  · exact IsGuarded.escaped (byte 't')
  · exact IsGuarded.escaped (byte '?')
  · exact IsGuarded.of_notMem fun hmem => h6 (mem_singleton.mp hmem).symm

theorem flatMap_emitRawByte_isGuarded (l : Text) : IsGuarded (l.flatMap emitRawByte) := by
  induction l with
  | nil => exact IsGuarded.nil
  | cons c l ih => exact (emitRawByte_isGuarded c).append ih

theorem cStringBytes_quoted {body : Text} (h : IsGuarded body) :
    cStringBytes (quoted body) = CString.read .inside (body ++ [byte '"']) := by
  have hq : IsGuarded [byte '"'] := IsGuarded.of_notMem (by decide)
  have hguarded : IsGuarded (quoted body) := hq.append (h.append hq)
  rw [cStringBytes, replaceTrigraphs_of_isChain hguarded.1, quoted, cons_append,
    CString.read_cons_of_step (show CString.step .outside (byte '"') = some ([], .inside) from rfl)]
  exact Option.map_id'

/-! ### Reading raw strings -/

theorem read_quote : CString.read .inside [byte '"'] = some [] := rfl

theorem read_emitRawByte (c : UInt8) (l : Text) :
    CString.read .inside (emitRawByte c ++ l) = (CString.read .inside l).map (c :: ·) := by
  unfold emitRawByte
  split_ifs with h1 h2 h3 h4 h5 h6
  · subst h1; exact CString.read_simple rfl (by decide) rfl l
  · subst h2; exact CString.read_simple rfl (by decide) rfl l
  · subst h3; exact CString.read_simple rfl (by decide) rfl l
  · subst h4; exact CString.read_simple rfl (by decide) rfl l
  · subst h5; exact CString.read_simple rfl (by decide) rfl l
  · subst h6; exact CString.read_simple rfl (by decide) rfl l
  · exact CString.read_plain h2 h1 h3 l

theorem read_rawEmitted (value : Text) :
    CString.read .inside (value.flatMap emitRawByte ++ [byte '"']) = some value := by
  induction value with
  | nil => rfl
  | cons c value ih => rw [flatMap_cons, append_assoc, read_emitRawByte, ih]; rfl

/-! ### Reading escaped strings -/

/-- A text that no escape in front of it takes bytes of: it begins with a quote or a backslash. -/
inductive EndsPieces : Text → Prop
  | quote (l : Text) : EndsPieces (byte '"' :: l)
  | backslash (l : Text) : EndsPieces (byte '\\' :: l)

variable {tail : Text}

theorem exists_head_emitted (htail : EndsPieces tail) (pieces : List EscapePiece) : ∃ c l,
    piecesEmitted pieces ++ tail = c :: l ∧ ∀ P : UInt8 → Bool, P (byte '"') = false →
      P (byte '\\') = false → P (byte '$') = false → P (byte '?') = false →
        P (byte '\r') = false → P c = pieces.head?.any (EscapePiece.isPlainWith P) := by
  cases pieces with
  | nil =>
    cases htail with
    | quote l => exact ⟨byte '"', l, rfl, fun P hq _ _ _ _ => hq⟩
    | backslash l => exact ⟨byte '\\', l, rfl, fun P _ hesc _ _ _ => hesc⟩
  | cons piece next =>
    rw [piecesEmitted, append_assoc]
    cases piece with
    | plain c h =>
      simp only [EscapePiece.emitted]
      split_ifs with hret hquest
      · exact ⟨_, _, rfl, fun P _ hesc _ _ hP => by subst hret; exact hesc.trans hP.symm⟩
      · exact ⟨_, _, rfl, fun P _ hesc _ hP _ => by subst hquest; exact hesc.trans hP.symm⟩
      · exact ⟨c, _, rfl, fun _ _ _ _ _ _ => rfl⟩
    | simple escape h =>
      simp only [EscapePiece.emitted]
      split_ifs
      · exact ⟨_, _, rfl, fun P _ _ hdollar _ _ => hdollar⟩
      · exact ⟨_, _, rfl, fun P _ hesc _ _ _ => hesc⟩
    | hex high low h => exact ⟨_, _, rfl, fun P _ hesc _ _ _ => hesc⟩

theorem read_hexEscape {high low : UInt8} (h : isxdigit high = true ∧ isxdigit low = true)
    (l : Text) : CString.read .inside ([byte '\\', byte 'x', high, low] ++ l) =
      CString.read (.hex 2 (hexDigitValue high * 16 + hexDigitValue low)) l := by
  have hback : CString.step .inside (byte '\\') = some ([], .escape) := rfl
  have hx : CString.step .escape (byte 'x') = some ([], .hex 0 0) := rfl
  change CString.read .inside (byte '\\' :: byte 'x' :: high :: low :: l) = _
  rw [CString.read_cons_of_step hback, CString.read_cons_of_step hx,
    CString.read_hex_digit h.1, CString.read_hex_digit h.2, Option.map_map]
  have hval : 16 * (16 * 0 + hexDigitValue high) + hexDigitValue low =
      hexDigitValue high * 16 + hexDigitValue low := by omega
  rw [hval]
  exact Option.map_id'

variable {c : UInt8}

theorem hexDigitValue_le (h : isxdigit c = true) : hexDigitValue c ≤ 15 := by
  simp only [isxdigit, isdigit, or_eq_true, and_eq_true, decide_eq_true_eq,
    UInt8.le_iff_toNat_le] at h
  simp only [byte] at h
  unfold hexDigitValue isdigit
  simp only [and_eq_true, decide_eq_true_eq, UInt8.le_iff_toNat_le, byte]
  split_ifs <;> simp_all <;> omega

/-- C reads the hexadecimal escape of a piece as its byte: the literal is broken in front of a
digit. -/
theorem read_hexPiece (htail : EndsPieces tail) {high low : UInt8} (h : isxdigit high = true ∧ isxdigit low = true)
    (next : List EscapePiece) : CString.read .inside
        (EscapePiece.emitted next (.hex high low h) ++ (piecesEmitted next ++ tail)) =
      (CString.read .inside (piecesEmitted next ++ tail)).map
        ((EscapePiece.hex high low h).decoded :: ·) := by
  have hval : hexDigitValue high * 16 + hexDigitValue low ≤ 255 := by
    have := hexDigitValue_le h.1
    have := hexDigitValue_le h.2
    omega
  obtain ⟨c, l, hl, hc⟩ := exists_head_emitted htail next
  rw [EscapePiece.emitted, append_assoc, read_hexEscape h]
  by_cases hbreak : next.head?.any (EscapePiece.isPlainWith isxdigit) = true
  · rw [if_pos hbreak]
    have hq : CString.step .inside (byte '"') = some ([], .outside) := rfl
    have hsp : CString.step .outside (byte ' ') = some ([], .outside) := rfl
    have hopen : CString.step .outside (byte '"') = some ([], .inside) := rfl
    change CString.read _ (byte '"' :: byte ' ' :: byte '"' :: _) = _
    rw [CString.read_hex_of_not (by decide) hval (by decide), CString.read_cons_of_step hq,
      CString.read_cons_of_step hsp, CString.read_cons_of_step hopen, Option.map_map,
      Option.map_map, Option.map_map]
    rfl
  · have hdig : isxdigit c = false := by
      rw [hc isxdigit (by decide) (by decide) (by decide) (by decide) (by decide)]
      exact eq_false_iff.mpr hbreak
    rw [if_neg hbreak, nil_append, hl, CString.read_hex_of_not (by decide) hval hdig]
    rfl

theorem read_piece (htail : EndsPieces tail) {piece : EscapePiece}
    (h : ∀ hnul, piece ≠ .simple (byte '0') hnul)
    (next : List EscapePiece) :
    CString.read .inside (piece.emitted next ++ (piecesEmitted next ++ tail)) =
      (CString.read .inside (piecesEmitted next ++ tail)).map (piece.decoded :: ·) := by
  cases piece with
  | plain c hc =>
    obtain ⟨-, hesc, hq, hline⟩ := EscapePiece.isPlainByte_iff.mp hc
    rw [EscapePiece.emitted]
    split_ifs with hret hquest
    · subst hret
      exact CString.read_simple rfl (by decide) rfl _
    · subst hquest
      exact CString.read_simple rfl (by decide) rfl _
    · exact CString.read_plain hq hesc hline _
  | simple escape hesc =>
    rcases EscapePiece.isStringEscape_cases hesc with
      rfl | rfl | rfl | rfl | rfl | rfl | rfl | rfl | rfl | rfl | rfl | rfl
    case inr.inr.inr.inr.inr.inr.inl => exact absurd rfl (h hesc)
    case inr.inr.inr.inr.inr.inr.inr.inr.inr.inr.inr =>
      exact CString.read_plain (by decide) (by decide) (by decide) _
    all_goals exact CString.read_simple rfl (by decide) rfl _
  | hex high low hhex => exact read_hexPiece htail hhex next

theorem read_nulPiece (hnul : isStringEscape (byte '0') = true) (next : List EscapePiece)
    (l : Text) : CString.read .inside (EscapePiece.emitted next (.simple (byte '0') hnul) ++ l) =
      CString.read (.octal 1 0) l := by
  have hback : CString.step .inside (byte '\\') = some ([], .escape) := rfl
  have hzero : CString.step .escape (byte '0') = some ([], .octal 1 0) := rfl
  change CString.read .inside (byte '\\' :: byte '0' :: l) = _
  rw [CString.read_cons_of_step hback, CString.read_cons_of_step hzero, Option.map_map]
  exact Option.map_id'

theorem emitted_of_isOctalDigit (h : isPlainStringByte c = true)
    (hc : isOctalDigit c = true) (next : List EscapePiece) :
    EscapePiece.emitted next (.plain c h) = [c] := by
  rw [EscapePiece.emitted, if_neg, if_neg]
  · rintro rfl
    exact absurd hc (by decide)
  · rintro rfl
    exact absurd hc (by decide)

/-- A `\0` in front of an octal digit. -/
def hasNulBeforeOctal : List EscapePiece → Bool
  | [] => false
  | piece :: next =>
    (match piece with
      | .simple escape _ => escape = byte '0' && next.head?.any (EscapePiece.isPlainWith isOctalDigit)
      | _ => false) || hasNulBeforeOctal next

/-- What C reads in the text of pieces: their bytes, or fewer where an octal escape takes digits.
One byte fewer and the NUL at the end are not the bytes either. -/
structure ReadsAs (pieces : List EscapePiece) (array : Text) : Prop where
  length_le : array.length ≤ pieces.length
  eq_decoded : hasNulBeforeOctal pieces = false → array = pieces.map EscapePiece.decoded
  length_lt : hasNulBeforeOctal pieces = true → array.length < pieces.length
  ne_decoded : hasNulBeforeOctal pieces = true → array ++ [0] ≠ pieces.map EscapePiece.decoded

variable {next : List EscapePiece} {array : Text}

theorem ReadsAs.cons (h : ReadsAs next array)
    {piece : EscapePiece} (hpc : hasNulBeforeOctal (piece :: next) = hasNulBeforeOctal next) :
    ReadsAs (piece :: next) (piece.decoded :: array) where
  length_le := Nat.succ_le_succ h.length_le
  eq_decoded hnone := congrArg (piece.decoded :: ·) (h.eq_decoded (hpc ▸ hnone))
  length_lt hsome := Nat.succ_lt_succ (h.length_lt (hpc ▸ hsome))
  ne_decoded hsome heq := h.ne_decoded (hpc ▸ hsome) (List.cons.inj heq).2

theorem ReadsAs.cons_octal (h : ReadsAs next array)
    {nul digit : EscapePiece} (hmerge : hasNulBeforeOctal (nul :: digit :: next) = true)
    (hdig : digit.decoded ≠ 0) (value : UInt8) :
    ReadsAs (nul :: digit :: next) (value :: array) := by
  have hle := h.length_le
  refine ⟨by simp only [length_cons]; omega, fun hnone => ?_, fun _ => ?_, fun _ heq => ?_⟩
  · rw [hmerge] at hnone
    cases hnone
  · simp only [length_cons]
    omega
  · -- Of the bytes after the escape, one side has a zero more than the other.
    have htail : array ++ [0] = (digit :: next).map EscapePiece.decoded := (List.cons.inj heq).2
    have hlen := congrArg List.length htail
    simp only [length_append, length_nil, map_cons, length_cons, length_map] at hlen
    have hnone : hasNulBeforeOctal next = false := by
      rw [← not_eq_true]
      intro hsome
      have := h.length_lt hsome
      omega
    rw [h.eq_decoded hnone] at htail
    have hcnt := congrArg (List.count 0) htail
    rw [map_cons, count_append, count_cons_of_ne hdig] at hcnt
    simp at hcnt

theorem ReadsAs.cons_octal_octal (h : ReadsAs next array)
    {nul first second : EscapePiece}
    (hmerge : hasNulBeforeOctal (nul :: first :: second :: next) = true) (value : UInt8) :
    ReadsAs (nul :: first :: second :: next) (value :: array) := by
  have hle := h.length_le
  refine ⟨by simp only [length_cons]; omega, fun hnone => ?_, fun _ => ?_, fun _ heq => ?_⟩
  · rw [hmerge] at hnone
    cases hnone
  · simp only [length_cons]
    omega
  · have hlen := congrArg List.length heq
    simp only [length_append, length_nil, map_cons, length_cons, length_map] at hlen
    omega

theorem isOctalDigit_value_le (h : isOctalDigit c = true) : hexDigitValue c ≤ 7 := by
  have hdig : isdigit c = true := by
    simp only [isOctalDigit, isdigit, and_eq_true, decide_eq_true_eq] at h ⊢
    exact ⟨h.1, UInt8.le_trans h.2 (by decide : byte '7' ≤ byte '9')⟩
  have hle : c.toNat ≤ 55 := by
    simp only [isOctalDigit, and_eq_true, decide_eq_true_eq, UInt8.le_iff_toNat_le] at h
    exact h.2
  rw [hexDigitValue, if_pos hdig]
  omega

theorem read_octal_next (htail : EndsPieces tail) {next : List EscapePiece} {digits value : ℕ} (hval : value ≤ 255)
    (hdig : digits < 3 → next.head?.any (EscapePiece.isPlainWith isOctalDigit) = false) :
    CString.read (.octal digits value) (piecesEmitted next ++ tail) =
      (CString.read .inside (piecesEmitted next ++ tail)).map (value.toUInt8 :: ·) := by
  obtain ⟨c, l, hl, hc⟩ := exists_head_emitted htail next
  rw [hl]
  refine CString.read_octal_of_not hval (fun h => ?_) l
  have hoctal := hdig h.1
  rw [← hc isOctalDigit (by decide) (by decide) (by decide) (by decide) (by decide), h.2] at hoctal
  cases hoctal

theorem exists_plain_of_head {P : UInt8 → Bool}
    (h : next.head?.any (EscapePiece.isPlainWith P) = true) :
    ∃ c hc rest, next = .plain c hc :: rest ∧ P c = true := by
  match next, h with
  | .plain c hc :: rest, h => exact ⟨c, hc, rest, rfl, h⟩

theorem read_piecesEmitted (htail : EndsPieces tail) (pieces : List EscapePiece) :
    ∃ array, CString.read .inside (piecesEmitted pieces ++ tail) =
      (CString.read .inside tail).map (array ++ ·) ∧ ReadsAs pieces array := by
  induction hn : pieces.length using Nat.strong_induction_on generalizing pieces with
  | _ n ih =>
    subst hn
    cases pieces with
    | nil =>
      refine ⟨[], Option.map_id'.symm, ⟨le_rfl, fun _ => rfl, fun h => ?_, fun h => ?_⟩⟩
      · cases h
      · cases h
    | cons piece next =>
      by_cases hnul : ∃ hnul, piece = .simple (byte '0') hnul
      · obtain ⟨hnul, rfl⟩ := hnul
        rw [piecesEmitted, append_assoc, read_nulPiece]
        by_cases hoctal : next.head?.any (EscapePiece.isPlainWith isOctalDigit) = true
        · have hmerge : hasNulBeforeOctal (.simple (byte '0') hnul :: next) = true := by
            simp [hasNulBeforeOctal, hoctal]
          obtain ⟨c, hc, rest, rfl, hdig⟩ := exists_plain_of_head hoctal
          have hval := isOctalDigit_value_le hdig
          have hzero : c ≠ 0 := (EscapePiece.isPlainByte_iff.mp hc).1
          rw [piecesEmitted, emitted_of_isOctalDigit hc hdig, append_assoc,
            singleton_append, CString.read_octal_digit (by decide) hdig]
          by_cases hsnd : rest.head?.any (EscapePiece.isPlainWith isOctalDigit) = true
          · obtain ⟨d, hd, rest', rfl, hdig'⟩ := exists_plain_of_head hsnd
            have hval' := isOctalDigit_value_le hdig'
            obtain ⟨array, hread, hrd⟩ := ih rest'.length (by simp only [length_cons]; omega)
              rest' rfl
            rw [piecesEmitted, emitted_of_isOctalDigit hd hdig', append_assoc,
              singleton_append, CString.read_octal_digit (by decide) hdig',
              read_octal_next htail (by omega) (fun h => absurd h (by decide)), hread, Option.map_map]
            exact ⟨_, rfl, hrd.cons_octal_octal hmerge _⟩
          · obtain ⟨array, hread, hrd⟩ := ih rest.length (by simp only [length_cons]; omega)
              rest rfl
            rw [read_octal_next htail (by omega) (fun _ => eq_false_iff.mpr hsnd), hread, Option.map_map]
            exact ⟨_, rfl, hrd.cons_octal hmerge hzero _⟩
        · obtain ⟨array, hread, hrd⟩ := ih next.length (Nat.lt_succ_self _) next rfl
          rw [read_octal_next htail (by decide) (fun _ => eq_false_iff.mpr hoctal), hread, Option.map_map]
          refine ⟨_, rfl, hrd.cons ?_⟩
          simp [hasNulBeforeOctal, hoctal]
      · obtain ⟨array, hread, hrd⟩ := ih next.length (Nat.lt_succ_self _) next rfl
        rw [piecesEmitted, append_assoc, read_piece htail (fun h hpc => hnul ⟨h, hpc⟩), hread, Option.map_map]
        refine ⟨_, rfl, hrd.cons ?_⟩
        cases piece with
        | simple escape hesc =>
          have hne : escape ≠ byte '0' := by
            rintro rfl
            exact hnul ⟨hesc, rfl⟩
          simp only [hasNulBeforeOctal, decide_eq_false hne, Bool.false_and, Bool.false_or]
        | plain c hc => rfl
        | hex high low h => rfl

/-! ### Properties of the escapes -/

/-- An escape of a text has the property `P` of its letter and of what follows. The text is entered
after a backslash or at another byte. -/
def anyEscape (P : UInt8 → Text → Bool) : Bool → Text → Bool
  | _, [] => false
  | true, c :: l => P c l || anyEscape P false l
  | false, c :: l => anyEscape P (c = byte '\\') l

/-- `\0` or `\x00`. -/
def isNulEscape (escape : UInt8) (l : Text) : Bool :=
  escape = byte '0' || (escape = byte 'x' && byteAt l 0 = byte '0' && byteAt l 1 = byte '0')

/-- A hexadecimal escape other than `\x00`. -/
def isOtherHexEscape (escape : UInt8) (l : Text) : Bool :=
  escape = byte 'x' && !(byteAt l 0 = byte '0' && byteAt l 1 = byte '0')

/-- `\0` in front of an octal digit. -/
def isNulBeforeOctal (escape : UInt8) (l : Text) : Bool :=
  escape = byte '0' && isOctalDigit (byteAt l 0)

namespace EscapePiece

def escapeHas (P : UInt8 → Text → Bool) (l : Text) : EscapePiece → Bool
  | plain _ _ => false
  | simple escape _ => P escape l
  | hex high low _ => P (byte 'x') (high :: low :: l)

/-- A hexadecimal escape other than `\x00`. -/
def isOtherHex : EscapePiece → Bool
  | plain _ _ | simple _ _ => false
  | hex high low _ => !(high = byte '0' && low = byte '0')

end EscapePiece

theorem anyEscape_piece (P : UInt8 → Text → Bool) (piece : EscapePiece) (l : Text) :
    anyEscape P false (piece.text ++ l) = (piece.escapeHas P l || anyEscape P false l) := by
  cases piece with
  | plain c h =>
    have hesc := (EscapePiece.isPlainByte_iff.mp h).2.1
    change anyEscape P (c = byte '\\') l = _
    rw [decide_eq_false hesc]
    rfl
  | simple escape h => rfl
  | hex high low h =>
    have hdig : ∀ c, isxdigit c = true → decide (c = byte '\\') = false := by
      intro c hc
      refine decide_eq_false ?_
      rintro rfl
      exact absurd hc (by decide)
    change (P (byte 'x') (high :: low :: l) || anyEscape P (high = byte '\\') (low :: l)) = _
    rw [hdig high h.1]
    change (P (byte 'x') (high :: low :: l) || anyEscape P (low = byte '\\') l) = _
    rw [hdig low h.2]
    rfl

theorem anyEscape_pieces {P : UInt8 → Text → Bool} {p : EscapePiece → Bool}
    (h : ∀ piece l, EscapePiece.escapeHas P l piece = p piece) (pieces : List EscapePiece) :
    anyEscape P false (piecesText pieces) = pieces.any p := by
  induction pieces with
  | nil => rfl
  | cons piece next ih => rw [piecesText_cons, anyEscape_piece, h, ih, any_cons]

theorem ne_x_of_isStringEscape {escape : UInt8} (h : isStringEscape escape = true) :
    escape ≠ byte 'x' := by
  rintro rfl
  exact absurd h (by decide)

theorem anyEscape_isNulEscape :
    anyEscape isNulEscape false (piecesText pieces) = pieces.any EscapePiece.isNul := by
  refine anyEscape_pieces (fun piece l => ?_) pieces
  cases piece with
  | plain c h => rfl
  | simple escape h =>
    rw [EscapePiece.escapeHas, isNulEscape, decide_eq_false (ne_x_of_isStringEscape h),
      Bool.false_and, Bool.false_and, Bool.or_false, EscapePiece.isNul]
  | hex high low h => rfl

theorem anyEscape_isOtherHexEscape :
    anyEscape isOtherHexEscape false (piecesText pieces) = pieces.any EscapePiece.isOtherHex := by
  refine anyEscape_pieces (fun piece l => ?_) pieces
  cases piece with
  | plain c h => rfl
  | simple escape h =>
    rw [EscapePiece.escapeHas, isOtherHexEscape, decide_eq_false (ne_x_of_isStringEscape h),
      Bool.false_and, EscapePiece.isOtherHex]
  | hex high low h => rfl

theorem anyEscape_isNulBeforeOctal :
    anyEscape isNulBeforeOctal false (piecesText pieces) = hasNulBeforeOctal pieces := by
  induction pieces with
  | nil => rfl
  | cons piece next ih =>
    have hnext : isOctalDigit (byteAt (piecesText next) 0) =
        next.head?.any (EscapePiece.isPlainWith isOctalDigit) := by
      have hbyte := byteAt_piecesText next (show isOctalDigit (byteAt [] 0) = false by decide)
        (by decide)
      rwa [append_nil] at hbyte
    rw [piecesText_cons, anyEscape_piece, ih]
    cases piece with
    | plain c h => rfl
    | simple escape h =>
      rw [EscapePiece.escapeHas, isNulBeforeOctal, hnext]
      rfl
    | hex high low h => rfl

theorem sum_counted : (pieces.map EscapePiece.counted).sum =
      pieces.length + 2 * pieces.countP EscapePiece.isOtherHex := by
  induction pieces with
  | nil => rfl
  | cons piece next ih =>
    have hcounted : piece.counted = 1 + 2 * (if piece.isOtherHex then 1 else 0) := by
      cases piece with
      | plain c h => rfl
      | simple escape h => rfl
      | hex high low h =>
        by_cases hnul : high = byte '0' ∧ low = byte '0'
        · simp [EscapePiece.counted, EscapePiece.isOtherHex, hnul]
        · have hoth : (EscapePiece.hex high low h).isOtherHex = true := by
            simp only [EscapePiece.isOtherHex, Bool.not_eq_true', Bool.and_eq_false_iff,
              decide_eq_false_iff_not]
            exact not_and_or.mp hnul
          rw [EscapePiece.counted, if_neg hnul, if_pos hoth]
    rw [map_cons, sum_cons, ih, hcounted, length_cons, countP_cons]
    omega

/-! ### What the lengths take -/

theorem ReadsAs.eq_decoded_iff {pieces : List EscapePiece} {array : Text} (h : ReadsAs pieces array) :
    array = pieces.map EscapePiece.decoded ↔ hasNulBeforeOctal pieces = false := by
  refine ⟨fun heq => ?_, h.eq_decoded⟩
  rw [← not_eq_true]
  intro hsome
  have hlen := h.length_lt hsome
  rw [heq, length_map] at hlen
  exact Nat.lt_irrefl _ hlen

theorem ReadsAs.takes_length_iff {pieces : List EscapePiece} {array : Text}
    (h : ReadsAs pieces array) :
    (EmittedLength.explicit pieces.length).takes array = some (pieces.map EscapePiece.decoded) ↔
      hasNulBeforeOctal pieces = false := by
  rw [EmittedLength.takes]
  constructor
  · intro htakes
    rw [← not_eq_true]
    intro hsome
    split_ifs at htakes with hle
    have hlen := h.length_lt hsome
    refine h.ne_decoded hsome ?_
    rw [← Option.some.inj htakes, take_of_length_le]
    rw [length_append, length_singleton]
    omega
  · intro hnone
    have heq := h.eq_decoded hnone
    have hlen : array.length = pieces.length := by rw [heq, length_map]
    rw [if_pos (by omega), ← hlen, take_left, heq]

theorem ReadsAs.takes_of_lt {pieces : List EscapePiece} {array : Text} (h : ReadsAs pieces array)
    {length : ℕ} (hlen : pieces.length + 1 < length) :
    (EmittedLength.explicit length).takes array = none := by
  have hle := h.length_le
  rw [EmittedLength.takes, if_neg (by omega)]

theorem eq_zero_of_hexDigitValue (hzero : hexDigitValue c = 0) : c = byte '0' := by
  unfold hexDigitValue at hzero
  by_cases hdig : isdigit c = true
  · rw [if_pos hdig] at hzero
    simp only [isdigit, and_eq_true, decide_eq_true_eq, UInt8.le_iff_toNat_le] at hdig
    have hlow : 48 ≤ c.toNat := hdig.1
    refine UInt8.toNat_inj.mp ?_
    change c.toNat = 48
    omega
  · rw [if_neg hdig] at hzero
    split_ifs at hzero

theorem EscapePiece.decoded_ne_zero {piece : EscapePiece} (h : piece.isNul = false) :
    piece.decoded ≠ 0 := by
  cases piece with
  | plain c hc => exact (isPlainByte_iff.mp hc).1
  | simple escape hesc =>
    change decide (escape = byte '0') = false at h
    change decodeEscape escape ≠ 0
    rcases isStringEscape_cases hesc with
      rfl | rfl | rfl | rfl | rfl | rfl | rfl | rfl | rfl | rfl | rfl | rfl
    all_goals first
      | decide
      | exact absurd h (by decide)
  | hex high low hhex =>
    have hhigh := hexDigitValue_le hhex.1
    have hlow := hexDigitValue_le hhex.2
    intro hzero
    have hnat : (hexDigitValue high * 16 + hexDigitValue low).toUInt8.toNat = 0 :=
      congrArg UInt8.toNat hzero
    rw [Nat.toUInt8, UInt8.toNat_ofNat', Nat.mod_eq_of_lt (by omega)] at hnat
    have hhigh' := eq_zero_of_hexDigitValue (c := high) (by omega)
    have hlow' := eq_zero_of_hexDigitValue (c := low) (by omega)
    simp [isNul, hhigh', hlow'] at h

theorem takeWhile_ne_zero (h : ∀ c ∈ l, c ≠ 0) : EmittedLength.measured.takes l = some l := by
  rw [EmittedLength.takes, takeWhile_eq_self_iff.mpr]
  intro c hc
  simpa using h c hc

theorem takes_measured {pieces : List EscapePiece} (hnul : pieces.any EscapePiece.isNul = false) :
    EmittedLength.measured.takes (pieces.map EscapePiece.decoded) =
      some (pieces.map EscapePiece.decoded) := by
  refine takeWhile_ne_zero fun c hc => ?_
  obtain ⟨piece, hpc, rfl⟩ := mem_map.mp hc
  exact EscapePiece.decoded_ne_zero
    (eq_false_iff.mpr fun h => eq_false_iff.mp hnul (any_eq_true.mpr ⟨piece, hpc, h⟩))

/-! ### The emitted string -/

/-- Where a string literal is emitted: as a value at an indentation, or as a value of a string
enum. -/
inductive EmissionPlace
  | value (indent : ℕ)
  | enumValue

def emitAt : EmissionPlace → StringValueNode → EmittedString
  | .value indent, node => emitStringValue indent node
  | .enumValue, node => emitEnumStringValue node

/-- The emitted string denotes the bytes that the literal stands for. -/
def DenotesDecoded (place : EmissionPlace) (node : StringValueNode) : Prop :=
  (emitAt place node).denotes = some (astStringDecode node)

instance (place : EmissionPlace) (node : StringValueNode) : Decidable (DenotesDecoded place node) :=
  inferInstanceAs (Decidable (_ = _))

/-- A literal that the lexer accepts. -/
structure AcceptedString where
  node : StringValueNode
  accepted : AcceptsString node

/-- The place is inside a function. -/
def EmissionPlace.isIndented : EmissionPlace → Bool
  | .value indent => decide (0 < indent)
  | .enumValue => false

/-- Where the emitted string denotes the bytes of the literal. An escaped literal has no NUL byte,
no `\0` in front of an octal digit and, inside a function, no NUL escape beside another hexadecimal
escape; a raw string has, inside a function, no NUL escape. -/
def literalDenotes (place : EmissionPlace) (node : StringValueNode) : Bool :=
  if node.isRaw then !(place.isIndented && anyEscape isNulEscape false node.value)
  else !node.value.contains 0 && !anyEscape isNulBeforeOctal false node.value &&
    !(place.isIndented && anyEscape isNulEscape false node.value &&
      anyEscape isOtherHexEscape false node.value)

theorem EmittedString.denotes_of_read {emitted : EmittedString} {array : Text}
    (h : cStringBytes emitted.text = some array) :
    emitted.denotes = emitted.length.takes array := by
  rw [denotes, h]
  rfl

variable (place : EmissionPlace)

theorem emitAt_text (node : StringValueNode) :
    (emitAt place node).text = quoted (emitCStringBody node) := by
  cases place <;> rfl

theorem emitStringValue_length_zero (node : StringValueNode) :
    (emitStringValue 0 node).length = .sized := by
  simp [emitStringValue]

theorem emitStringValue_length_succ (indent : ℕ) (node : StringValueNode) :
    (emitStringValue (indent + 1) node).length =
      if (scanNulBytes node.value).1 then .explicit (scanNulBytes node.value).2 else .measured := by
  simp [emitStringValue]

/-! ### Escaped literals -/

theorem zero_notMem_piecesText : (0 : UInt8) ∉ piecesText pieces := by
  intro hmem
  obtain ⟨piece, -, hpc⟩ := mem_flatMap.mp hmem
  cases piece with
  | plain c h =>
    exact (EscapePiece.isPlainByte_iff.mp h).1 (mem_singleton.mp hpc).symm
  | simple escape h =>
    simp only [EscapePiece.text, mem_cons, not_mem_nil, or_false] at hpc
    rcases hpc with hzero | rfl
    · exact absurd hzero (by decide)
    · exact absurd h (by decide)
  | hex high low h =>
    simp only [EscapePiece.text, mem_cons, not_mem_nil, or_false] at hpc
    rcases hpc with hzero | hzero | rfl | rfl
    · exact absurd hzero (by decide)
    · exact absurd hzero (by decide)
    · exact absurd h.1 (by decide)
    · exact absurd h.2 (by decide)

theorem literalDenotes_pieces (pieces : List EscapePiece) :
    literalDenotes place ⟨piecesText pieces, false⟩ = (!hasNulBeforeOctal pieces &&
      !(place.isIndented && pieces.any EscapePiece.isNul && pieces.any EscapePiece.isOtherHex)) := by
  have hzero : (piecesText pieces).contains 0 = false := by
    simpa using zero_notMem_piecesText pieces
  rw [literalDenotes, if_neg Bool.false_ne_true]
  simp only [hzero, anyEscape_isNulBeforeOctal, anyEscape_isNulEscape, anyEscape_isOtherHexEscape,
    Bool.not_false, Bool.true_and]

theorem any_isNul_of_hasNulBeforeOctal {pieces : List EscapePiece}
    (h : hasNulBeforeOctal pieces = true) : pieces.any EscapePiece.isNul = true := by
  induction pieces with
  | nil => cases h
  | cons piece next ih =>
    cases piece with
    | plain c hc => exact ih h
    | simple escape hesc =>
      rw [any_cons, or_eq_true]
      rw [hasNulBeforeOctal, or_eq_true] at h
      exact h.imp (fun h => (Bool.and_eq_true_iff.mp h).1) ih
    | hex high low hhex =>
      rw [any_cons, or_eq_true]
      exact .inr (ih h)

theorem denotesDecoded_pieces (pieces : List EscapePiece) :
    DenotesDecoded place ⟨piecesText pieces, false⟩ ↔
      literalDenotes place ⟨piecesText pieces, false⟩ = true := by
  obtain ⟨array, hread, hrd⟩ := read_piecesEmitted (.quote []) pieces
  have hbyt : cStringBytes (emitAt place ⟨piecesText pieces, false⟩).text = some array := by
    rw [emitAt_text, emitCStringBody_pieces, cStringBytes_quoted (piecesEmitted_isGuarded pieces),
      hread, read_quote, Option.map_some, append_nil]
  rw [DenotesDecoded, EmittedString.denotes_of_read hbyt, astStringDecode_pieces,
    literalDenotes_pieces]
  cases place with
  | enumValue =>
    change (EmittedLength.explicit (astStringDecode ⟨piecesText pieces, false⟩).length).takes array
      = _ ↔ _
    rw [astStringDecode_pieces, length_map, hrd.takes_length_iff]
    simp [EmissionPlace.isIndented]
  | value indent =>
    cases indent with
    | zero =>
      change (emitStringValue 0 _).length.takes array = _ ↔ _
      rw [emitStringValue_length_zero, EmittedLength.takes, Option.some_inj, hrd.eq_decoded_iff]
      simp [EmissionPlace.isIndented]
    | succ indent =>
      change (emitStringValue (indent + 1) _).length.takes array = _ ↔ _
      rw [emitStringValue_length_succ, scanNulBytes_pieces, sum_counted]
      have hind : (EmissionPlace.value (indent + 1)).isIndented = true :=
        decide_eq_true (Nat.succ_pos indent)
      by_cases hnul : pieces.any EscapePiece.isNul = true
      · rw [if_pos hnul]
        by_cases hoth : pieces.any EscapePiece.isOtherHex = true
        · have hcnt : 0 < pieces.countP EscapePiece.isOtherHex :=
            countP_pos_iff.mpr (any_eq_true.mp hoth)
          rw [hrd.takes_of_lt (by omega)]
          simp [hind, hnul, hoth]
        · have hcnt : pieces.countP EscapePiece.isOtherHex = 0 :=
            countP_eq_zero.mpr fun piece hpc h =>
              hoth (any_eq_true.mpr ⟨piece, hpc, h⟩)
          rw [hcnt, Nat.mul_zero, Nat.add_zero, hrd.takes_length_iff]
          simp [hoth]
      · have hnone : hasNulBeforeOctal pieces = false :=
          eq_false_iff.mpr fun h => hnul (any_isNul_of_hasNulBeforeOctal h)
        rw [if_neg hnul, hrd.eq_decoded hnone, takes_measured (eq_false_iff.mpr hnul)]
        simp [hnone, hnul]

theorem not_denotesDecoded_nul (pieces : List EscapePiece) (l : Text) :
    ¬ DenotesDecoded place ⟨piecesText pieces ++ byte '\\' :: 0 :: l, false⟩ := by
  obtain ⟨array, hread, -⟩ := read_piecesEmitted (.backslash [byte '"']) pieces
  have hguarded : IsGuarded (piecesEmitted pieces ++ [byte '\\']) :=
    (piecesEmitted_isGuarded pieces).append (IsGuarded.of_notMem (by decide))
  have hopen : CString.read .inside [byte '\\', byte '"'] = none := rfl
  rw [DenotesDecoded, EmittedString.denotes, emitAt_text, emitCStringBody_nul,
    cStringBytes_quoted hguarded, append_assoc, singleton_append, hread, hopen]
  exact Option.some_ne_none _ ∘ Eq.symm

/-! ### Raw strings -/

/-- What the loop that counts bytes does on a text: it sees the NUL escapes, and counts fewer bytes
than a text with one has. -/
structure CountsText (s : Bool × ℕ) (l : Text) (s' : Bool × ℕ) : Prop where
  fst_eq : s'.1 = (s.1 || anyEscape isNulEscape false l)
  snd_le : s'.2 ≤ s.2 + l.length
  snd_lt : anyEscape isNulEscape false l = true → s'.2 < s.2 + l.length

theorem CountsText.cons {s s' : Bool × ℕ} {u l : Text} (hu : u ≠ [])
    (hesc : anyEscape isNulEscape false (u ++ l) = anyEscape isNulEscape false l)
    (h : CountsText (s.1, s.2 + 1) l s') : CountsText s (u ++ l) s' := by
  have hpos := length_pos_iff.mpr hu
  have hle := h.snd_le
  refine ⟨?_, ?_, fun hnul => ?_⟩
  · rw [hesc]
    exact h.fst_eq
  · rw [length_append]
    dsimp only at hle
    omega
  · have hlt := h.snd_lt (hesc ▸ hnul)
    rw [length_append]
    dsimp only at hlt
    omega

theorem CountsText.cons_nul {s s' : Bool × ℕ} {u l : Text} (hu : 1 < u.length)
    (hesc : anyEscape isNulEscape false (u ++ l) = true)
    (h : CountsText (true, s.2 + 1) l s') : CountsText s (u ++ l) s' := by
  have hle := h.snd_le
  dsimp only at hle
  refine ⟨?_, ?_, fun _ => ?_⟩
  · rw [hesc, Bool.or_true]
    exact h.fst_eq
  · rw [length_append]
    omega
  · rw [length_append]
    omega

theorem scanNul_text (l : Text) (hl : 0 ∉ l) (s : Bool × ℕ) :
    CountsText s l (scanText scanNulStep s l).state := by
  induction hn : l.length using Nat.strong_induction_on generalizing l s with
  | _ n ih =>
    subst hn
    have hrnd : ∀ (u m : Text) (t : Bool × ℕ), l = u ++ m → u ≠ [] →
        scanNulStep s l = ⟨(), t, u.length - 1⟩ →
          (scanText scanNulStep s l).state = (scanText scanNulStep t m).state ∧
            CountsText t m (scanText scanNulStep t m).state := by
      rintro u m t rfl hu hstep
      have hpos := length_pos_iff.mpr hu
      have hfst : byteAt (u ++ m) 0 ≠ 0 := by
        cases u with
        | nil => exact absurd rfl hu
        | cons c u => exact fun hc => hl (by rw [← hc]; exact mem_cons_self)
      refine ⟨?_, ih m.length ?_ m (fun hmem => hl (mem_append_right u hmem)) t rfl⟩
      · rw [scanText_append hfst hstep (by dsimp only; omega)]
        rfl
      · rw [length_append]
        omega
    cases l with
    | nil => exact ⟨(Bool.or_false _).symm, le_rfl, fun h => by cases h⟩
    | cons c m =>
      by_cases hesc : c = byte '\\'
      · subst hesc
        cases m with
        | nil =>
          obtain ⟨hsta, hcnts⟩ := hrnd [byte '\\'] [] _ rfl (cons_ne_nil _ _) rfl
          rw [hsta]
          exact hcnts.cons (u := [byte '\\']) (cons_ne_nil _ _) rfl
        | cons d m =>
          have hd : d ≠ 0 := by
            rintro rfl
            exact hl (by simp)
          by_cases hx : d = byte 'x' ∧ byteAt m 0 = byte '0' ∧ byteAt m 1 = byte '0'
          · obtain ⟨rfl, hhigh, hlow⟩ := hx
            obtain ⟨m, rfl⟩ := cons_of_byteAt hhigh (by decide)
            obtain ⟨m, rfl⟩ := cons_of_byteAt hlow (by decide)
            obtain ⟨hsta, hcnts⟩ := hrnd [byte '\\', byte 'x', byte '0', byte '0'] m _ rfl
              (cons_ne_nil _ _) rfl
            rw [hsta]
            exact hcnts.cons_nul (u := [byte '\\', byte 'x', byte '0', byte '0']) (by simp) rfl
          by_cases hzero : d = byte '0'
          · subst hzero
            obtain ⟨hsta, hcnts⟩ := hrnd [byte '\\', byte '0'] m _ rfl
              (cons_ne_nil _ _) rfl
            rw [hsta]
            exact hcnts.cons_nul (u := [byte '\\', byte '0']) (by simp) rfl
          · have hnone : isNulEscape d m = false := by
              rw [isNulEscape, decide_eq_false hzero, Bool.false_or, eq_false_iff]
              intro h
              simp only [and_eq_true, decide_eq_true_eq] at h
              exact hx ⟨h.1.1, h.1.2, h.2⟩
            have hstep : scanNulStep s (byte '\\' :: d :: m) = ⟨(), (s.1, s.2 + 1), 1⟩ := by
              have hlet : byteAt (byte '\\' :: d :: m) 1 = d := rfl
              rw [scanNulStep, hlet, if_neg fun h => hx h.2, if_neg fun h => hzero h.2,
                if_pos ⟨rfl, hd⟩]
            obtain ⟨hsta, hcnts⟩ := hrnd [byte '\\', d] m _ rfl (cons_ne_nil _ _) hstep
            rw [hsta]
            refine hcnts.cons (u := [byte '\\', d]) (cons_ne_nil _ _) ?_
            change (isNulEscape d m || anyEscape isNulEscape false m) = _
            rw [hnone, Bool.false_or]
      · have hstep : scanNulStep s (c :: m) = ⟨(), (s.1, s.2 + 1), 0⟩ := by
          rw [scanNulStep, byteAt_zero, if_neg fun h => hesc h.1,
            if_neg fun h => hesc h.1, if_neg fun h => hesc h.1]
        obtain ⟨hsta, hcnts⟩ := hrnd [c] m _ rfl (cons_ne_nil _ _) hstep
        rw [hsta]
        refine hcnts.cons (u := [c]) (cons_ne_nil _ _) ?_
        change anyEscape isNulEscape (c = byte '\\') m = _
        rw [decide_eq_false hesc]

theorem denotesDecoded_raw {value : Text} (hval : 0 ∉ value) :
    DenotesDecoded place ⟨value, true⟩ ↔ literalDenotes place ⟨value, true⟩ = true := by
  have hbyt : cStringBytes (emitAt place ⟨value, true⟩).text = some value := by
    rw [emitAt_text]
    change cStringBytes (quoted (value.flatMap emitRawByte)) = _
    rw [cStringBytes_quoted (flatMap_emitRawByte_isGuarded value), read_rawEmitted]
  have hdecoded : astStringDecode ⟨value, true⟩ = value := rfl
  rw [DenotesDecoded, EmittedString.denotes_of_read hbyt, hdecoded, literalDenotes, if_pos rfl]
  cases place with
  | enumValue =>
    change (EmittedLength.explicit value.length).takes value = _ ↔ _
    rw [EmittedLength.takes, if_pos (Nat.le_succ _), take_left]
    simp [EmissionPlace.isIndented]
  | value indent =>
    cases indent with
    | zero =>
      change (emitStringValue 0 _).length.takes value = _ ↔ _
      rw [emitStringValue_length_zero, EmittedLength.takes]
      simp [EmissionPlace.isIndented]
    | succ indent =>
      change (emitStringValue (indent + 1) _).length.takes value = _ ↔ _
      have hind : (EmissionPlace.value (indent + 1)).isIndented = true :=
        decide_eq_true (Nat.succ_pos indent)
      have hcnts := scanNul_text value hval (false, 0)
      have hhas : (scanNulBytes value).1 = anyEscape isNulEscape false value :=
        hcnts.fst_eq.trans (Bool.false_or _)
      rw [emitStringValue_length_succ]
      dsimp only
      rw [hhas, hind, Bool.true_and]
      by_cases hnul : anyEscape isNulEscape false value = true
      · have hlt : (scanNulBytes value).2 < value.length := by
          have := hcnts.snd_lt hnul
          rwa [Nat.zero_add] at this
        rw [if_pos hnul, EmittedLength.takes, if_pos (by omega), hnul]
        refine iff_of_false (fun h => ?_) (by decide)
        have hlen := congrArg List.length (Option.some.inj h)
        rw [length_take, length_append, length_singleton] at hlen
        omega
      · rw [if_neg hnul, takeWhile_ne_zero fun c hc hzero => hval (hzero ▸ hc)]
        simp [hnul]

theorem zero_notMem_rawString (htype : (readRawString l).type = .rawString) :
    0 ∉ (readRawString l).literal := by
  have hlit : (readRawString l).type = .rawString →
      (readRawString l).literal = (l.drop 1).takeWhile isRawStringByte := by
    intro h
    unfold readRawString at h ⊢
    dsimp only at h ⊢
    split_ifs at h ⊢
    · cases herr : checkLiteralUtf8 ((l.drop 1).takeWhile fun c => c != byte '\x60' && c != 0) with
      | none => rfl
      | some e =>
        rw [herr] at h
        cases h
    · cases h
  rw [hlit htype]
  exact fun hmem => absurd (mem_takeWhile_imp hmem) (by decide)

/-- The emitted string denotes the bytes of an accepted literal under the condition only. -/
theorem denotesDecoded_iff (place : EmissionPlace) (literal : AcceptedString) :
    DenotesDecoded place literal.node ↔ literalDenotes place literal.node = true := by
  obtain ⟨node, hacc⟩ := literal
  cases hacc with
  | escaped l htype hpl =>
    have hpcs := piecesLiteral_of_string htype hpl
    dsimp only
    generalize (readString l).literal = value at hpcs
    cases hpcs with
    | pieces pieces => exact denotesDecoded_pieces place pieces
    | nul pieces m =>
      refine iff_of_false (not_denotesDecoded_nul place pieces m) ?_
      simp [literalDenotes]
  | raw l htype => exact denotesDecoded_raw place (zero_notMem_rawString htype)

/-- A string with a NUL byte and the digit one. -/
def nulThenOne : AcceptedString where
  node := ⟨bytes "\\01", false⟩
  accepted := .escaped (bytes "\"\\01\"") (by decide) (by decide)

/-- C reads one byte for the two of `\01`. -/
theorem not_denotesDecoded_nulThenOne : ¬ DenotesDecoded (.value 1) nulThenOne.node := by
  decide

end Grayscale
