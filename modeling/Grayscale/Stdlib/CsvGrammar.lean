import Grayscale.Stdlib.Csv

/-!
# The grammar of CSV

Which texts the parser of `stdlib/csv.c` accepts, and what it makes of them.
-/

namespace Grayscale

open List

/-! ### Cells -/

inductive CsvCell
  | plain (text : Text)
  | quoted (text : Text)

def CsvCell.value : CsvCell → Text
  | plain text => text
  | quoted text => text

/-- A cell as it is written: with its quotes doubled, between quotes. -/
def CsvCell.form : CsvCell → Text
  | plain text => text
  | quoted text => byte '"' :: (text.flatMap csvEscape ++ [byte '"'])

def AtLineEnd (t : Text) : Prop := t = [] ∨ ∃ r : Text, t = byte '\n' :: r ∨ t = byte '\r' :: r

/-- What may stand behind a cell: the end of a line or of the text, or a delimiter. -/
def AtCellEnd (delim t : Text) : Prop := AtLineEnd t ∨ ∃ r, t = delim ++ r

/-- A cell in front of a text: in quotes, or up to the first place where it can end. -/
inductive CellText (delim : Text) : Text → CsvCell → Text → Prop
  | quoted {v after : Text} (hafter : AtCellEnd delim after) :
      CellText delim ((CsvCell.quoted v).form ++ after) (.quoted v) after
  | plain {p after : Text} (hafter : AtCellEnd delim after) (hquote : byte '"' ∉ p)
      (hfirst : ∀ a b, p = a ++ b → b ≠ [] → ¬ AtCellEnd delim (b ++ after)) :
      CellText delim (p ++ after) (.plain p) after

inductive BadCell (delim : Text) : Text → Prop
  /-- The closing quote is missing. -/
  | unterminated {v : Text} : BadCell delim (byte '"' :: v.flatMap csvEscape)
  /-- Something else than the end of the cell stands behind the closing quote. -/
  | trailing {v after : Text} (hquote : after.head? ≠ some (byte '"'))
      (hafter : ¬ AtCellEnd delim after) : BadCell delim ((CsvCell.quoted v).form ++ after)
  /-- A cell that does not start with a quote has one. -/
  | quote {p r : Text} (hp : p ≠ []) (hquote : byte '"' ∉ p)
      (hfirst : ∀ a b, p = a ++ b → b ≠ [] → ¬ AtCellEnd delim (b ++ byte '"' :: r)) :
      BadCell delim (p ++ byte '"' :: r)

/-- A delimiter: not empty, and it starts with no quote and no line end. -/
structure IsCsvDelimiter (delim : Text) : Prop where
  /-- It has a byte. -/
  ne_nil : delim ≠ []
  /-- It starts with no quote and no line end. -/
  head : ∀ c ∈ delim.head?, c ≠ byte '"' ∧ c ≠ byte '\n' ∧ c ≠ byte '\r'

variable {t : Text}

theorem atLineEnd_iff : csvAtLineEnd t = true ↔ AtLineEnd t := by
  cases t with
  | nil => simp [csvAtLineEnd, AtLineEnd]
  | cons c t =>
    rw [atLineEnd_cons_iff, AtLineEnd, or_iff_right (cons_ne_nil _ _)]
    constructor
    · rintro (rfl | rfl)
      · exact ⟨t, .inl rfl⟩
      · exact ⟨t, .inr rfl⟩
    · rintro ⟨r, h | h⟩
      · exact .inl (List.cons.inj h).1
      · exact .inr (List.cons.inj h).1

variable {delim : Text}

theorem csvAtCellEnd_iff :
    (csvAtDelimiter t delim || csvAtLineEnd t) = true ↔ AtCellEnd delim t := by
  rw [Bool.or_eq_true, atLineEnd_iff, csvAtDelimiter, List.isPrefixOf_iff_prefix, AtCellEnd,
    or_comm]
  constructor
  · rintro (h | ⟨r, h⟩)
    · exact .inl h
    · exact .inr ⟨r, h.symm⟩
  · rintro (h | ⟨r, h⟩)
    · exact .inl h
    · exact .inr ⟨r, h.symm⟩

theorem not_atCellEnd_quote (hdel : IsCsvDelimiter delim) (r : Text) :
    ¬ AtCellEnd delim (byte '"' :: r) := by
  rintro ((h | ⟨t, h | h⟩) | ⟨t, h⟩)
  · exact cons_ne_nil _ _ h
  · exact absurd (List.cons.inj h).1 (by decide)
  · exact absurd (List.cons.inj h).1 (by decide)
  · obtain ⟨c, d, hd⟩ := exists_cons_of_ne_nil hdel.ne_nil
    rw [hd, cons_append] at h
    exact (hdel.head c (by rw [hd]; rfl)).1 (List.cons.inj h).1.symm

theorem AtCellEnd.head_ne (hdel : IsCsvDelimiter delim) (h : AtCellEnd delim t) :
    t.head? ≠ some (byte '"') := by
  intro hhead
  cases t with
  | nil => cases hhead
  | cons c t =>
    rw [head?_cons, Option.some.injEq] at hhead
    subst hhead
    exact not_atCellEnd_quote hdel t h

theorem not_atLineEnd_delim (hdel : IsCsvDelimiter delim) (r : Text) :
    ¬ AtLineEnd (delim ++ r) := by
  obtain ⟨c, d, hd⟩ := exists_cons_of_ne_nil hdel.ne_nil
  have hhead := hdel.head c (by rw [hd]; rfl)
  rw [hd, cons_append]
  rintro (h | ⟨t, h | h⟩)
  · exact cons_ne_nil _ _ h
  · exact hhead.2.1 (List.cons.inj h).1
  · exact hhead.2.2 (List.cons.inj h).1

/-! ### The scans of a cell -/

theorem csvEscape_of_ne {c : UInt8} (h : c ≠ byte '"') : csvEscape c = [c] := if_neg h

theorem quotedScan_spec (t : Text) : ∃ v : Text, (csvQuotedScan t).1 = v.flatMap csvEscape ∧
      t = v.flatMap csvEscape ++ (csvQuotedScan t).2 ∧ ((csvQuotedScan t).2 = [] ∨
        ∃ after, (csvQuotedScan t).2 = byte '"' :: after ∧ after.head? ≠ some (byte '"')) := by
  fun_induction csvQuotedScan t with
  | case1 => exact ⟨[], rfl, rfl, .inl rfl⟩
  | case2 => exact ⟨[], rfl, rfl, .inr ⟨[], rfl, by simp⟩⟩
  | case3 c hc =>
    have hone : [c].flatMap csvEscape = [c] := by
      rw [flatMap_cons, csvEscape_of_ne hc, flatMap_nil, append_nil]
    exact ⟨[c], hone.symm, by rw [hone, append_nil], .inl rfl⟩
  | case4 cursor field rest hscan ih =>
    obtain ⟨v, hfld, hcur, hrest⟩ := ih
    rw [hscan] at hfld hcur hrest
    refine ⟨byte '"' :: v, ?_, ?_, hrest⟩
    · simpa [csvEscape] using hfld
    · simpa [csvEscape] using hcur
  | case5 d cursor hd =>
    exact ⟨[], rfl, rfl, .inr ⟨d :: cursor, rfl, by simpa using hd⟩⟩
  | case6 c d cursor hc field rest hscan ih =>
    obtain ⟨v, hfld, hcur, hrest⟩ := ih
    rw [hscan] at hfld hcur hrest
    refine ⟨c :: v, ?_, ?_, hrest⟩
    · rw [flatMap_cons, csvEscape_of_ne hc, singleton_append]
      exact congrArg (c :: ·) hfld
    · rw [flatMap_cons, csvEscape_of_ne hc, singleton_append]
      exact congrArg (c :: ·) hcur

theorem quotedScan_open (v : Text) :
    csvQuotedScan (v.flatMap csvEscape) = (v.flatMap csvEscape, []) := by
  induction v with
  | nil => rfl
  | cons c v ih =>
    by_cases hc : c = byte '"'
    · rw [flatMap_cons, csvEscape, if_pos hc, hc, cons_append, singleton_append,
        csvQuotedScan, if_pos rfl, if_pos rfl, ih]
    · rw [flatMap_cons, csvEscape_of_ne hc, singleton_append, quotedScan_cons hc, ih]

theorem unquotedScan_spec (delim t : Text) :
    t = (csvUnquotedScan delim t).1 ++ (csvUnquotedScan delim t).2 ∧
      AtCellEnd delim (csvUnquotedScan delim t).2 ∧
      ∀ a b, (csvUnquotedScan delim t).1 = a ++ b → b ≠ [] →
        ¬ AtCellEnd delim (b ++ (csvUnquotedScan delim t).2) := by
  induction t with
  | nil =>
    refine ⟨rfl, .inl (.inl rfl), fun a b h hb => ?_⟩
    exact absurd (append_eq_nil_iff.mp h.symm).2 hb
  | cons c t ih =>
    by_cases hend : (csvAtDelimiter (c :: t) delim || csvAtLineEnd (c :: t)) = true
    · rw [csvUnquotedScan, if_pos hend]
      refine ⟨rfl, csvAtCellEnd_iff.mp hend, fun a b h hb => ?_⟩
      exact absurd (append_eq_nil_iff.mp h.symm).2 hb
    · obtain ⟨ht, haft, hfst⟩ := ih
      rw [csvUnquotedScan, if_neg hend]
      refine ⟨congrArg (c :: ·) ht, haft, fun a b h hb => ?_⟩
      cases a with
      | nil =>
        rw [← nil_append b, ← h]
        change ¬ AtCellEnd delim (c :: ((csvUnquotedScan delim t).1 ++ (csvUnquotedScan delim t).2))
        rw [← ht]
        exact fun hcell => hend (csvAtCellEnd_iff.mpr hcell)
      | cons d a => exact hfst a b (List.cons.inj h).2 hb

variable {after : Text}

theorem unquotedScan_first {p : Text} (haft : AtCellEnd delim after)
    (hfst : ∀ a b, p = a ++ b → b ≠ [] → ¬ AtCellEnd delim (b ++ after)) :
    csvUnquotedScan delim (p ++ after) = (p, after) := by
  induction p with
  | nil =>
    cases after with
    | nil => rfl
    | cons c after => exact if_pos (csvAtCellEnd_iff.mpr haft)
  | cons c p ih =>
    have hc : ¬ (csvAtDelimiter (c :: (p ++ after)) delim || csvAtLineEnd (c :: (p ++ after))) =
        true := fun h => hfst [] (c :: p) rfl (cons_ne_nil _ _) (csvAtCellEnd_iff.mp h)
    rw [cons_append, csvUnquotedScan, if_neg hc,
      ih fun a b h hb => hfst (c :: a) b (by rw [h, cons_append]) hb]

theorem unquotedScan_mem {p r : Text} {c : UInt8}
    (hfst : ∀ a b, p = a ++ b → b ≠ [] → ¬ AtCellEnd delim (b ++ c :: r))
    (hc : ¬ AtCellEnd delim (c :: r)) : c ∈ (csvUnquotedScan delim (p ++ c :: r)).1 := by
  induction p with
  | nil =>
    rw [nil_append, csvUnquotedScan, if_neg fun h => hc (csvAtCellEnd_iff.mp h)]
    exact mem_cons_self
  | cons d p ih =>
    have hd : ¬ (csvAtDelimiter (d :: (p ++ c :: r)) delim || csvAtLineEnd (d :: (p ++ c :: r))) =
        true := fun h => hfst [] (d :: p) rfl (cons_ne_nil _ _) (csvAtCellEnd_iff.mp h)
    rw [cons_append, csvUnquotedScan, if_neg hd]
    exact mem_cons_of_mem _
      (ih fun a b h hb => hfst (d :: a) b (by rw [h, cons_append]) hb)

theorem unescape_ite (v : Text) :
    (if (v.flatMap csvEscape).contains (byte '"') then csvUnescape (v.flatMap csvEscape)
      else v.flatMap csvEscape) = v := by
  split_ifs with hmem
  · exact unescape_escape v
  · rw [contains_iff_mem] at hmem
    rw [← unescape_of_not_mem hmem, unescape_escape]

variable {u : Text} {cell : CsvCell}

theorem csvField_of_cellText (hdel : IsCsvDelimiter delim) (h : CellText delim u cell after) :
    csvField delim u = some (cell.value, after) := by
  cases h with
  | @quoted v _ haft =>
    rw [CsvCell.form, cons_append, append_assoc, singleton_append, csvField,
      head?_cons, if_pos rfl, tail_cons, quotedScan_escape v (haft.head_ne hdel)]
    dsimp only
    rw [if_neg (by rw [← Bool.not_or, csvAtCellEnd_iff.mpr haft]; exact Bool.false_ne_true),
      unescape_ite]
    rfl
  | @plain p _ haft hq hfst =>
    have hhead : (p ++ after).head? ≠ some (byte '"') := by
      cases p with
      | nil => exact haft.head_ne hdel
      | cons c p => exact fun h => hq (by rw [Option.some.inj h]; exact mem_cons_self)
    rw [csvField, if_neg hhead, unquotedScan_first haft hfst]
    dsimp only
    rw [if_neg (by rwa [contains_iff_mem])]
    rfl

theorem csvField_of_badCell (hdel : IsCsvDelimiter delim) (h : BadCell delim u) :
    csvField delim u = none := by
  cases h with
  | @unterminated v =>
    rw [csvField, head?_cons, if_pos rfl, tail_cons, quotedScan_open]
  | @trailing v after hq haft =>
    rw [CsvCell.form, cons_append, append_assoc, singleton_append, csvField,
      head?_cons, if_pos rfl, tail_cons, quotedScan_escape v hq]
    dsimp only
    rw [if_pos (by
      rw [← Bool.not_or, Bool.not_eq_true', Bool.eq_false_iff]
      exact fun h => haft (csvAtCellEnd_iff.mp h))]
  | @quote p r hp hq hfst =>
    have hhead : (p ++ byte '"' :: r).head? ≠ some (byte '"') := by
      obtain ⟨c, t, rfl⟩ := exists_cons_of_ne_nil hp
      exact fun h => hq (by rw [Option.some.inj h]; exact mem_cons_self)
    have hmem := unquotedScan_mem hfst (not_atCellEnd_quote hdel r)
    rw [csvField, if_neg hhead]
    dsimp only
    rw [if_pos (by rwa [contains_iff_mem])]

theorem csvField_spec (hdel : IsCsvDelimiter delim) (u : Text) :
    (∃ cell after, CellText delim u cell after ∧ csvField delim u = some (cell.value, after)) ∨
      (BadCell delim u ∧ csvField delim u = none) := by
  suffices h : (∃ cell after, CellText delim u cell after) ∨ BadCell delim u by
    rcases h with ⟨cell, after, h⟩ | h
    · exact .inl ⟨cell, after, h, csvField_of_cellText hdel h⟩
    · exact .inr ⟨h, csvField_of_badCell hdel h⟩
  by_cases hhead : u.head? = some (byte '"')
  · obtain ⟨t, rfl⟩ : ∃ t, u = byte '"' :: t := by
      cases u with
      | nil => cases hhead
      | cons c t => exact ⟨t, by rw [Option.some.inj hhead]⟩
    obtain ⟨v, -, ht, hrest | ⟨after, hrest, haft⟩⟩ := quotedScan_spec t
    · rw [hrest, append_nil] at ht
      exact .inr (ht ▸ .unterminated)
    · rw [hrest] at ht
      have hform : byte '"' :: t = (CsvCell.quoted v).form ++ after := by
        rw [ht, CsvCell.form, cons_append, append_assoc, singleton_append]
      rw [hform]
      by_cases hend : AtCellEnd delim after
      · exact .inl ⟨_, after, .quoted hend⟩
      · exact .inr (.trailing haft hend)
  · obtain ⟨hu, haft, hfst⟩ := unquotedScan_spec delim u
    generalize (csvUnquotedScan delim u).1 = p at hu hfst
    generalize (csvUnquotedScan delim u).2 = after at hu haft hfst
    subst hu
    by_cases hq : byte '"' ∈ p
    · -- the first quote of the cell
      obtain ⟨a, b, rfl, ha⟩ := eq_append_cons_of_mem hq
      have hne : a ≠ [] := by
        rintro rfl
        exact hhead rfl
      rw [append_assoc, cons_append]
      refine .inr (.quote hne ha fun c d hcd hd => ?_)
      have hcell := hfst c (d ++ byte '"' :: b) (by rw [hcd, append_assoc])
        (append_ne_nil_of_left_ne_nil hd _)
      rwa [append_assoc, cons_append] at hcell
    · exact .inl ⟨_, after, .plain haft hq hfst⟩

/-! ### Rows -/

/-- One or more cells with delimiters between them, in front of the end of a line. -/
inductive RowCells (delim : Text) : Text → List CsvCell → Text → Prop
  | last {u after : Text} {cell : CsvCell} (hcell : CellText delim u cell after)
      (hafter : AtLineEnd after) : RowCells delim u [cell] after
  | cons {u t after : Text} {cell : CsvCell} {cells : List CsvCell}
      (hcell : CellText delim u cell (delim ++ t)) (hcells : RowCells delim t cells after) :
      RowCells delim u (cell :: cells) after

/-- A row: an empty line has no cells. -/
inductive RowText (delim : Text) : Text → List CsvCell → Text → Prop
  | empty {u : Text} (hu : AtLineEnd u) : RowText delim u [] u
  | cells {u after : Text} {cells : List CsvCell} (hu : ¬ AtLineEnd u)
      (hcells : RowCells delim u cells after) : RowText delim u cells after

/-- Cells in front of a malformed one. -/
inductive BadCells (delim : Text) : Text → Prop
  | here {u : Text} (hcell : BadCell delim u) : BadCells delim u
  | later {u t : Text} {cell : CsvCell} (hcell : CellText delim u cell (delim ++ t))
      (hcells : BadCells delim t) : BadCells delim u

theorem CellText.atCellEnd (h : CellText delim u cell after) : AtCellEnd delim after := by
  cases h with
  | quoted haft => exact haft
  | plain haft => exact haft

theorem CellText.form_append (h : CellText delim u cell after) : cell.form ++ after = u := by
  cases h <;> rfl

variable {after' : Text}

theorem CellText.after_eq {cell' : CsvCell} (hdel : IsCsvDelimiter delim)
    (h : CellText delim u cell after) (h' : CellText delim u cell' after') : after = after' := by
  have heq := csvField_of_cellText hdel h
  rw [csvField_of_cellText hdel h', Option.some.injEq, Prod.mk.injEq] at heq
  exact heq.2.symm

theorem CellText.not_badCell (hdel : IsCsvDelimiter delim) (h : CellText delim u cell after) :
    ¬ BadCell delim u := by
  intro hbad
  have heq := csvField_of_cellText hdel h
  rw [csvField_of_badCell hdel hbad] at heq
  cases heq

theorem CellText.length_lt (h : CellText delim u cell after) (hu : ¬ AtLineEnd u)
    (haft : AtLineEnd after) : after.length < u.length := by
  rw [← h.form_append] at hu ⊢
  have hne : cell.form ≠ [] := by
    intro hnil
    rw [hnil, nil_append] at hu
    exact hu haft
  have hpos := length_pos_iff.mpr hne
  rw [length_append]
  omega

theorem CellText.length_delim_lt (hdel : IsCsvDelimiter delim)
    (h : CellText delim u cell (delim ++ t)) : t.length < u.length := by
  have hpos := length_pos_iff.mpr hdel.ne_nil
  rw [← h.form_append, length_append, length_append]
  omega

variable {cells : List CsvCell}

theorem RowCells.length_le (hdel : IsCsvDelimiter delim) (h : RowCells delim u cells after) :
    after.length ≤ u.length ∧ (¬ AtLineEnd u → after.length < u.length) := by
  induction h with
  | last hcell haft =>
    refine ⟨?_, fun hu => hcell.length_lt hu haft⟩
    rw [← hcell.form_append, length_append]
    omega
  | cons hcell _ ih =>
    have hlt := hcell.length_delim_lt hdel
    exact ⟨by omega, fun _ => by omega⟩

theorem RowCells.atLineEnd (h : RowCells delim u cells after) : AtLineEnd after := by
  induction h with
  | last _ haft => exact haft
  | cons _ _ ih => exact ih

theorem RowText.atLineEnd (h : RowText delim u cells after) : AtLineEnd after := by
  cases h with
  | empty hu => exact hu
  | cells _ hcel => exact hcel.atLineEnd

theorem RowCells.after_eq {cells' : List CsvCell} (hdel : IsCsvDelimiter delim)
    (h : RowCells delim u cells after) (h' : RowCells delim u cells' after') : after = after' := by
  induction h generalizing cells' with
  | last hcell haft =>
    cases h' with
    | last hcell' _ => exact hcell.after_eq hdel hcell'
    | cons hcell' _ =>
      rw [hcell.after_eq hdel hcell'] at haft
      exact absurd haft (not_atLineEnd_delim hdel _)
  | cons hcell _ ih =>
    cases h' with
    | last hcell' haft' =>
      rw [hcell'.after_eq hdel hcell] at haft'
      exact absurd haft' (not_atLineEnd_delim hdel _)
    | cons hcell' hcel' =>
      obtain rfl := append_cancel_left (hcell.after_eq hdel hcell')
      exact ih hcel'

theorem RowCells.not_badCells (hdel : IsCsvDelimiter delim) (h : RowCells delim u cells after) :
    ¬ BadCells delim u := by
  induction h with
  | last hcell haft =>
    intro hbad
    cases hbad with
    | here hbad => exact hcell.not_badCell hdel hbad
    | later hcell' _ =>
      rw [hcell.after_eq hdel hcell'] at haft
      exact not_atLineEnd_delim hdel _ haft
  | cons hcell _ ih =>
    intro hbad
    cases hbad with
    | here hbad => exact hcell.not_badCell hdel hbad
    | later hcell' hbad =>
      obtain rfl := append_cancel_left (hcell.after_eq hdel hcell')
      exact ih hbad

def csvValues (cells : List CsvCell) : List Text := cells.map CsvCell.value

theorem cellText_of_atLineEnd (hu : AtLineEnd u) : CellText delim u (.plain []) u :=
  .plain (p := []) (.inl hu) not_mem_nil fun _ _ h hb =>
    absurd (append_eq_nil_iff.mp h.symm).2 hb

theorem csvRow_spec (hdel : IsCsvDelimiter delim) {fuel : ℕ} (hfuel : u.length < fuel)
    (hu : ¬ AtLineEnd u) (row : List Text) : (∃ cells after, RowCells delim u cells after ∧
      csvRow delim fuel u row = some (.ok (row ++ csvValues cells, after))) ∨
    (BadCells delim u ∧ csvRow delim fuel u row = some (.error ())) := by
  induction fuel generalizing u row with
  | zero => omega
  | succ fuel ih =>
    have hend : ∀ {t : Text}, AtLineEnd t → t.length < fuel → ∀ row,
        csvRow delim fuel t row = some (.ok (row, t)) := by
      intro t ht hlen row
      obtain ⟨fuel, rfl⟩ := Nat.exists_eq_add_of_le' (by omega : 1 ≤ fuel)
      rw [csvRow, if_pos (atLineEnd_iff.mpr ht)]
    rw [csvRow, if_neg fun h => hu (atLineEnd_iff.mp h)]
    rcases csvField_spec hdel u with ⟨cell, after, hcell, hfld⟩ | ⟨hbad, hfld⟩
    · rw [hfld]
      simp only
      rcases hcell.atCellEnd with haft | ⟨t, rfl⟩
      · -- the row ends behind the cell
        have hlt := hcell.length_lt hu haft
        have hno : ¬ (after ≠ [] ∧ csvAtDelimiter after delim = true) := by
          rintro ⟨-, h⟩
          obtain ⟨r, rfl⟩ := List.isPrefixOf_iff_prefix.mp h
          exact not_atLineEnd_delim hdel r haft
        rw [if_neg hno, hend haft (by omega)]
        exact .inl ⟨[cell], after, .last hcell haft, rfl⟩
      · have hlt := hcell.length_delim_lt hdel
        have hyes : delim ++ t ≠ [] ∧ csvAtDelimiter (delim ++ t) delim = true :=
          ⟨append_ne_nil_of_left_ne_nil hdel.ne_nil t,
            List.isPrefixOf_iff_prefix.mpr (prefix_append delim t)⟩
        rw [if_pos hyes, drop_left]
        by_cases ht : AtLineEnd t
        · -- an empty cell behind the last delimiter
          rw [if_pos (atLineEnd_iff.mpr ht), hend ht (by omega)]
          refine .inl ⟨[cell, .plain []], t, .cons hcell (.last (cellText_of_atLineEnd ht) ht), ?_⟩
          rw [append_assoc]
          rfl
        · rw [if_neg fun h => ht (atLineEnd_iff.mp h)]
          rcases ih (by omega) ht (row ++ [cell.value]) with ⟨cells, after, hcel, hrow⟩ |
            ⟨hbad, hrow⟩
          · refine .inl ⟨cell :: cells, after, .cons hcell hcel, ?_⟩
            rw [hrow, append_assoc]
            rfl
          · exact .inr ⟨.later hcell hbad, hrow⟩
    · rw [hfld]
      exact .inr ⟨.here hbad, rfl⟩

/-! ### Documents -/

/-- A line end in front of a text: a carriage return, a line feed or both, or the end of the
text. -/
inductive LineEnd : Text → Text → Text → Prop
  | ending : LineEnd [] [] []
  | feed (rest : Text) : LineEnd (byte '\n' :: rest) [byte '\n'] rest
  | both (rest : Text) : LineEnd (byte '\r' :: byte '\n' :: rest) [byte '\r', byte '\n'] rest
  | return {rest : Text} (hrest : rest.head? ≠ some (byte '\n')) :
      LineEnd (byte '\r' :: rest) [byte '\r'] rest

/-- A document: rows, each with the line end behind it. -/
inductive DocumentText (delim : Text) : Text → List (List CsvCell × Text) → Prop
  | nil : DocumentText delim [] []
  | cons {u after ending rest : Text} {cells : List CsvCell} {lines : List (List CsvCell × Text)}
      (hu : u ≠ []) (hrow : RowText delim u cells after) (hending : LineEnd after ending rest)
      (hlines : DocumentText delim rest lines) : DocumentText delim u ((cells, ending) :: lines)

/-- A document with malformed quoting in the row of a given number. -/
inductive BadDocument (delim : Text) : Text → ℕ → Prop
  | here {u : Text} (hu : ¬ AtLineEnd u) (hcells : BadCells delim u) : BadDocument delim u 1
  | later {u after ending rest : Text} {cells : List CsvCell} {n : ℕ}
      (hu : u ≠ []) (hrow : RowText delim u cells after) (hending : LineEnd after ending rest)
      (hrest : BadDocument delim rest n) : BadDocument delim u (n + 1)

def joinCells (delim : Text) (cells : List CsvCell) : Text :=
  delim.intercalate (cells.map CsvCell.form)

/-- The rows with their line ends. -/
def joinLines (delim : Text) (lines : List (List CsvCell × Text)) : Text :=
  lines.flatMap fun line => joinCells delim line.1 ++ line.2

theorem RowCells.ne_nil (h : RowCells delim u cells after) : cells ≠ [] := by
  cases h <;> exact cons_ne_nil _ _

theorem RowCells.join_append (h : RowCells delim u cells after) :
    joinCells delim cells ++ after = u := by
  induction h with
  | last hcell _ =>
    rw [joinCells, map_singleton, intercalate_singleton, hcell.form_append]
  | @cons u t after cell cells hcell hcel ih =>
    have hne : cells.map CsvCell.form ≠ [] := by simpa using hcel.ne_nil
    rw [joinCells] at ih
    rw [joinCells, map_cons, intercalate_cons_of_ne_nil hne, append_assoc,
      append_assoc, ih, hcell.form_append]

theorem RowText.join_append (h : RowText delim u cells after) :
    joinCells delim cells ++ after = u := by
  cases h with
  | empty _ => rfl
  | cells _ hcel => exact hcel.join_append

variable {ending rest : Text}

theorem LineEnd.append_eq (h : LineEnd after ending rest) : ending ++ rest = after := by
  cases h <;> rfl

theorem DocumentText.join_eq {lines : List (List CsvCell × Text)} (h : DocumentText delim u lines) :
    joinLines delim lines = u := by
  induction h with
  | nil => rfl
  | cons _ hrow hend _ ih =>
    rw [joinLines] at ih
    rw [joinLines, flatMap_cons, ih, append_assoc, hend.append_eq, hrow.join_append]

theorem RowText.after_eq {cells' : List CsvCell} (hdel : IsCsvDelimiter delim)
    (h : RowText delim u cells after) (h' : RowText delim u cells' after') : after = after' := by
  cases h with
  | empty hu =>
    cases h' with
    | empty _ => rfl
    | cells hu' _ => exact absurd hu hu'
  | cells hu hcel =>
    cases h' with
    | empty hu' => exact absurd hu' hu
    | cells _ hcel' => exact hcel.after_eq hdel hcel'

theorem LineEnd.rest_eq (h : LineEnd after ending rest) :
    csvSkip (byte '\n') (csvSkip (byte '\r') after) = rest := by
  cases h with
  | ending => rfl
  | feed => rfl
  | both => rfl
  | «return» hrest => exact if_neg hrest

theorem exists_lineEnd (h : AtLineEnd after) : ∃ ending rest, LineEnd after ending rest := by
  rcases h with rfl | ⟨r, rfl | rfl⟩
  · exact ⟨_, _, .ending⟩
  · exact ⟨_, _, .feed r⟩
  · by_cases hfeed : r.head? = some (byte '\n')
    · cases r with
      | nil => cases hfeed
      | cons c r =>
        cases hfeed
        exact ⟨_, _, .both r⟩
    · exact ⟨_, _, .return hfeed⟩

theorem BadDocument.unique (hdel : IsCsvDelimiter delim) {n n' : ℕ} (h : BadDocument delim u n)
    (h' : BadDocument delim u n') : n = n' := by
  induction h generalizing n' with
  | here hu hcel =>
    cases h' with
    | here _ _ => rfl
    | later _ hrow _ _ =>
      cases hrow with
      | empty hu' => exact absurd hu' hu
      | cells _ hrow => exact absurd hcel (hrow.not_badCells hdel)
  | later _ hrow hend _ ih =>
    cases h' with
    | here hu hcel =>
      cases hrow with
      | empty hu' => exact absurd hu' hu
      | cells _ hrow => exact absurd hcel (hrow.not_badCells hdel)
    | later _ hrow' hend' hrest' =>
      obtain rfl := hrow.after_eq hdel hrow'
      obtain rfl := hend.rest_eq.symm.trans hend'.rest_eq
      rw [ih hrest']

theorem DocumentText.not_badDocument (hdel : IsCsvDelimiter delim)
    {lines : List (List CsvCell × Text)} (h : DocumentText delim u lines) (n : ℕ) :
    ¬ BadDocument delim u n := by
  induction h generalizing n with
  | nil =>
    intro hbad
    cases hbad with
    | here hu _ => exact hu (.inl rfl)
    | later hu _ _ _ => exact hu rfl
  | cons _ hrow hend _ ih =>
    intro hbad
    cases hbad with
    | here hu hcel =>
      cases hrow with
      | empty hu' => exact hu hu'
      | cells _ hrow => exact hrow.not_badCells hdel hcel
    | later _ hrow' hend' hrest' =>
      obtain rfl := hrow.after_eq hdel hrow'
      obtain rfl := hend.rest_eq.symm.trans hend'.rest_eq
      exact ih _ hrest'

theorem length_rest_lt (hdel : IsCsvDelimiter delim) (hu : u ≠ [])
    (hrow : RowText delim u cells after) (hend : LineEnd after ending rest) :
    rest.length < u.length := by
  have haft : rest.length ≤ after.length := by
    rw [← hend.append_eq, length_append]
    omega
  cases hrow with
  | empty _ =>
    cases hend with
    | ending => exact absurd rfl hu
    | feed => exact Nat.lt_succ_self _
    | both =>
      rw [length_cons, length_cons]
      omega
    | «return» => exact Nat.lt_succ_self _
  | cells hline hcel =>
    have hlt := (hcel.length_le hdel).2 hline
    omega

def documentValues (lines : List (List CsvCell × Text)) : List (List Text) :=
  lines.map fun line => csvValues line.1

theorem csvRows_spec (hdel : IsCsvDelimiter delim) {fuel : ℕ} (hfuel : u.length < fuel)
    (rows : List (List Text)) : (∃ lines, DocumentText delim u lines ∧
      csvRows delim fuel u rows = some (.ok (rows ++ documentValues lines))) ∨
    ∃ n, BadDocument delim u n ∧ csvRows delim fuel u rows = some (.error (rows.length + n)) := by
  induction fuel generalizing u rows with
  | zero => omega
  | succ fuel ih =>
    rw [csvRows]
    by_cases hu : u = []
    · subst hu
      exact .inl ⟨[], .nil, by simp [documentValues]⟩
    rw [if_neg hu]
    -- a row with the text behind it, and the rows from there on
    have hnext : ∀ {cells after}, RowText delim u cells after →
        csvRow delim (u.length + 1) u [] = some (.ok (csvValues cells, after)) →
        (∃ lines, DocumentText delim u lines ∧
          csvRows delim fuel (csvSkip (byte '\n') (csvSkip (byte '\r') after))
            (rows ++ [csvValues cells]) = some (.ok (rows ++ documentValues lines))) ∨
        ∃ n, BadDocument delim u n ∧
          csvRows delim fuel (csvSkip (byte '\n') (csvSkip (byte '\r') after))
            (rows ++ [csvValues cells]) = some (.error (rows.length + n)) := by
      intro cells after hrow _
      obtain ⟨ending, rest, hend⟩ := exists_lineEnd hrow.atLineEnd
      have hlt := length_rest_lt hdel hu hrow hend
      rw [hend.rest_eq]
      rcases @ih rest (by omega) (rows ++ [csvValues cells]) with ⟨lines, hlns, hrun⟩ |
        ⟨n, hbad, hrun⟩
      · refine .inl ⟨(cells, ending) :: lines, .cons hu hrow hend hlns, ?_⟩
        rw [hrun, append_assoc]
        rfl
      · refine .inr ⟨n + 1, .later hu hrow hend hbad, ?_⟩
        rw [hrun, length_append, length_singleton, Nat.add_assoc, Nat.add_comm 1 n]
    by_cases hline : AtLineEnd u
    · have hrow : csvRow delim (u.length + 1) u [] = some (.ok (csvValues [], u)) := by
        rw [csvRow, if_pos (atLineEnd_iff.mpr hline)]
        rfl
      rw [hrow]
      exact hnext (.empty hline) hrow
    · rcases csvRow_spec hdel (Nat.lt_succ_self u.length) hline [] with
        ⟨cells, after, hcel, hrow⟩ | ⟨hbad, hrow⟩
      · rw [nil_append] at hrow
        rw [hrow]
        exact hnext (.cells hline hcel) hrow
      · rw [hrow]
        exact .inr ⟨1, .here hline hbad, rfl⟩

/-! ### The parser -/

def withoutByteOrderMark (csvString : Text) : Text :=
  if utf8ByteOrderMark.isPrefixOf csvString then csvString.drop 3 else csvString

theorem isCsvDelimiter_codepoint {codepoint : ℕ} (hrng : codepoint ≤ 0x10FFFF)
    (hq : codepoint ≠ 0x22) (hfeed : codepoint ≠ 0x0A) (hret : codepoint ≠ 0x0D) :
    IsCsvDelimiter (csvDelimiterFromCodepoint codepoint) := by
  have hhigh : ∀ {c : UInt8} {t : Text}, 0x80 ≤ c → IsCsvDelimiter (c :: t) := by
    refine fun {c t} hc => ⟨cons_ne_nil _ _, fun d hd => ?_⟩
    cases hd
    refine ⟨?_, ?_, ?_⟩ <;>
    · rintro rfl
      exact absurd hc (by decide)
  rw [csvDelimiterFromCodepoint]
  by_cases hscal : IsUtf8Scalar codepoint
  · obtain ⟨hchar, hval⟩ := utf8Char_toUtf8 hscal
    rcases hchar.cases_byte with ⟨a, ha, heq⟩ | hall
    · rw [heq] at hval
      rw [heq]
      refine ⟨cons_ne_nil _ _, fun d hd => ?_⟩
      cases hd
      refine ⟨?_, ?_, ?_⟩
      · rintro rfl
        exact hq hval.symm
      · rintro rfl
        exact hfeed hval.symm
      · rintro rfl
        exact hret hval.symm
    · obtain ⟨c, t, heq⟩ := exists_cons_of_ne_nil hchar.ne_nil
      rw [heq] at hall ⊢
      exact hhigh (hall c mem_cons_self)
  · -- the bytes of a surrogate start with `0xED`
    unfold IsUtf8Scalar at hscal
    have hlead : (0xE0 ||| (codepoint >>> 12)).toUInt8 = 0xED := by
      rw [Nat.shiftRight_eq_div_pow, show codepoint / 2 ^ 12 = 0xD by omega]
      rfl
    rw [codepointToUtf8, if_neg (by omega), if_neg (by omega), if_pos (by omega), hlead]
    exact hhigh (by decide)

end Grayscale
