import Grayscale.Stdlib.HttpRequests

/-!
# Framing of requests

What the server takes as one request, for every way in which the bytes arrive.
-/

namespace Grayscale.Http

open DecimalText List

/-! ### The loop that reads -/

section Receive

variable {stale buffer all : Text} {capacity : ℕ} {chunk : Text} {chunks : List Text}

/-- A request of a known length is read, and cut short only where the peer closes before. -/
def IsReceived (capacity : ℕ) (all : Text) (needed : ℕ) (result : Option Received) : Prop :=
  (all.length < needed → result = some .incomplete) ∧
    (needed ≤ all.length → ∃ total, needed ≤ total ∧ total ≤ all.length ∧ total + 1 ≤ capacity ∧
      result = some (.data (all.take total)))

theorem receiveEnd_neg_one : receiveEnd buffer (-1) = .data buffer := by
  simp [receiveEnd]

variable {needed : ℕ}

theorem receiveEnd_of_le (h : needed ≤ buffer.length) :
    receiveEnd buffer needed = .data buffer := by
  rw [receiveEnd, if_neg (by omega)]

theorem receiveEnd_of_lt (h : buffer.length < needed) : receiveEnd buffer needed = .incomplete := by
  rw [receiveEnd, if_pos (by omega)]

theorem receive_full {needed : ℤ} (h : capacity ≤ buffer.length + 1) :
    receiveLoop stale capacity chunks buffer needed = some (receiveEnd buffer needed) := by
  cases chunks with
  | nil => rfl
  | cons chunk chunks => rw [receiveLoop, if_neg (by omega)]

theorem exists_received (hlt : buffer.length + 1 < capacity)
    (hall : buffer ++ (chunk :: chunks).flatten = all) :
    ∃ more, all = buffer ++ chunk.take (capacity - 1 - buffer.length) ++ more ∧
      (buffer ++ chunk.take (capacity - 1 - buffer.length)).length + 1 ≤ capacity ∧
      ((buffer ++ chunk.take (capacity - 1 - buffer.length)).length + 1 < capacity →
        chunk.take (capacity - 1 - buffer.length) = chunk) := by
  refine ⟨chunk.drop (capacity - 1 - buffer.length) ++ chunks.flatten, ?_, ?_, fun h => ?_⟩
  · rw [← hall, flatten_cons, append_assoc, ← append_assoc (List.take _ _), take_append_drop]
  · rw [length_append, length_take]
    omega
  · rw [length_append, length_take] at h
    exact take_of_length_le (by omega)

theorem IsReceived.of_le {more : Text} (hdone : needed ≤ buffer.length)
    (hcap : buffer.length + 1 ≤ capacity) :
    IsReceived capacity (buffer ++ more) needed (some (.data buffer)) := by
  have hlen : buffer.length ≤ (buffer ++ more).length := by
    rw [length_append]
    exact Nat.le_add_right _ _
  exact ⟨fun h => absurd h (by omega),
    fun _ => ⟨buffer.length, hdone, hlen, hcap, by rw [take_left]⟩⟩

theorem receive_of_needed (hchunks : ∀ chunk ∈ chunks, chunk ≠ [])
    (hneeded : buffer.length < needed) (hfits : needed + 1 ≤ capacity)
    (hall : buffer ++ chunks.flatten = all) :
    IsReceived capacity all needed (receiveLoop stale capacity chunks buffer needed) := by
  induction chunks generalizing buffer with
  | nil =>
    rw [flatten_nil, append_nil] at hall
    rw [← hall]
    exact ⟨fun h => congrArg some (receiveEnd_of_lt h), fun h => absurd h (by omega)⟩
  | cons chunk chunks ih =>
    obtain ⟨hchunk, hchunks⟩ := forall_mem_cons.mp hchunks
    have hlt : buffer.length + 1 < capacity := by omega
    obtain ⟨more, hmore, hcap, hwhole⟩ := exists_received hlt hall
    have hpos := length_pos_iff.mpr hchunk
    rw [receiveLoop, if_pos hlt]
    simp only
    rw [if_neg (by rw [length_take]; omega), if_neg (by omega)]
    split_ifs with hdone
    · -- The last byte that is needed has arrived.
      have hdone : needed ≤ (buffer ++ chunk.take (capacity - 1 - buffer.length)).length := by omega
      rw [receiveEnd_of_le hdone, hmore]
      exact IsReceived.of_le hdone hcap
    · rw [hwhole (by omega)]
      refine ih hchunks ?_ ?_
      · rw [hwhole (by omega)] at hdone
        omega
      · rw [← hall, flatten_cons, append_assoc]

theorem receive_searching (hchunks : ∀ chunk ∈ chunks, chunk ≠ [])
    (hbuf : findHeaderEnd buffer = none) (hlen : buffer.length ≤ capacity - 1)
    (hall : buffer ++ chunks.flatten = all) : (findHeaderEnd (all.take (capacity - 1)) = none →
      receiveLoop stale capacity chunks buffer (-1) = some (.data (all.take (capacity - 1)))) ∧
    ∀ (head rest : Text) (needed : ℕ), FirstSplit blankLine all head rest →
      head.length + 4 ≤ capacity - 1 →
      (∀ behind, requestLength (head ++ blankLine ++ behind) head.length = some (needed : ℤ)) →
      (capacity ≤ needed → receiveLoop stale capacity chunks buffer (-1) = some .tooLarge) ∧
      (needed + 1 ≤ capacity →
        IsReceived capacity all needed (receiveLoop stale capacity chunks buffer (-1))) := by
  -- The blank line is in the buffer as soon as all of it has been read.
  have hfnd : ∀ {buffer' more head rest : Text}, all = buffer' ++ more →
      FirstSplit blankLine all head rest → head.length + 4 ≤ buffer'.length →
      findHeaderEnd buffer' = some head.length := by
    intro buffer' more head rest hmore hspl hle
    have htake := hspl.take hle
    rw [hmore, take_left] at htake
    exact htake.firstIndex_eq
  induction chunks generalizing buffer with
  | nil =>
    rw [flatten_nil, append_nil] at hall
    subst hall
    refine ⟨fun _ => ?_, fun head rest needed hspl => ?_⟩
    · rw [receiveLoop, receiveEnd_neg_one, take_of_length_le hlen]
    · rw [findHeaderEnd, hspl.firstIndex_eq] at hbuf
      cases hbuf
  | cons chunk chunks ih =>
    obtain ⟨hchunk, hchunks⟩ := forall_mem_cons.mp hchunks
    by_cases hlt : buffer.length + 1 < capacity
    swap
    · -- The buffer is full.
      refine ⟨fun _ => ?_, fun head rest needed hspl hhead => ?_⟩
      · rw [receive_full (by omega), receiveEnd_neg_one, ← hall, take_left' (by omega)]
      · rw [hfnd hall.symm hspl (by omega)] at hbuf
        cases hbuf
    obtain ⟨more, hmore, hcap, hwhole⟩ := exists_received hlt hall
    have hpos := length_pos_iff.mpr hchunk
    rw [receiveLoop, if_pos hlt]
    simp only
    rw [if_neg (by rw [length_take]; omega), if_pos (by decide)]
    cases hfind : findHeaderEnd (buffer ++ chunk.take (capacity - 1 - buffer.length)) with
    | none =>
      simp only
      by_cases hfull : (buffer ++ chunk.take (capacity - 1 - buffer.length)).length + 1 < capacity
      · rw [hwhole hfull] at hfind ⊢
        rw [hwhole hfull] at hfull
        exact ih hchunks hfind (by omega) (by rw [← hall, flatten_cons, append_assoc])
      · refine ⟨fun _ => ?_, fun head rest needed hspl hhead => ?_⟩
        · rw [receive_full (by omega), receiveEnd_neg_one, hmore, take_left' (by omega)]
        · rw [hfnd hmore hspl (by omega)] at hfind
          cases hfind
    | some headerEnd =>
      simp only
      refine ⟨fun hnone => ?_, fun head rest needed hspl hhead hneeded => ?_⟩
      · rw [hmore, take_append, take_of_length_le (by omega)] at hnone
        rw [findHeaderEnd, firstIndex_eq_none_of_append hnone] at hfind
        cases hfind
      · -- The blank line that was found is the first one of the stream.
        obtain ⟨before, after, hbef, hidx⟩ := firstIndex_eq_some_iff.mp hfind
        have happend := hbef.append more
        rw [← hmore] at happend
        obtain rfl : before = head := happend.eq_of_split hspl
        have hmem := hneeded (after ++ stale.drop
          (buffer ++ chunk.take (capacity - 1 - buffer.length)).length)
        rw [← append_assoc, ← hbef.1, hidx] at hmem
        rw [hmem]
        simp only [Option.bind_eq_bind, Option.bind_some]
        refine ⟨fun h => by rw [if_pos (by omega)], fun h => ?_⟩
        rw [if_neg (by omega)]
        split_ifs with hdone
        · have hdone :
              needed ≤ (buffer ++ chunk.take (capacity - 1 - buffer.length)).length := by omega
          rw [receiveEnd_of_le hdone, hmore]
          exact IsReceived.of_le hdone hcap
        · have hreceived := hwhole (by omega)
          rw [hreceived] at hdone ⊢
          exact receive_of_needed hchunks (by omega) h
            (by rw [← hall, flatten_cons, append_assoc])

end Receive

/-! ### The declared length -/

/-- The text is a first line and further lines, with ends of lines between them. -/
def IsLines (newline text first : Text) (lines : List Text) : Prop :=
  text = first ++ lines.flatMap (newline ++ ·) ∧ ∀ line ∈ first :: lines, ¬ newline <:+: line

/-- The line has a number behind the name and blanks; a negative one declares no body. -/
def DeclaresLength (line : Text) (n : ℕ) : Prop :=
  ∃ name blanks sign digits rest, line = name ++ (blanks ++ (sign ++ (digits ++ rest))) ∧
    name.map tolower = contentLengthName ∧ (∀ c ∈ blanks, c = byte ' ' ∨ c = byte '\t') ∧
    digits ≠ [] ∧ (∀ c ∈ digits, isdigit c = true) ∧ (∀ c ∈ rest.head?, isdigit c = false) ∧
    (sign = [] ∧ n = read 0 digits ∨ sign = [byte '-'] ∧ n = 0)

/-- The length that a head declares in the first line with the name behind the request line; without
one it is zero. -/
def Declares (head : Text) (n : ℕ) : Prop := ∃ first lines, IsLines [byte '\n'] head first lines ∧
    ((∀ line ∈ lines, ¬ StartsWithName line) ∧ n = 0 ∨
      ∃ before line after, lines = before ++ line :: after ∧
        (∀ l ∈ before, ¬ StartsWithName l) ∧ DeclaresLength line n)

section Length

variable {behind : Text}

theorem contentLoop_of_not_mem {text : Text} (h : byte '\n' ∉ text) :
    contentLengthLoop behind text = 0 := by
  induction text with
  | nil => rfl
  | cons c text ih =>
    rw [mem_cons, not_or] at h
    rw [contentLengthLoop, if_pos (Ne.symm h.1), ih h.2]

theorem contentLoop_append {first : Text} (hfst : byte '\n' ∉ first) (line : Text) :
    contentLengthLoop behind (first ++ byte '\n' :: line) =
      if line = [] then 0
      else if contentLengthName.length < line.length ∧ StartsWithName line then
        (strtoll (line.drop contentLengthName.length ++ behind)).value
      else contentLengthLoop behind line := by
  induction first with
  | nil => rw [nil_append, contentLengthLoop, if_neg (not_not.mpr rfl)]
  | cons c first ih =>
    rw [mem_cons, not_or] at hfst
    rw [cons_append, contentLengthLoop, if_pos (Ne.symm hfst.1), ih hfst.2]

theorem startsWithName_append (line : Text) (lines : List Text) :
    StartsWithName (line ++ lines.flatMap ([byte '\n'] ++ ·)) ↔ StartsWithName line := by
  unfold StartsWithName
  rcases Nat.lt_or_ge line.length contentLengthName.length with hlt | hge
  · refine iff_of_false (fun h => ?_) fun h => ?_
    · cases lines with
      | nil =>
        have hlen := congrArg List.length h
        rw [flatMap_nil, append_nil, length_map, length_take] at hlen
        omega
      | cons next lines =>
        -- The end of the line would be one of the name.
        obtain ⟨k, hk⟩ := Nat.exists_eq_add_of_lt hlt
        have hmem : byte '\n' ∈ (line ++ (next :: lines).flatMap ([byte '\n'] ++ ·)).take
            contentLengthName.length := by
          rw [flatMap_cons, singleton_append, cons_append, hk, add_assoc,
            take_length_add_append, take_succ_cons]
          exact mem_append_right _ mem_cons_self
        have hname := mem_map_of_mem (f := tolower) hmem
        rw [h] at hname
        exact absurd hname (by decide)
    · have hlen := congrArg List.length h
      rw [length_map, length_take] at hlen
      omega
  · rw [take_append_of_le_length hge]

theorem exists_contentLoop {first : Text} {before : List Text} (rest : List Text)
    (hlns : ∀ line ∈ first :: before, byte '\n' ∉ line)
    (hbef : ∀ line ∈ before, ¬ StartsWithName line) : ∃ last, byte '\n' ∉ last ∧
      contentLengthLoop behind (first ++ (before ++ rest).flatMap ([byte '\n'] ++ ·)) =
        contentLengthLoop behind (last ++ rest.flatMap ([byte '\n'] ++ ·)) := by
  induction before generalizing first with
  | nil => exact ⟨first, hlns first mem_cons_self, rfl⟩
  | cons line before ih =>
    obtain ⟨hfst, hlns⟩ := forall_mem_cons.mp hlns
    obtain ⟨hname, hbef⟩ := forall_mem_cons.mp hbef
    obtain ⟨last, hlast, heq⟩ := ih hlns hbef
    refine ⟨last, hlast, Eq.trans ?_ heq⟩
    rw [cons_append, flatMap_cons, singleton_append, cons_append, contentLoop_append hfst]
    split_ifs with hnil hstarts
    · rw [hnil, contentLoop_of_not_mem not_mem_nil]
    · exact absurd ((startsWithName_append line (before ++ rest)).mp hstarts.2) hname
    · rfl

theorem strtoll_of_declares {blanks sign digits rest : Text} {n : ℕ}
    (hblk : ∀ c ∈ blanks, c = byte ' ' ∨ c = byte '\t') (hne : digits ≠ [])
    (hdig : ∀ c ∈ digits, isdigit c = true) (hrest : ∀ c ∈ rest.head?, isdigit c = false)
    (hn : sign = [] ∧ n = read 0 digits ∨ sign = [byte '-'] ∧ n = 0) (hbnd : n < 2 ^ 63) :
    let value := (strtoll (blanks ++ (sign ++ (digits ++ rest)))).value
    (if 0 < value then value else 0) = n := by
  have hsp : ∀ c ∈ blanks, isspace c = true := fun c hc => by
    rcases hblk c hc with rfl | rfl <;> rfl
  have hsign : sign = [] ∨ sign = [byte '+'] ∨ sign = [byte '-'] :=
    hn.imp And.left fun h => .inr h.1
  unfold strtoll
  rw [strtoSubject_decimal hsp hsign hne hdig hrest]
  simp only
  rcases hn with ⟨rfl, rfl⟩ | ⟨rfl, rfl⟩
  · have hplus : (([] : Text) == [byte '-']) = false := rfl
    simp only [signedNumber, hplus, Bool.false_eq_true, if_false]
    split_ifs <;> simp only at * <;> omega
  · simp only [signedNumber, beq_self_eq_true, if_true]
    split_ifs <;> simp only at * <;> omega

end Length

theorem requestLength_of_declares {head : Text} {n : ℕ} (h : Declares head n)
    (hbnd : head.length + 4 + n < 2 ^ 63) (behind : Text) :
    requestLength (head ++ blankLine ++ behind) head.length =
      some ((head.length + 4 + n : ℕ) : ℤ) := by
  obtain ⟨first, lines, ⟨hhead, hlns⟩, hlen⟩ := h
  have hlf : ∀ line ∈ first :: lines, byte '\n' ∉ line := fun line hline hmem =>
    hlns line hline (singleton_infix_iff _ _ |>.mpr hmem)
  have hbody : let value := declaredContentLength (head ++ blankLine ++ behind) head.length
      (if 0 < value then value else 0) = n := by
    rw [declaredContentLength, append_assoc, take_left, drop_left]
    rcases hlen with ⟨hnone, rfl⟩ | ⟨before, line, after, rfl, hbef, hdeclares⟩
    · obtain ⟨last, hlast, heq⟩ := exists_contentLoop [] hlf hnone
      rw [append_nil, ← hhead, flatMap_nil, append_nil, contentLoop_of_not_mem hlast] at heq
      rw [heq]
      rfl
    · obtain ⟨name, blanks, sign, digits, rest, rfl, hname, hblk, hne, hdig, hrest, hn⟩ := hdeclares
      have hnameLength : name.length = contentLengthName.length := by
        rw [← hname, length_map]
      obtain ⟨last, hlast, heq⟩ := exists_contentLoop
        ((name ++ (blanks ++ (sign ++ (digits ++ rest)))) :: after)
        (fun l hl => hlf l (cons_subset_cons _ (subset_append_left _ _) hl)) hbef
      rw [← hhead] at heq
      have hstarts : StartsWithName (name ++ (blanks ++ (sign ++ (digits ++ rest)))) := by
        rw [StartsWithName, take_left' hnameLength, hname]
      have hdigitsLength := length_pos_iff.mpr hne
      have hlong : contentLengthName.length < (name ++ (blanks ++ (sign ++ (digits ++ rest))) ++
          after.flatMap ([byte '\n'] ++ ·)).length := by
        simp only [length_append]
        omega
      have hlineNe : name ++ (blanks ++ (sign ++ (digits ++ rest))) ++
          after.flatMap ([byte '\n'] ++ ·) ≠ [] := ne_nil_of_length_pos (by omega)
      rw [heq, flatMap_cons, singleton_append, cons_append,
        contentLoop_append hlast, if_neg hlineNe,
        if_pos ⟨hlong, (startsWithName_append _ after).mpr hstarts⟩]
      -- What lies behind the digits is no digit, and `strtoll` ends there.
      have hbeh : ∀ c ∈ (rest ++ (after.flatMap ([byte '\n'] ++ ·) ++
          (blankLine ++ behind))).head?, isdigit c = false := by
        cases rest with
        | cons c rest => exact hrest
        | nil =>
          cases after with
          | nil => exact fun c hc => by obtain rfl := Option.some.inj hc; rfl
          | cons l after => exact fun c hc => by obtain rfl := Option.some.inj hc; rfl
      have hval := strtoll_of_declares hblk hne hdig hbeh hn (by omega)
      simp only [append_assoc]
      rw [drop_left' hnameLength]
      simpa only [append_assoc] using hval
  rw [requestLength]
  simp only at hbody ⊢
  rw [hbody, cInt64, if_pos (by omega)]
  norm_cast

/-! ### The parts of a request -/

section Parse

theorem firstSplit_crlf {line : Text} (h : ¬ crlf <:+: line) (after : Text) :
    FirstSplit crlf (line ++ crlf ++ after) line after := by
  refine ⟨rfl, fun before' after' heq => ?_⟩
  by_contra hlt
  rw [append_assoc, append_assoc] at heq
  rcases append_eq_append_iff.mp heq with ⟨d, rfl, -⟩ | ⟨d, rfl, hd⟩
  · rw [length_append] at hlt
    omega
  · match d with
    | [] =>
      rw [append_nil] at hlt
      omega
    | [c] =>
      -- The second byte of an end of a line is not the first one.
      obtain ⟨-, htail⟩ := List.cons.inj hd
      exact absurd (List.cons.inj htail).1 (by decide)
    | c :: e :: d =>
      obtain ⟨rfl, htail⟩ := List.cons.inj hd
      obtain ⟨rfl, -⟩ := List.cons.inj htail
      exact h ⟨before', d, by rw [append_assoc]; rfl⟩

theorem exists_crlf (lines : List Text) (behind : Text) : ∃ more,
    lines.flatMap (crlf ++ ·) ++ (blankLine ++ behind) = crlf ++ more := by
  cases lines with
  | nil => exact ⟨crlf ++ behind, rfl⟩
  | cons line lines =>
    exact ⟨line ++ (lines.flatMap (crlf ++ ·) ++ (blankLine ++ behind)), by
      rw [flatMap_cons, append_assoc, append_assoc]⟩

theorem headerLoop_lines {lines : List Text} (hlns : ∀ line ∈ lines, ¬ crlf <:+: line)
    (before behind : Text) (headers : List (Text × Text)) :
    headerLoop (before ++ lines.flatMap (crlf ++ ·) ++ (blankLine ++ behind))
      (before ++ lines.flatMap (crlf ++ ·)).length (before.length + 2) headers =
        lines.foldl addHeader headers := by
  induction lines generalizing before headers with
  | nil =>
    rw [headerLoop, flatMap_nil, append_nil, if_neg (by omega)]
    rfl
  | cons line lines ih =>
    obtain ⟨hline, hlns⟩ := forall_mem_cons.mp hlns
    obtain ⟨more, hmore⟩ := exists_crlf lines behind
    have hst : before.length + 2 = (before ++ crlf).length := by
      rw [length_append]
      rfl
    have htext : before ++ (line :: lines).flatMap (crlf ++ ·) ++ (blankLine ++ behind) =
        before ++ crlf ++ (line ++ crlf ++ more) := by
      rw [flatMap_cons, append_assoc _ _ (blankLine ++ behind), append_assoc (crlf ++ line), hmore]
      simp only [append_assoc]
    have hnext := ih hlns (before ++ crlf ++ line) (addHeader headers line)
    have hsep : before ++ (line :: lines).flatMap (crlf ++ ·) =
        before ++ crlf ++ line ++ lines.flatMap (crlf ++ ·) := by
      rw [flatMap_cons]
      simp only [append_assoc]
    have htake : (line ++ crlf ++ more).take line.length = line := by
      rw [append_assoc, take_left]
    have hlen : (before ++ crlf).length + line.length + 2 =
        (before ++ crlf ++ line).length + 2 := by
      simp only [length_append]
    rw [headerLoop, foldl_cons]
    split_ifs with hlt
    · rw [htext, hst, drop_left, (firstSplit_crlf hline more).firstIndex_eq]
      simp only
      rw [htake, ← hnext, ← htext, hsep, hlen]
    · -- The line is empty and the last one.
      rw [flatMap_cons, length_append, length_append, length_append,
        show crlf.length = 2 from rfl] at hlt
      obtain rfl : line = [] := length_eq_zero_iff.mp (by omega)
      cases lines with
      | nil => rfl
      | cons next lines =>
        rw [flatMap_cons, length_append, length_append,
          show crlf.length = 2 from rfl] at hlt
        omega

theorem behindByte_append {c : UInt8} {before : Text} (h : c ∉ before) (after : Text) :
    (before ++ c :: after).takeWhile (· != c) = before ∧
      behindByte c (before ++ c :: after) = after := by
  have hne : ∀ e ∈ before, (e != c) = true := fun e he => bne_iff_ne.mpr fun heq => h (heq ▸ he)
  obtain ⟨hdrop, htake⟩ := @dropWhile_append_of_head (· != c) before (c :: after) hne (by simp)
  exact ⟨htake, by rw [behindByte, hdrop]; rfl⟩

/-- The parts of a request: the request line holds the method and the path, the lines behind it the
headers. -/
def HasParts (head body : Text) (request : GrayRequest) : Prop :=
  ∀ requestLine lines method target version, IsLines crlf head requestLine lines →
    requestLine = method ++ byte ' ' :: (target ++ byte ' ' :: version) → byte ' ' ∉ method →
    byte ' ' ∉ target → request.method = method ∧ request.path = target.takeWhile (· != byte '?') ∧
      request.headers = lines.foldl addHeader [] ∧ request.body = body

theorem hasParts_parseRequest {head body : Text} {request : GrayRequest}
    (hspl : FirstSplit blankLine (head ++ blankLine ++ body) head body) (hnul : 0 ∉ head)
    (h : parseRequest (head ++ blankLine ++ body) = some request) : HasParts head body request := by
  rintro requestLine lines method target version ⟨hhead, hlns⟩ hrequest hmeth htgt
  obtain ⟨hrequestLine, hlns⟩ := forall_mem_cons.mp hlns
  -- The request line is the start of the data.
  have hdata : head ++ blankLine ++ body = method ++ byte ' ' :: (target ++ byte ' ' ::
      (version ++ lines.flatMap (crlf ++ ·) ++ (blankLine ++ body))) := by
    rw [hhead, hrequest]
    simp only [append_assoc, cons_append]
  obtain ⟨htakeMethod, hbehindMethod⟩ := behindByte_append hmeth (target ++ byte ' ' ::
    (version ++ lines.flatMap (crlf ++ ·) ++ (blankLine ++ body)))
  rw [← hdata] at htakeMethod hbehindMethod
  obtain ⟨htakeTarget, -⟩ := behindByte_append htgt
    (version ++ lines.flatMap (crlf ++ ·) ++ (blankLine ++ body))
  -- The C string ends in the body.
  have htext : (head ++ blankLine ++ body).takeWhile (· != 0) =
      head ++ blankLine ++ body.takeWhile (· != 0) := by
    refine takeWhile_append_of_pos fun c hc => bne_iff_ne.mpr ?_
    rintro rfl
    exact (mem_append.mp hc).elim hnul (by decide)
  have hbla : firstIndex blankLine (head ++ blankLine ++ body.takeWhile (· != 0)) =
      some head.length := by
    have hpre : head ++ blankLine ++ body.takeWhile (· != 0) <+: head ++ blankLine ++ body :=
      htext ▸ List.takeWhile_prefix _
    have htake := hspl.take (m := (head ++ blankLine ++ body.takeWhile (· != 0)).length)
      (by simp only [length_append]; omega)
    rw [← prefix_iff_eq_take.mp hpre] at htake
    exact htake.firstIndex_eq
  have hcrlf : firstIndex crlf (head ++ blankLine ++ body.takeWhile (· != 0)) =
      some requestLine.length := by
    obtain ⟨more, hmore⟩ := exists_crlf lines (body.takeWhile (· != 0))
    rw [append_assoc, hhead, append_assoc, hmore, ← append_assoc]
    exact (firstSplit_crlf hrequestLine more).firstIndex_eq
  have hheaders := headerLoop_lines hlns requestLine (body.takeWhile (· != 0)) []
  rw [← hhead, ← append_assoc] at hheaders
  have hbody : (head ++ blankLine ++ body).drop (head.length + 4) = body :=
    drop_left' (by rw [length_append]; rfl)
  rw [parseRequest] at h
  simp only [htext, hbla, hcrlf, hbehindMethod, htakeMethod, htakeTarget, hbody] at h
  split_ifs at h
  all_goals
    cases h
    exact ⟨rfl, rfl, hheaders, rfl⟩

end Parse

/-! ### Framing -/

/-- However the bytes arrive, a request is read up to the length that its head declares, and its
parts are those around the first blank line. Bytes without a blank line are taken as they are. -/
theorem receiveRequest_framing (stale : Text) (capacity : ℕ) (chunks : List Text)
    (hchunks : ∀ chunk ∈ chunks, chunk ≠ []) :
    (¬ blankLine <:+: chunks.flatten.take (capacity - 1) → receiveRequest stale capacity chunks =
        some (.data (chunks.flatten.take (capacity - 1)))) ∧
    ∀ head rest n, FirstSplit blankLine chunks.flatten head rest →
      head.length + 4 ≤ capacity - 1 → Declares head n → head.length + 4 + n < 2 ^ 63 →
      (capacity ≤ head.length + 4 + n → receiveRequest stale capacity chunks = some .tooLarge) ∧
      (head.length + 4 + n + 1 ≤ capacity → rest.length < n →
        receiveRequest stale capacity chunks = some .incomplete) ∧
      (head.length + 4 + n + 1 ≤ capacity → n ≤ rest.length → ∃ body,
        body <+: rest ∧ n ≤ body.length ∧ (rest.length = n → body = rest) ∧
        receiveRequest stale capacity chunks = some (.data (head ++ blankLine ++ body)) ∧
        (0 ∉ head → ∀ request, parseRequest (head ++ blankLine ++ body) = some request →
          HasParts head body request)) := by
  obtain ⟨hnone, hsome⟩ := @receive_searching stale [] chunks.flatten capacity chunks hchunks
    rfl (Nat.zero_le (capacity - 1)) (nil_append _)
  refine ⟨fun h => hnone (firstIndex_eq_none_iff.mpr h), ?_⟩
  intro head rest n hspl hhead hdeclares hbnd
  obtain ⟨hbig, hreceived⟩ := hsome head rest _ hspl hhead
    (requestLength_of_declares hdeclares hbnd)
  have hlen : chunks.flatten.length = head.length + 4 + rest.length := by
    rw [hspl.1, length_append, length_append]
    rfl
  refine ⟨hbig, fun hfits hsho => (hreceived hfits).1 (by omega), fun hfits hlong => ?_⟩
  obtain ⟨total, hneeded, htot, -, hdata⟩ := (hreceived hfits).2 (by omega)
  have htake := hspl.take (m := total) (by rw [show blankLine.length = 4 from rfl]; omega)
  refine ⟨_, List.take_prefix _ _, ?_, fun h => take_of_length_le ?_, ?_, fun hnul request =>
    hasParts_parseRequest (htake.1 ▸ htake) hnul⟩
  · rw [length_take, show blankLine.length = 4 from rfl]
    omega
  · rw [show blankLine.length = 4 from rfl]
    omega
  · rw [← htake.1]
    exact hdata

/-- A request in two pieces, whose body is one byte long. -/
theorem receiveRequest_framing_pieces : ∃ body, 1 ≤ body.length ∧ receiveRequest [] 65536
        [bytes "POST / HTTP/1.1\r\nContent-", bytes "Length: 1\r\n\r\nab"] =
      some (.data (bytes "POST / HTTP/1.1\r\nContent-Length: 1" ++ blankLine ++ body)) := by
  have hspl : FirstSplit blankLine
      [bytes "POST / HTTP/1.1\r\nContent-", bytes "Length: 1\r\n\r\nab"].flatten
      (bytes "POST / HTTP/1.1\r\nContent-Length: 1") (bytes "ab") :=
    @firstSplit_of_firstIndex _ _ blankLine _ 34 (by decide)
  have hdeclares : Declares (bytes "POST / HTTP/1.1\r\nContent-Length: 1") 1 :=
    ⟨bytes "POST / HTTP/1.1\r", [bytes "Content-Length: 1"], ⟨by decide, by decide⟩,
      .inr ⟨[], _, [], rfl, forall_mem_nil _, bytes "Content-Length:", [byte ' '], [],
        [byte '1'], [], by decide, by decide, forall_mem_singleton.mpr (.inl rfl),
        cons_ne_nil _ _, forall_mem_singleton.mpr rfl, by simp, .inl ⟨rfl, rfl⟩⟩⟩
  obtain ⟨-, -, hacc⟩ := (receiveRequest_framing [] 65536
    [bytes "POST / HTTP/1.1\r\nContent-", bytes "Length: 1\r\n\r\nab"] (by decide)).2 _ _ 1 hspl
    (by decide) hdeclares (by decide)
  obtain ⟨body, -, hlen, -, hdata, -⟩ := hacc (by decide) (by decide)
  exact ⟨body, hlen, hdata⟩

/-- Bytes that hold no blank line are accepted, and the length is not all that the framing depends
on: the largest one overflows, bytes behind the body are taken for a part of it, a NUL hides it, and
without a second space the path goes on in the next line. -/
theorem receiveRequest_unframed : (receiveRequest [] 65536 [bytes "GET / HTTP/1.1\r\n"] =
        some (.data (bytes "GET / HTTP/1.1\r\n")) ∧ ¬ blankLine <:+: bytes "GET / HTTP/1.1\r\n") ∧
    receiveRequest [] 65536
        [bytes "GET / HTTP/1.1\r\nContent-Length: 9223372036854775807\r\n\r\n"] = none ∧
    (receiveRequest [] 65536 [bytes "GET / HTTP/1.1\r\nContent-Length: 1\r\n\r\nab"] =
        some (.data (bytes "GET / HTTP/1.1\r\nContent-Length: 1\r\n\r\nab")) ∧
      (parseRequest (bytes "GET / HTTP/1.1\r\nContent-Length: 1\r\n\r\nab")).map
        GrayRequest.body = some (bytes "ab")) ∧
    (receiveRequest [] 65536 [bytes "GET / HTTP/1.1\r\nContent-Length: 1\r\nA: \x00\r\n\r\na"] =
        some (.data (bytes "GET / HTTP/1.1\r\nContent-Length: 1\r\nA: \x00\r\n\r\na")) ∧
      (parseRequest (bytes "GET / HTTP/1.1\r\nContent-Length: 1\r\nA: \x00\r\n\r\na")).map
        GrayRequest.body = some []) ∧ receiveRequest [] 65536 [bytes "GET /\r\nHost: a\r\n\r\n"] =
        some (.data (bytes "GET /\r\nHost: a\r\n\r\n")) ∧
      (parseRequest (bytes "GET /\r\nHost: a\r\n\r\n")).map GrayRequest.path =
        some (bytes "/\r\nHost:") := by
  refine ⟨⟨?_, ?_⟩, ?_, ⟨?_, ?_⟩, ⟨?_, ?_⟩, ?_, ?_⟩
  all_goals decide +kernel

end Grayscale.Http
