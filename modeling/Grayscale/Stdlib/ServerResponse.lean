import Grayscale.Stdlib.HttpRequests
import Mathlib.Data.List.Chain

/-!
# Responses of the server

What `handle_connection` of `stdlib/server.c` sends, from the parts that `snprintf` puts into
buffers.
-/

namespace Grayscale.ServerResponse

open List

/-! ### The functions -/

/-- What `%s` writes of a text. -/
def cString (text : Text) : Text := text.takeWhile (· ≠ 0)

/-- What `%d` writes. -/
def decimal (n : ℤ) : Text := (if n < 0 then [byte '-'] else []) ++ DecimalText.render n.natAbs

def httpReasonPhrase (status : ℤ) : Text :=
  (([(200, "OK"), (201, "Created"), (204, "No Content"), (301, "Moved Permanently"),
    (302, "Found"), (303, "See Other"), (304, "Not Modified"), (307, "Temporary Redirect"),
    (308, "Permanent Redirect"), (400, "Bad Request"), (401, "Unauthorized"), (403, "Forbidden"),
    (404, "Not Found"), (405, "Method Not Allowed"), (409, "Conflict"), (410, "Gone"),
    (422, "Unprocessable Entity"), (429, "Too Many Requests"), (500, "Internal Server Error"),
    (501, "Not Implemented"), (502, "Bad Gateway"), (503, "Service Unavailable")].lookup
      status).map bytes).getD (bytes "Unknown")

def isFramingHeader (key : Text) : Bool :=
  [bytes "Content-Length", bytes "Transfer-Encoding", bytes "Connection"].any fun name =>
    key.map Http.tolower == name.map Http.tolower

def containsLineBreak (text : Text) : Bool := text.contains (byte '\r') || text.contains (byte '\n')

def headerLine (key value : Text) : Text := key ++ (bytes ": " ++ (value ++ bytes "\r\n"))

/-- The loop of `format_response_headers` over the entries of the map, with the `used` bytes. -/
def formatResponseHeaders (bufferSize : ℕ) : List (Text × Text) → Text → Except String Text
  | [], used => .ok used
  | (key, value) :: headers, used =>
    if containsLineBreak key || containsLineBreak value then .error "P0132"
    else if isFramingHeader key then formatResponseHeaders bufferSize headers used
    else
      let line := headerLine (cString key) (cString value)
      if bufferSize ≤ used.length + line.length then .ok used
      else formatResponseHeaders bufferSize headers (used ++ line)

/-- The lines for an origin that `gray_server_cors` accepted. -/
def corsLines (origin : Text) : Text := headerLine (bytes "Access-Control-Allow-Origin") origin ++
    bytes "Access-Control-Allow-Methods: GET, POST, PUT, DELETE, PATCH, OPTIONS\r\n" ++
    bytes "Access-Control-Allow-Headers: Content-Type, Authorization\r\n"

/-- `response_head`, whose buffer has 256 bytes beyond the parts that other buffers limit, and the
body. -/
def responseText (status : ℤ) (headerLines cors body : Text) : Text :=
  bytes "HTTP/1.1 " ++ decimal status ++ byte ' ' :: httpReasonPhrase status ++ bytes "\r\n" ++
    headerLines ++ headerLine (bytes "Content-Length") (decimal body.length) ++ cors ++
    bytes "Connection: close\r\n\r\n" ++ body

/-- The bytes that `handle_connection` sends. -/
def sentResponse (status : ℤ) (headers : List (Text × Text)) (body : Text)
    (corsOrigin : Option Text) : Except String Text :=
  let corsHeaders := (corsOrigin.map fun origin => (corsLines (cString origin)).take 511).getD []
  (formatResponseHeaders 65536 headers []).map fun responseHeaders =>
    responseText status responseHeaders corsHeaders body

/-! ### The end of the head -/

/-- An origin that `gray_server_cors` accepts. -/
abbrev AcceptedOrigin : Type := {origin : Text // containsLineBreak origin = false}

def grayServerCors (origin : Text) : Except String AcceptedOrigin :=
  if h : containsLineBreak origin then .error "P0101" else .ok ⟨origin, Bool.eq_false_iff.mpr h⟩

/-- No line of a text begins with a carriage return. -/
abbrev NoBlankLine (text : Text) : Prop :=
  IsChain (fun a b => a = byte '\n' → b ≠ byte '\r') (byte '\n' :: text)

theorem containsLineBreak_iff {text : Text} :
    containsLineBreak text = false ↔ ∀ c ∈ text, c ≠ byte '\r' ∧ c ≠ byte '\n' := by
  rw [containsLineBreak, Bool.or_eq_false_iff, Bool.eq_false_iff, Bool.eq_false_iff]
  simp only [ne_eq, contains_iff_mem]
  exact ⟨fun h c hc => ⟨fun heq => h.1 (heq ▸ hc), fun heq => h.2 (heq ▸ hc)⟩,
    fun h => ⟨fun hc => (h _ hc).1 rfl, fun hc => (h _ hc).2 rfl⟩⟩

theorem NoBlankLine.append {s t : Text} (hs : NoBlankLine s) (ht : NoBlankLine t) :
    NoBlankLine (s ++ t) :=
  have hrest := isChain_cons.mp ht
  IsChain.append hs hrest.2 fun _ _ y hy _ => hrest.1 y hy rfl

theorem noBlankLine_line {line : Text} (h : containsLineBreak line = false) (hne : line ≠ []) :
    NoBlankLine (line ++ bytes "\r\n") := by
  have hline : ∀ a, (a = byte '\n' → line ≠ []) →
      IsChain (fun a b => a = byte '\n' → b ≠ byte '\r') (a :: (line ++ bytes "\r\n")) := by
    rw [containsLineBreak_iff] at h
    clear hne
    induction line with
    | nil => exact fun a ha => .cons_cons (fun heq => absurd rfl (ha heq)) (by decide)
    | cons c line ih =>
      obtain ⟨⟨hcr, hlf⟩, h⟩ := forall_mem_cons.mp h
      exact fun a _ => .cons_cons (fun _ => hcr) (ih h c fun heq => absurd heq hlf)
  exact hline _ fun _ => hne

theorem noBlankLine_headerLine {key value : Text} (hkey : containsLineBreak key = false)
    (hvalue : containsLineBreak value = false) : NoBlankLine (headerLine key value) := by
  have hline := @noBlankLine_line (key ++ (bytes ": " ++ value)) ?_ ?_
  · rwa [append_assoc, append_assoc] at hline
  · rw [containsLineBreak_iff] at hkey hvalue ⊢
    simp only [forall_mem_append]
    exact ⟨hkey, containsLineBreak_iff.mp rfl, hvalue⟩
  · exact append_ne_nil_of_right_ne_nil _ (append_ne_nil_of_left_ne_nil (by decide) _)

theorem containsLineBreak_cString {text : Text} (h : containsLineBreak text = false) :
    containsLineBreak (cString text) = false := by
  rw [containsLineBreak_iff] at h ⊢
  exact fun c hc => h c ((takeWhile_sublist _).subset hc)

theorem noBlankLine_formatResponseHeaders (bufferSize : ℕ) (headers : List (Text × Text))
    {used : Text} (hused : NoBlankLine used) :
    match formatResponseHeaders bufferSize headers used with
      | .ok lines => NoBlankLine lines
      | .error code => code = "P0132" := by
  induction headers generalizing used with
  | nil => exact hused
  | cons header headers ih =>
    rw [formatResponseHeaders]
    by_cases hbreak : (containsLineBreak header.1 || containsLineBreak header.2) = true
    · rw [if_pos hbreak]
    · rw [if_neg hbreak]
      rw [Bool.or_eq_true, not_or, Bool.not_eq_true, Bool.not_eq_true] at hbreak
      simp only
      split_ifs
      · exact ih hused
      · exact hused
      · exact ih (hused.append (noBlankLine_headerLine (containsLineBreak_cString hbreak.1)
          (containsLineBreak_cString hbreak.2)))

theorem containsLineBreak_phrase (status : ℤ) :
    containsLineBreak (httpReasonPhrase status) = false := by
  simp only [httpReasonPhrase, lookup_cons, lookup_nil]
  repeat' split
  all_goals rfl

theorem containsLineBreak_decimal (n : ℤ) : containsLineBreak (decimal n) = false := by
  refine containsLineBreak_iff.mpr (forall_mem_append.mpr ⟨?_, fun c hc => ?_⟩)
  · split_ifs <;> exact containsLineBreak_iff.mp rfl
  · have hdigit := DecimalText.isDigit_of_mem_render hc
    constructor
    · rintro rfl
      exact absurd hdigit.1 (by decide)
    · rintro rfl
      exact absurd hdigit.1 (by decide)

theorem noBlankLine_statusLine (status : ℤ) : NoBlankLine (bytes "HTTP/1.1 " ++ decimal status ++
    byte ' ' :: httpReasonPhrase status ++ bytes "\r\n") := by
  refine noBlankLine_line (containsLineBreak_iff.mpr ?_) (by simp)
  simp only [forall_mem_append, forall_mem_cons]
  exact ⟨⟨containsLineBreak_iff.mp rfl, containsLineBreak_iff.mp (containsLineBreak_decimal status)⟩,
    by decide, containsLineBreak_iff.mp (containsLineBreak_phrase status)⟩

theorem firstSplit_blankLine {head : Text} (h : NoBlankLine (head ++ bytes "\r\n")) (body : Text) :
    FirstSplit Http.blankLine (head ++ Http.blankLine ++ body) head body := by
  refine ⟨rfl, fun before after heq => ?_⟩
  by_contra hlt
  -- An earlier blank line has a line in the head that begins with a carriage return.
  have hprefix : before ++ [byte '\r'] ++ [byte '\n', byte '\r'] <+: head ++ bytes "\r\n" := by
    have hbefore : before ++ [byte '\r'] ++ [byte '\n', byte '\r'] <+:
        head ++ Http.blankLine ++ body := by
      rw [heq]
      exact ⟨byte '\n' :: after, by simp [Http.blankLine]⟩
    refine prefix_of_prefix_length_le hbefore ?_ ?_
    · exact ⟨bytes "\r\n" ++ body, by rw [append_assoc, append_assoc]; rfl⟩
    · rw [length_append, length_append, length_append, show (bytes "\r\n").length = 2 by decide]
      simp only [length_cons, length_nil]
      omega
  have hinfix : [byte '\n', byte '\r'] <:+: byte '\n' :: (head ++ bytes "\r\n") :=
    ((suffix_append _ _).isInfix.trans hprefix.isInfix).trans (suffix_cons _ _).isInfix
  have hchain := IsChain.infix h hinfix
  exact absurd hchain (by decide)

/-- The head of a response ends where it is meant to, whatever the headers and the body hold: no
header ends the head, and none begins a response of its own. -/
theorem sentResponse_split (status : ℤ) (headers : List (Text × Text)) (body : Text)
    (corsOrigin : Option AcceptedOrigin) :
    match sentResponse status headers body (corsOrigin.map Subtype.val) with
    | .ok sent => ∃ head, FirstSplit Http.blankLine sent head body
    | .error code => code = "P0132" := by
  have hlines := noBlankLine_formatResponseHeaders 65536 headers (by decide : NoBlankLine [])
  rw [sentResponse]
  cases hformat : formatResponseHeaders 65536 headers [] with
  | error code => rwa [hformat] at hlines
  | ok lines =>
    rw [hformat] at hlines
    have hcors : NoBlankLine (((corsOrigin.map Subtype.val).map fun origin =>
        (corsLines (cString origin)).take 511).getD []) := by
      cases corsOrigin with
      | none => exact (by decide : NoBlankLine [])
      | some origin =>
        have hlines : NoBlankLine (corsLines (cString origin.1)) :=
          ((noBlankLine_headerLine (by decide) (containsLineBreak_cString origin.2)).append
            (@noBlankLine_headerLine (bytes "Access-Control-Allow-Methods")
              (bytes "GET, POST, PUT, DELETE, PATCH, OPTIONS") rfl rfl)).append
                (@noBlankLine_headerLine (bytes "Access-Control-Allow-Headers")
                  (bytes "Content-Type, Authorization") rfl rfl)
        exact IsChain.take hlines 512
    have hlength := @noBlankLine_headerLine (bytes "Content-Length") _ (by decide)
      (containsLineBreak_decimal body.length)
    have hclose : NoBlankLine (bytes "Connection: close" ++ bytes "\r\n") :=
      noBlankLine_line rfl (by decide)
    have hhead :=
      ((((noBlankLine_statusLine status).append hlines).append hlength).append hcors).append hclose
    rw [← append_assoc] at hhead
    have hend : bytes "Connection: close\r\n\r\n" =
        bytes "Connection: close" ++ Http.blankLine := by decide
    rw [Except.map, responseText, hend, ← append_assoc _ (bytes "Connection: close")]
    exact ⟨_, firstSplit_blankLine hhead body⟩

/-! ### The statement -/

def allHeaderLines (headers : List (Text × Text)) : Text :=
  (headers.filter fun header => !isFramingHeader header.1).flatMap fun header =>
    headerLine header.1 header.2

/-- A response with every line, or a panic for a line break in a header. -/
def SendsAllLines (status : ℤ) (headers : List (Text × Text)) (body : Text)
    (corsOrigin : Option Text) : Prop := sentResponse status headers body corsOrigin =
  if headers.any fun header => containsLineBreak header.1 || containsLineBreak header.2 then
    .error "P0132"
  else .ok (responseText status (allHeaderLines headers) ((corsOrigin.map corsLines).getD []) body)

/-! ### The proofs -/

theorem cString_eq {text : Text} (h : (0 : UInt8) ∉ text) : cString text = text :=
  takeWhile_eq_self_iff.mpr fun _ hc => decide_eq_true fun heq => h (heq ▸ hc)

theorem formatResponseHeaders_eq {bufferSize : ℕ} {headers : List (Text × Text)}
    (hnul : ∀ header ∈ headers, (0 : UInt8) ∉ header.1 ∧ (0 : UInt8) ∉ header.2) {used : Text}
    (hfits : used.length + (allHeaderLines headers).length < bufferSize) :
    formatResponseHeaders bufferSize headers used =
      if headers.any fun header => containsLineBreak header.1 || containsLineBreak header.2 then
        .error "P0132" else .ok (used ++ allHeaderLines headers) := by
  induction headers generalizing used with
  | nil => exact congrArg Except.ok (append_nil used).symm
  | cons header headers ih =>
    obtain ⟨⟨hkey, hval⟩, hnul⟩ := forall_mem_cons.mp hnul
    rw [formatResponseHeaders, any_cons]
    by_cases hbreak : (containsLineBreak header.1 || containsLineBreak header.2) = true
    · rw [if_pos hbreak, hbreak, Bool.true_or, if_pos rfl]
    · rw [if_neg hbreak, Bool.eq_false_iff.mpr hbreak, Bool.false_or]
      by_cases hframing : isFramingHeader header.1 = true
      · have hlns : allHeaderLines (header :: headers) = allHeaderLines headers := by
          rw [allHeaderLines, filter_cons_of_neg (by simpa using hframing), allHeaderLines]
        rw [hlns] at hfits ⊢
        rw [if_pos hframing, ih hnul hfits]
      · have hlns : allHeaderLines (header :: headers) =
            headerLine header.1 header.2 ++ allHeaderLines headers := by
          rw [allHeaderLines, filter_cons_of_pos (by simpa using hframing), flatMap_cons,
            allHeaderLines]
        rw [hlns, length_append] at hfits
        rw [if_neg hframing, cString_eq hkey, cString_eq hval, if_neg (by omega),
          ih hnul (by rw [length_append]; omega), hlns, append_assoc]

theorem not_sendsAllLines_long {n : ℕ} (hlong : 65536 ≤ n) :
    ¬ SendsAllLines 200 [([97], replicate n 98)] [] none := by
  intro h
  have hbreak : (containsLineBreak [97] || containsLineBreak (replicate n 98)) = false := by
    have hchars : (byte '\r' == 98) = false ∧ (byte '\n' == 98) = false := by decide
    rw [containsLineBreak, containsLineBreak, contains_replicate, contains_replicate, hchars.1,
      hchars.2, Bool.false_and]
    decide
  have hframing : isFramingHeader [97] = false := by decide
  rw [SendsAllLines, sentResponse, formatResponseHeaders, hbreak, hframing, any_cons, hbreak,
    cString_eq (by decide), cString_eq fun hmem => absurd (eq_of_mem_replicate hmem) (by decide),
    allHeaderLines, filter_cons_of_pos (by rw [hframing]; rfl)] at h
  have hlen := congrArg (fun sent => (sent.toOption.map length).getD 0) h
  simp [headerLine, responseText, Except.map, Except.toOption] at hlen
  split_ifs at hlen <;> grind

end Grayscale.ServerResponse
