import Grayscale.Library.FirstOccurrence
import Grayscale.Library.InsertionOrder
import Grayscale.Library.StringToInteger
import Grayscale.Stdlib.Time

/-!
# Requests of the HTTP server

How the server reads a request from a connection and takes it apart. `find_header_end` and
`declared_content_length` search the bytes that have arrived, `parse_request` searches the C string
that they make.
-/

namespace Grayscale.Http

open DecimalText

/-! ### Reading a request -/

/-- The end of a line. -/
def crlf : Text := [byte '\r', byte '\n']

/-- The blank line that ends the header block. -/
def blankLine : Text := [byte '\r', byte '\n', byte '\r', byte '\n']

def findHeaderEnd (data : Text) : Option ℕ := firstIndex blankLine data

/-- `tolower` of the C locale. -/
def tolower (c : UInt8) : UInt8 := if byte 'A' ≤ c && c ≤ byte 'Z' then c + 32 else c

/-- The name that `declared_content_length` looks for. -/
def contentLengthName : Text := bytes "content-length:"

/-- `strncasecmp` finds the name at the start of the text. -/
def StartsWithName (text : Text) : Prop :=
  (text.take contentLengthName.length).map tolower = contentLengthName

instance (text : Text) : Decidable (StartsWithName text) := inferInstanceAs (Decidable (_ = _))

/-- The loop of `declared_content_length` from a cursor on, in front of the memory behind the
header block: `strtoll` reads on there. -/
def contentLengthLoop (behind : Text) : Text → ℤ
  | [] => 0
  | c :: line =>
    -- `memchr` goes on to the end of the line.
    if c ≠ byte '\n' then contentLengthLoop behind line
    else if line = [] then 0
    else if contentLengthName.length < line.length ∧ StartsWithName line then
      (strtoll (line.drop contentLengthName.length ++ behind)).value
    else contentLengthLoop behind line

def declaredContentLength (memory : Text) (headerEnd : ℕ) : ℤ :=
  contentLengthLoop (memory.drop headerEnd) (memory.take headerEnd)

/-- What `receive_request` returns: the bytes in the buffer, `RECEIVE_INCOMPLETE` or
`RECEIVE_TOO_LARGE`. -/
inductive Received where
  | data (buffer : Text)
  | incomplete
  | tooLarge
  deriving DecidableEq

/-- The length of the whole request; `none` where the sum overflows. -/
def requestLength (memory : Text) (headerEnd : ℕ) : Option ℤ :=
  let contentLength := declaredContentLength memory headerEnd
  cInt64 (headerEnd + 4 + if 0 < contentLength then contentLength else 0)

/-- The end of `receive_request`, behind the loop. -/
def receiveEnd (buffer : Text) (needed : ℤ) : Received :=
  if 0 ≤ needed ∧ (buffer.length : ℤ) < needed then .incomplete else .data buffer

/-- The loop of `receive_request` over what `recv` gives, where `stale` is the memory of the buffer
before it is written, with what lies behind it. At the end of the chunks the peer has closed. -/
def receiveLoop (stale : Text) (capacity : ℕ) : List Text → Text → ℤ → Option Received
  | [], buffer, needed => some (receiveEnd buffer needed)
  | chunk :: chunks, buffer, needed =>
    if buffer.length + 1 < capacity then
      let received := chunk.take (capacity - 1 - buffer.length)
      if received.length = 0 then some (receiveEnd buffer needed)
      else
        let buffer := buffer ++ received
        if needed < 0 then
          match findHeaderEnd buffer with
          | none => receiveLoop stale capacity chunks buffer needed
          | some headerEnd => do
            let needed ← requestLength (buffer ++ stale.drop buffer.length) headerEnd
            if (capacity : ℤ) - 1 < needed then some .tooLarge
            else if needed ≤ buffer.length then some (receiveEnd buffer needed)
            else receiveLoop stale capacity chunks buffer needed
        else if needed ≤ buffer.length then some (receiveEnd buffer needed)
        else receiveLoop stale capacity chunks buffer needed
    else some (receiveEnd buffer needed)

/-- `receive_request`, where every `recv` comes before the deadline. -/
def receiveRequest (stale : Text) (capacity : ℕ) (chunks : List Text) : Option Received :=
  receiveLoop stale capacity chunks [] (-1)

/-! ### The parts of a request -/

/-- `GrayRequest`, without the parameters that routing adds. -/
structure GrayRequest where
  method : Text
  path : Text
  query : List (Text × Text)
  headers : List (Text × Text)
  body : Text

/-- The bytes of a text behind the first one that is `c`. -/
def behindByte (c : UInt8) (text : Text) : Text := (text.dropWhile (· != c)).drop 1

theorem length_behindByte_lt {c : UInt8} {text : Text} (h : c ∈ text) :
    (behindByte c text).length < text.length := by
  have hlen := List.length_dropWhile_le (· != c) text
  have hne := List.length_pos_of_mem h
  rw [behindByte, List.length_drop]
  omega

/-- The loop of `parse_request` over the query string. -/
def queryLoop (text : Text) (query : List (Text × Text)) : List (Text × Text) :=
  if h : byte '=' ∈ text then
    let value := behindByte (byte '=') text
    let query := Entries.set query (text.takeWhile (· != byte '='))
      (value.takeWhile (· != byte '&'))
    queryLoop (behindByte (byte '&') value) query
  else query
termination_by text.length
decreasing_by
  have hlt := length_behindByte_lt h
  have hlength := List.length_dropWhile_le (· != byte '&') (behindByte (byte '=') text)
  rw [behindByte, List.length_drop]
  omega

def addHeader (headers : List (Text × Text)) (line : Text) : List (Text × Text) :=
  if byte ':' ∈ line then
    Entries.set headers (line.takeWhile (· != byte ':'))
      ((behindByte (byte ':') line).dropWhile (· == byte ' '))
  else headers

/-- The loop of `parse_request` over the header lines of a C string. -/
def headerLoop (text : Text) (bodySeparator headerStart : ℕ) (headers : List (Text × Text)) :
    List (Text × Text) :=
  if headerStart < bodySeparator then
    match firstIndex crlf (text.drop headerStart) with
    | none => headers
    | some length =>
      headerLoop text bodySeparator (headerStart + length + 2)
        (addHeader headers ((text.drop headerStart).take length))
  else headers
termination_by bodySeparator - headerStart

/-- The headers: `none` stands for the pointers that are null. -/
def parseHeaders (text : Text) : Option ℕ → Option ℕ → List (Text × Text)
  | some headerStart, some bodySeparator => headerLoop text bodySeparator (headerStart + 2) []
  | _, _ => []

/-- `parse_request`. The searches for spaces run over all of the data, those for lines over the C
string, which ends at the first NUL. -/
def parseRequest (data : Text) : Option GrayRequest :=
  if data.length < 10 then none
  else if byte ' ' ∉ data then none
  else
    let pathStart := behindByte (byte ' ') data
    if byte ' ' ∉ pathStart then none
    else
      let target := pathStart.takeWhile (· != byte ' ')
      let text := data.takeWhile (· != 0)
      some {
        method := data.takeWhile (· != byte ' ')
        path := target.takeWhile (· != byte '?')
        query := if byte '?' ∈ target then queryLoop (behindByte (byte '?') target) [] else []
        headers := parseHeaders text (firstIndex crlf text) (firstIndex blankLine text)
        body := match firstIndex blankLine text with
          | none => []
          | some bodySeparator => data.drop (bodySeparator + 4) }

end Grayscale.Http
