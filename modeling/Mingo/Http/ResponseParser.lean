import Mingo.Http.Message
import Mingo.Http.ResponseTable

/-!
# The response parser of http_parser.cpp

`HttpResponseParser` drives the automaton of httpclient_parser.rl, both over the
header block of a response and over the size line of a chunk.  Like the request
parser it keeps offsets into the current buffer and sets them to 0 on every call
of `httpclient_parser_execute`; for a size line the whole automaton is set back,
so such a line has to be seen in one call.

A negative length makes `std::string` throw, a failed `assert` aborts and a
failed `check` makes `execute` move memory in front of the buffer: all three are
`none` here.  `http_field` is handed `field_len` bytes from `field_start` on, and
`field_len` may be that of an earlier name: such a name can end behind the bytes
received, so what lies in memory there is a parameter.  The member `status` is
indeterminate until `status_code` sets it.
-/

namespace Mingo.Http

/-! ### Numbers -/

/-- `isspace` of the C locale. -/
def isspace (b : UInt8) : Bool := b == 32 || decide (9 ≤ b ∧ b ≤ 13)

/-- The value of a digit, 36 for a byte that is none. -/
def digitValue (b : UInt8) : Nat :=
  if 48 ≤ b ∧ b ≤ 57 then b.toNat - 48
  else if 65 ≤ b ∧ b ≤ 90 then b.toNat - 55
  else if 97 ≤ b ∧ b ≤ 122 then b.toNat - 87
  else 36

/-- The number that the digits at the start of a text form behind `n`. -/
def digitsValue (base : Nat) : Nat → List UInt8 → Nat
  | n, [] => n
  | n, b :: bs =>
      if digitValue b < base then digitsValue base (n * base + digitValue b) bs else n

/-- The text behind the mark `0x`, which base 16 allows. -/
def skipMark (base : Nat) : List UInt8 → List UInt8
  | 48 :: x :: bs => if base = 16 ∧ (x = 88 ∨ x = 120) then bs else 48 :: x :: bs
  | bs => bs

/-- `strtol(text, NULL, base)`, for the bases 10 and 16 and a `long` of 64 bits. -/
def strtol (base : Nat) (text : List UInt8) : Int :=
  match text.dropWhile isspace with
  | 45 :: bs => max (-(2 ^ 63)) (-(digitsValue base 0 (skipMark base bs)))
  | 43 :: bs => min (2 ^ 63 - 1) (digitsValue base 0 (skipMark base bs))
  | bs => min (2 ^ 63 - 1) (digitsValue base 0 (skipMark base bs))

/-- Conversion of a `long` to `int`. -/
def longToInt (v : Int) : Int := toInt32 (v % 2 ^ 32).toNat

/-- `atoi`. -/
def atoi (text : List UInt8) : Int := longToInt (strtol 10 text)

theorem longToInt_of_lt {n : Nat} (h : n < 2 ^ 31) : longToInt n = n := by
  have hmod : ((n : Int) % 2 ^ 32).toNat = n := by omega
  rw [longToInt, hmod, toInt32_of_lt h]

/-- Digits end where there is none. -/
theorem digitsValue_append {base : Nat} {rest : List UInt8}
    (h : ∀ b, rest.head? = some b → ¬ digitValue b < base) (n : Nat) (bs : List UInt8) :
    digitsValue base n (bs ++ rest) = digitsValue base n bs := by
  induction bs generalizing n with
  | nil =>
      cases rest with
      | nil => rfl
      | cons b rest => simp [digitsValue, h b rfl]
  | cons b bs ih => simp [digitsValue, ih]

/-- `strtol` on a text that begins with a digit. -/
theorem strtol_of_digit {base : Nat} {text : List UInt8}
    (h : ∀ b, text.head? = some b → digitValue b < 36) :
    strtol base text = min (2 ^ 63 - 1) (digitsValue base 0 (skipMark base text) : Int) := by
  have hcheck : ∀ b : UInt8, digitValue b < 36 → isspace b = false ∧ b ≠ 45 ∧ b ≠ 43 := by
    intro b hb
    have hall := Scanner.forall_byte
      (P := fun b => !decide (digitValue b < 36) || (!isspace b && b != 45 && b != 43))
      (by decide +kernel) b
    simpa [hb, and_assoc] using hall
  cases text with
  | nil => rfl
  | cons b text =>
      obtain ⟨hspace, hminus, hplus⟩ := hcheck b (h b rfl)
      rw [strtol, List.dropWhile_cons_of_neg (by simp [hspace])]
      split
      · next heq => exact absurd (List.cons.inj heq).1 hminus
      · next heq => exact absurd (List.cons.inj heq).1 hplus
      · rfl

/-! ### The automaton -/

/-- The members of `httpclient_parser` that its actions use. -/
structure HttpClientParser where
  cs : Nat
  bodyStart : Nat
  contentLen : Int
  status : Int
  chunked : Bool
  chunksDone : Bool
  close : Bool
  nread : Nat
  mark : Nat
  fieldStart : Nat
  fieldLen : Nat
  deriving DecidableEq, Repr

/-- `httpclient_parser_init`, which leaves `status` as it is. -/
def HttpClientParser.init (status : Int) : HttpClientParser where
  cs := 1
  bodyStart := 0
  contentLen := -1
  status := status
  chunked := false
  chunksDone := false
  close := false
  nread := 0
  mark := 0
  fieldStart := 0
  fieldLen := 0

/-- `httpclient_parser_has_error`. -/
def HttpClientParser.hasError (parser : HttpClientParser) : Bool := parser.cs == 0

/-- `httpclient_parser_is_finished`: the first of the final states, not all. -/
def HttpClientParser.isFinished (parser : HttpClientParser) : Bool := parser.cs == 120

/-- `HttpResponseParser`: the automaton, the response under construction and the
error its callbacks set.  `memory buf` is what lies behind the bytes `buf` of the
buffer and the zero that ends them. -/
structure HttpResponseParser where
  parser : HttpClientParser
  data : HttpResponse
  error : Nat
  memory : List UInt8 → List UInt8

namespace HttpResponseParser

/-- The constructor. -/
def new (memory : List UInt8 → List UInt8) : HttpResponseParser :=
  ⟨HttpClientParser.init 0, HttpResponse.new, 0, memory⟩

def setError (s : HttpResponseParser) (v : Nat) : HttpResponseParser := { s with error := v }

/-- `on_response_reason`. -/
def onResponseReason (s : HttpResponseParser) (v : List UInt8) : HttpResponseParser :=
  { s with data := { s.data with reason := v } }

/-- `on_response_status`, which is handed the buffer from the token on. -/
def onResponseStatus (s : HttpResponseParser) (text : List UInt8) : HttpResponseParser :=
  { s with data := { s.data with status := atoi text } }

/-- `on_response_version`. -/
def onResponseVersion (s : HttpResponseParser) (v : List UInt8) : HttpResponseParser :=
  match versionOf v with
  | none => s.setError 1001
  | some version => { s with data := { s.data with version := version } }

/-- `on_response_http_field`, which is handed the memory from the name on: a field
without a name is dropped. -/
def onResponseHttpField (s : HttpResponseParser) (field : List UInt8) (flen : Nat)
    (value : List UInt8) : HttpResponseParser :=
  if flen = 0 then s else { s with data := s.data.setHeader (field.take flen) value }

/-- The actions of httpclient_parser.rl at position `p` of the buffer.  The
callbacks `chunk_size`, `last_chunk` and `header_done` do nothing. -/
def act (buf : List UInt8) (p : Nat) (a : ResponseAction) (s : HttpResponseParser) :
    Option HttpResponseParser :=
  match a with
  | .mark => some { s with parser := { s.parser with mark := p } }
  | .startField => some { s with parser := { s.parser with fieldStart := p } }
  | .writeField =>
      some { s with parser := { s.parser with fieldLen := p - s.parser.fieldStart } }
  | .startValue => some { s with parser := { s.parser with mark := p } }
  | .writeContentLen =>
      some { s with parser := { s.parser with
        contentLen := longToInt (strtol 10 (buf.drop s.parser.mark)) } }
  | .writeConnectionClose => some { s with parser := { s.parser with close := true } }
  | .writeValue =>
      (token buf s.parser.mark p).map
        (s.onResponseHttpField ((buf ++ 0 :: s.memory buf).drop s.parser.fieldStart)
          s.parser.fieldLen)
  | .reasonPhrase => (token buf s.parser.mark p).map s.onResponseReason
  | .statusCode =>
      let s := { s with parser := { s.parser with
        status := longToInt (strtol 10 (buf.drop s.parser.mark)) } }
      some (s.onResponseStatus (buf.drop s.parser.mark))
  | .httpVersion => (token buf s.parser.mark p).map s.onResponseVersion
  | .chunkSize =>
      let contentLen := longToInt (strtol 16 (buf.drop s.parser.mark))
      some { s with parser := { s.parser with
        chunked := true, contentLen := contentLen, chunksDone := contentLen ≤ 0 } }
  | .transChunked => some { s with parser := { s.parser with chunked := true } }
  | .done => some { s with parser := { s.parser with bodyStart := p + 1 } }

/-- The scanner; `done` ends the scan. -/
def scanner : Scanner ResponseAction := ⟨ResponseTable.rows, false, (· == .done)⟩

/-- What `httpclient_parser_execute` sets before it scans. -/
def rewind (s : HttpResponseParser) : HttpResponseParser :=
  { s with parser := { s.parser with nread := 0, mark := 0, fieldLen := 0, fieldStart := 0 } }

/-- The assertions and checks behind the scan of a buffer of `len` bytes. -/
def inBounds (parser : HttpClientParser) (len : Nat) : Bool :=
  parser.nread ≤ len && parser.bodyStart ≤ len && decide (parser.mark < len) &&
    decide (parser.fieldLen ≤ len) && decide (parser.fieldStart < len)

/-- `httpclient_parser_execute` on a whole buffer: the bytes consumed. -/
def httpclientParserExecute (s : HttpResponseParser) (buf : List UInt8) :
    Option (Nat × HttpResponseParser) :=
  match scanner.exec (act buf) s.parser.cs 0 s.rewind buf with
  | none => none
  | some (cs, p, t) =>
      let parser := { t.parser with cs := cs, nread := p }
      if inBounds parser buf.length then some (p, { t with parser := parser }) else none

/-- The automaton set back to its start. -/
def restart (s : HttpResponseParser) : HttpResponseParser :=
  { s with parser := HttpClientParser.init s.parser.status }

/-- `HttpResponseParser::execute`: the bytes that are left move to the front of the
buffer. -/
def execute (chunck : Bool) (s : HttpResponseParser) (buf : List UInt8) :
    Option (List UInt8 × HttpResponseParser) :=
  (httpclientParserExecute (if chunck then s.restart else s) buf).map fun r => (buf.drop r.1, r.2)

/-- `HttpResponseParser::hasError`. -/
def hasError (s : HttpResponseParser) : Bool := s.error ≠ 0 || s.parser.hasError

/-- `HttpResponseParser::isFinished`, behind a check of `hasError`. -/
def isFinished (s : HttpResponseParser) : Bool := s.parser.isFinished

/-- `HttpResponseParser::getContentLength`. -/
def getContentLength (lexicalCast : List UInt8 → Option UInt64) (s : HttpResponseParser) : Nat :=
  contentLength lexicalCast s.data.headers

end HttpResponseParser

end Mingo.Http
