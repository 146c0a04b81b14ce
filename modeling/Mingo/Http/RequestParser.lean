import Mingo.Http.Message
import Mingo.Http.RequestTable

/-!
# The request parser of http_parser.cpp

`HttpRequestParser` drives the automaton of http11_parser.rl over one buffer
after the other.  The actions keep offsets into the current buffer (`mark`,
`field_start`, `field_len`, `query_start`), and the callbacks cut the tokens out
of it.  `http_parser_execute` sets the first three to 0 on every call, while the
state of the automaton goes on.

A callback that is handed a negative length makes `std::string` throw, and a
failed `assert` aborts: both are `none` here.  The member `query_start` is
indeterminate until `start_query` sets it, which it does before `query_string`
reads it; so is `uri_relaxed`, which stays a parameter.
-/

namespace Mingo.Http

/-- The members of `http_parser` that its actions use. -/
structure HttpParser where
  cs : Nat
  bodyStart : Nat
  contentLen : Int
  nread : Nat
  mark : Nat
  fieldStart : Nat
  fieldLen : Nat
  queryStart : Nat
  xmlSent : Bool
  jsonSent : Bool
  deriving DecidableEq, Repr

/-- `http_parser_init`. -/
def HttpParser.init : HttpParser where
  cs := 1
  bodyStart := 0
  contentLen := 0
  nread := 0
  mark := 0
  fieldStart := 0
  fieldLen := 0
  queryStart := 0
  xmlSent := false
  jsonSent := false

/-- `http_parser_has_error`. -/
def HttpParser.hasError (parser : HttpParser) : Bool := parser.cs == 0

/-- `http_parser_is_finished`. -/
def HttpParser.isFinished (parser : HttpParser) : Bool := 348 ≤ parser.cs

/-- `HttpRequestParser`: the automaton, the request under construction and the
error its callbacks set. -/
structure HttpRequestParser where
  parser : HttpParser
  data : HttpRequest
  error : Nat
  deriving DecidableEq, Repr

namespace HttpRequestParser

/-- The constructor. -/
def new : HttpRequestParser := ⟨HttpParser.init, HttpRequest.new, 0⟩

def setError (s : HttpRequestParser) (v : Nat) : HttpRequestParser := { s with error := v }

/-- `on_request_method`, which is handed the buffer from the token on. -/
def onRequestMethod (s : HttpRequestParser) (text : List UInt8) : HttpRequestParser :=
  match charsToHttpMethod text with
  | .invalidMethod => s.setError 1000
  | m => { s with data := { s.data with method := m } }

/-- `on_request_fragment`. -/
def onRequestFragment (s : HttpRequestParser) (v : List UInt8) : HttpRequestParser :=
  { s with data := { s.data with fragment := v } }

/-- `on_request_path`. -/
def onRequestPath (s : HttpRequestParser) (v : List UInt8) : HttpRequestParser :=
  { s with data := { s.data with path := v } }

/-- `on_request_query`. -/
def onRequestQuery (s : HttpRequestParser) (v : List UInt8) : HttpRequestParser :=
  { s with data := { s.data with query := v } }

/-- `on_request_version`. -/
def onRequestVersion (s : HttpRequestParser) (v : List UInt8) : HttpRequestParser :=
  match versionOf v with
  | none => s.setError 1001
  | some version => { s with data := { s.data with version := version } }

/-- `on_request_http_field`: a field without a name is dropped. -/
def onRequestHttpField (s : HttpRequestParser) (field value : List UInt8) : HttpRequestParser :=
  if field = [] then s else { s with data := s.data.setHeader field value }

/-- The actions of http11_parser.rl at position `p` of the buffer.  The callbacks
`request_uri` and `header_done` do nothing. -/
def act (buf : List UInt8) (p : Nat) (a : RequestAction) (s : HttpRequestParser) :
    Option HttpRequestParser :=
  match a with
  | .mark => some { s with parser := { s.parser with mark := p } }
  | .startField => some { s with parser := { s.parser with fieldStart := p } }
  | .writeField =>
      some { s with parser := { s.parser with fieldLen := p - s.parser.fieldStart } }
  | .startValue => some { s with parser := { s.parser with mark := p } }
  | .writeValue =>
      (token buf s.parser.mark p).map fun value =>
        s.onRequestHttpField ((buf.drop s.parser.fieldStart).take s.parser.fieldLen) value
  | .requestMethod => some (s.onRequestMethod (buf.drop s.parser.mark))
  | .requestUri => some s
  | .fragment => (token buf s.parser.mark p).map s.onRequestFragment
  | .startQuery => some { s with parser := { s.parser with queryStart := p } }
  | .queryString => (token buf s.parser.queryStart p).map s.onRequestQuery
  | .httpVersion => (token buf s.parser.mark p).map s.onRequestVersion
  | .requestPath => (token buf s.parser.mark p).map s.onRequestPath
  | .done =>
      if s.parser.xmlSent || s.parser.jsonSent then
        some { s with parser := { s.parser with
          bodyStart := s.parser.mark, contentLen := (p : Int) - s.parser.mark + 1 } }
      else some { s with parser := { s.parser with bodyStart := p + 1 } }
  | .xml => some { s with parser := { s.parser with xmlSent := true } }
  | .json => some { s with parser := { s.parser with jsonSent := true } }

/-- The scanner; `done` ends the scan. -/
def scanner (uriRelaxed : Bool) : Scanner RequestAction :=
  ⟨RequestTable.rows, uriRelaxed, (· == .done)⟩

/-- What `http_parser_execute` sets before it scans. -/
def rewind (s : HttpRequestParser) : HttpRequestParser :=
  { s with parser := { s.parser with nread := 0, mark := 0, fieldLen := 0, fieldStart := 0 } }

/-- The assertions behind the scan of a buffer of `len` bytes. -/
def inBounds (parser : HttpParser) (len : Nat) : Bool :=
  parser.nread ≤ len && parser.bodyStart ≤ len && decide (parser.mark < len) &&
    decide (parser.fieldLen ≤ len) && decide (parser.fieldStart < len)

/-- `http_parser_execute` on a whole buffer: the bytes consumed. -/
def httpParserExecute (uriRelaxed : Bool) (s : HttpRequestParser) (buf : List UInt8) :
    Option (Nat × HttpRequestParser) :=
  if buf = [] then some (0, s)
  else
    match (scanner uriRelaxed).exec (act buf) s.parser.cs 0 s.rewind buf with
    | none => none
    | some (cs, p, t) =>
        let parser := { t.parser with
          cs := if s.parser.hasError then s.parser.cs else cs, nread := p }
        if inBounds parser buf.length then some (p, { t with parser := parser }) else none

/-- `HttpRequestParser::execute`: the bytes that are left move to the front of the
buffer. -/
def execute (uriRelaxed : Bool) (s : HttpRequestParser) (buf : List UInt8) :
    Option (List UInt8 × HttpRequestParser) :=
  (httpParserExecute uriRelaxed s buf).map fun r => (buf.drop r.1, r.2)

/-- `HttpRequestParser::hasError`. -/
def hasError (s : HttpRequestParser) : Bool := s.error ≠ 0 || s.parser.hasError

/-- `HttpRequestParser::isFinished`, behind a check of `hasError`. -/
def isFinished (s : HttpRequestParser) : Bool := s.parser.isFinished

/-- `HttpRequestParser::getContentLength`. -/
def getContentLength (lexicalCast : List UInt8 → Option UInt64) (s : HttpRequestParser) : Nat :=
  contentLength lexicalCast s.data.headers

end HttpRequestParser

end Mingo.Http
