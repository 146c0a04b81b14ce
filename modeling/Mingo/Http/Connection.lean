import Mingo.Http.ResponseParser
import Mingo.Http.Session

/-!
# The client connection of http_connection.cpp

`HttpConnection::recvResponse` reads the header block like the session does.  A
response without the chunked transfer coding gets its body in the same way, too.
For a chunked one two nested loops follow: the inner one reads a size line, the
outer one takes as many bytes as it says, and the two bytes behind them, first
from the buffer, then from the stream.  They are collected in the local string
`body`.

`std::string` throws on an `append` or a `resize` by a negative length; a chunk
size for which `content_len + 2` overflows is counted as an exception, too.
-/

namespace Mingo.Http

/-- Conversion of an `int` to `size_t`. -/
def toSize (v : Int) : Nat := (v % 2 ^ 64).toNat

/-- The fixed surroundings of a connection: `boost::lexical_cast<uint64_t>`, the
size of the receive buffer, and what lies in memory behind the bytes in it. -/
structure Connection where
  lexicalCast : List UInt8 → Option UInt64
  buffSize : Nat
  memory : List UInt8 → List UInt8

namespace Connection

/-- The first loop of `recvResponse`. -/
def recvHead (c : Connection) :
    Nat → HttpResponseParser → List UInt8 → SocketStream →
      Received (HttpResponseParser × List UInt8) × SocketStream :=
  readHead (HttpResponseParser.execute false) HttpResponseParser.hasError
    HttpResponseParser.isFinished c.buffSize

/-- The inner loop over the size line of a chunk.  Each turn but the first reads a
byte or is the last, so as many turns as there are bytes, and two more, are
enough. -/
def recvSizeLine (c : Connection) :
    Nat → Bool → HttpResponseParser → List UInt8 → SocketStream →
      Received (HttpResponseParser × List UInt8) × SocketStream
  | 0, _, _, _, s => (.null, s)
  | turns + 1, begin_, parser, data, s =>
      let reads := !begin_ || data.isEmpty
      let (bs, s) := if reads then s.read (c.buffSize - data.length) else ([], s)
      if reads && bs.isEmpty then (.null, s.close)
      else
        match HttpResponseParser.execute true parser (data ++ bs) with
        | none => (.raised, s)
        | some (data, parser) =>
            if parser.hasError then (.null, s.close)
            else if bufferFull c.buffSize data.length then (.null, s.close)
            else if parser.isFinished then (.message (parser, data), s)
            else recvSizeLine c turns false parser data s

/-- The loop `while(left > 0)`; each turn reads a byte or is the last, so `left`
turns are enough. -/
def readLeft (c : Connection) : Nat → Int → List UInt8 → SocketStream →
    Received (List UInt8) × SocketStream
  | 0, left, body, s => if 0 < left then (.null, s) else (.message body, s)
  | turns + 1, left, body, s =>
      if 0 < left then
        let size := toInt32 c.buffSize
        let (bs, s) := s.read (toSize (if size < left then size else left))
        if bs = [] then (.null, s.close)
        else readLeft c turns (left - bs.length) (body ++ bs) s
      else (.message body, s)

/-- The data of a chunk and the two bytes behind it: the bytes left in the buffer
and the string `body`. -/
def recvChunk (c : Connection) (contentLen : Int) (data body : List UInt8) (s : SocketStream) :
    Received (List UInt8 × List UInt8) × SocketStream :=
  if 2 ^ 31 - 1 < contentLen + 2 then (.raised, s)
  else if contentLen + 2 ≤ data.length then
    if contentLen < 0 then (.raised, s)
    else
      let n := contentLen.toNat
      (.message (data.drop (n + 2), body ++ data.take n), s)
  else
    let left := contentLen - data.length + 2
    match readLeft c left.toNat left (body ++ data) s with
    | (.message body, s) =>
        if body.length < 2 then (.raised, s)
        else (.message ([], body.take (body.length - 2)), s)
    | (.null, s) => (.null, s)
    | (.raised, s) => (.raised, s)

/-- The outer loop over the chunks.  Each turn consumes a byte or is the last, so
as many turns as there are bytes, and one more, are enough. -/
def recvChunks (c : Connection) :
    Nat → HttpResponseParser → List UInt8 → List UInt8 → SocketStream →
      Received (HttpResponseParser × List UInt8) × SocketStream
  | 0, _, _, _, s => (.null, s)
  | turns + 1, parser, data, body, s =>
      match recvSizeLine c (s.unread.length + 2) true parser data s with
      | (.null, s) => (.null, s)
      | (.raised, s) => (.raised, s)
      | (.message (parser, data), s) =>
          match recvChunk c parser.parser.contentLen data body s with
          | (.null, s) => (.null, s)
          | (.raised, s) => (.raised, s)
          | (.message (data, body), s) =>
              if parser.parser.chunksDone then (.message (parser, body), s)
              else recvChunks c turns parser data body s

/-- The part of `recvResponse` behind the first loop.  The chunks are collected
in `body`, and only a body of a given length is handed to the response. -/
def recvBody (c : Connection) (parser : HttpResponseParser) (data : List UInt8)
    (s : SocketStream) : Received HttpResponse × SocketStream :=
  if parser.parser.chunked then
    let (r, s) := recvChunks c (data.length + s.unread.length + 1) parser data [] s
    (r.map fun r => r.1.data, s)
  else
    let (body, s) := readBody (toInt64 (parser.getContentLength c.lexicalCast)) data s
    (body.map fun body => body.elim parser.data parser.data.setBody, s)

/-- `HttpConnection::recvResponse`. -/
def recvResponse (c : Connection) (s : SocketStream) : Received HttpResponse × SocketStream :=
  match recvHead c (s.unread.length + 1) (HttpResponseParser.new c.memory) [] s with
  | (.message (parser, data), s) => recvBody c parser data s
  | (.null, s) => (.null, s)
  | (.raised, s) => (.raised, s)

end Connection

end Mingo.Http
