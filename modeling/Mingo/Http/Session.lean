import Mingo.Http.RequestParser
import Mingo.Stream.Pieces

/-!
# The session of http_session.cpp

`HttpSession::recvRequest` reads into a buffer of its own until the parser has
seen the end of the header block, and then takes as many bytes for the body as
the field `Content-Length` says: first those left in the buffer, then more from
the stream.  What is left in the buffer behind the body is dropped with it.

The bytes in the buffer are a list, its length the variable `offset`.  Allocation
never fails: `resize` to a length that no string has throws in the code and leaves
the connection open, where the model goes on and waits for the bytes.
-/

namespace Mingo.Http

/-- What receiving a message comes to: a message, the null pointer, or an
exception. -/
inductive Received (α : Type)
  | message (m : α)
  | null
  | raised
  deriving DecidableEq, Repr

/-- The result of a call that returned no message. -/
def Received.Failed {α : Type} (r : Received α) : Prop := ∀ x, r ≠ .message x

theorem Received.failed_of_null {α : Type} {r : Received α} (h : r = .null) : r.Failed := by
  simp [h, Received.Failed]

/-- What is made of a message. -/
def Received.map {α β : Type} (f : α → β) : Received α → Received β
  | message m => message (f m)
  | null => null
  | raised => raised

/-- `offset == (int)buff_size`. -/
def bufferFull (buffSize offset : Nat) : Bool := (offset : Int) == toInt32 buffSize

/-- The loop of `recvRequest` and of `recvResponse` that reads the header block,
over the functions of the parser; `data` are the bytes in front of the buffer.
Each turn reads a byte or is the last, so as many turns as there are bytes, and
one more, are enough. -/
def readHead {P : Type} (execute : P → List UInt8 → Option (List UInt8 × P))
    (hasError isFinished : P → Bool) (buffSize : Nat) :
    Nat → P → List UInt8 → SocketStream → Received (P × List UInt8) × SocketStream
  | 0, _, _, s => (.null, s)
  | turns + 1, parser, data, s =>
      let (bs, s) := s.read (buffSize - data.length)
      if bs = [] then (.null, s.close)
      else
        match execute parser (data ++ bs) with
        | none => (.raised, s)
        | some (data, parser) =>
            if hasError parser then (.null, s.close)
            else if bufferFull buffSize data.length then (.null, s.close)
            else if isFinished parser then (.message (parser, data), s)
            else readHead execute hasError isFinished buffSize turns parser data s

/-- **What a turn can do** on the way to a message. -/
theorem readHead_message {P : Type} {execute : P → List UInt8 → Option (List UInt8 × P)}
    {hasError isFinished : P → Bool} {buffSize turns : Nat} {parser parser' : P}
    {data left : List UInt8} {s s' : SocketStream}
    (h : readHead execute hasError isFinished buffSize turns parser data s =
      (.message (parser', left), s')) :
    ∃ turns₁ bs s₁ data₁ parser₁, turns = turns₁ + 1 ∧ bs ++ s₁.unread = s.unread ∧
      execute parser (data ++ bs) = some (data₁, parser₁) ∧ hasError parser₁ = false ∧
      ((isFinished parser₁ = true ∧ parser₁ = parser' ∧ data₁ = left ∧ s₁ = s') ∨
        (isFinished parser₁ = false ∧
          readHead execute hasError isFinished buffSize turns₁ parser₁ data₁ s₁ =
            (.message (parser', left), s'))) := by
  cases turns with
  | zero => cases h
  | succ turns =>
      have hread := s.read_append (buffSize - data.length)
      simp only [readHead] at h
      split at h
      · cases h
      · split at h
        · cases h
        · next data₁ parser₁ hexecute =>
            refine ⟨turns, _, _, data₁, parser₁, rfl, hread, hexecute, ?_⟩
            cases herror : hasError parser₁ with
            | true => simp [herror] at h
            | false =>
                simp only [herror, Bool.false_eq_true, if_false] at h
                split at h
                · cases h
                · cases hfinished : isFinished parser₁ with
                  | true =>
                      simp only [hfinished, if_true, Prod.mk.injEq, Received.message.injEq] at h
                      exact ⟨rfl, .inl ⟨rfl, h.1.1, h.1.2, h.2⟩⟩
                  | false =>
                      simp only [hfinished, Bool.false_eq_true, if_false] at h
                      exact ⟨rfl, .inr ⟨rfl, h⟩⟩

/-- The part of both functions that reads a body of `length` bytes, first those
left in the buffer, then more from the stream; `none` when there is no body. -/
def readBody (length : Int) (data : List UInt8) (s : SocketStream) :
    Received (Option (List UInt8)) × SocketStream :=
  if 0 < length then
    let n := length.toNat
    if data.length < n then
      let (rt, bs, s) := s.readFixSize (n - data.length)
      if rt ≤ 0 then (.null, s.close) else (.message (some (data ++ bs)), s)
    else (.message (some (data.take n)), s)
  else (.message none, s)

/-- The fixed surroundings of a session: the flag `uri_relaxed` of its parsers,
`boost::lexical_cast<uint64_t>` and the size of the receive buffer. -/
structure Session where
  uriRelaxed : Bool
  lexicalCast : List UInt8 → Option UInt64
  buffSize : Nat

namespace Session

/-- The loop of `recvRequest`. -/
def recvHead (c : Session) :
    Nat → HttpRequestParser → List UInt8 → SocketStream →
      Received (HttpRequestParser × List UInt8) × SocketStream :=
  readHead (HttpRequestParser.execute c.uriRelaxed) HttpRequestParser.hasError
    HttpRequestParser.isFinished c.buffSize

/-- The part of `recvRequest` behind the loop. -/
def recvBody (c : Session) (parser : HttpRequestParser) (data : List UInt8) (s : SocketStream) :
    Received HttpRequest × SocketStream :=
  let (body, s) := readBody (toInt64 (parser.getContentLength c.lexicalCast)) data s
  (body.map fun body => (body.elim parser.data parser.data.setBody).init, s)

/-- `HttpSession::recvRequest`. -/
def recvRequest (c : Session) (s : SocketStream) : Received HttpRequest × SocketStream :=
  match recvHead c (s.unread.length + 1) HttpRequestParser.new [] s with
  | (.message (parser, data), s) => recvBody c parser data s
  | (.null, s) => (.null, s)
  | (.raised, s) => (.raised, s)

end Session

end Mingo.Http
