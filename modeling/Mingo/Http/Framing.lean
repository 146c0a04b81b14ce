import Mingo.Http.RoundTrip

/-!
# The body of a request

Behind the header block `recvRequest` takes as many bytes for the body as the
field `content-length` announces: those of the first `read` that are behind the
header block, cut where they are too many, and what is missing from
`readFixSize`.  The `read` results may split the bytes anywhere, and the stream
may fail anywhere; an empty piece is a failed `read`.

* `readBody_arrived` -- the body for every stream;
* `recvRequest_framed_iff` -- a request whose header block comes with the first
  `read` is framed by its `content-length`, but for the check on `buff_size`.
-/

namespace Mingo.Http

open Scanner (inClass digit)

/-- The value of a row of decimal digits. -/
def decimalValue (v : List UInt8) : Nat :=
  Nat.ofDigitChars 10 (v.map fun b => Char.ofNat b.toNat) 0

/-- `v` is a decimal number with the value `n`. -/
def IsDecimal (v : List UInt8) (n : Nat) : Prop :=
  v ≠ [] ∧ v.all (inClass digit) = true ∧ decimalValue v = n

instance (v : List UInt8) (n : Nat) : Decidable (IsDecimal v n) :=
  inferInstanceAs (Decidable (_ ∧ _ ∧ _))

/-- `boost::lexical_cast` reads the decimal numbers that fit. -/
def Session.CastsDecimals (c : Session) : Prop :=
  ∀ v n, IsDecimal v n → n < 2 ^ 64 → c.lexicalCast v = some (UInt64.ofNat n)

/-- With `after` the bytes behind the header block that arrive, the request has the first `n`
of them as its body, or it is null as they are not so many. -/
def Framed (n : Nat) (after : List UInt8) (result : Received HttpRequest) : Prop :=
  (∃ req, result = .message req ∧ n ≤ after.length ∧ req.body = after.take n) ∨
    result = .null ∧ after.length < n

/-- **The body**, for every stream: what is left in the buffer, and what arrives. -/
theorem readBody_arrived (n : Nat) (data : List UInt8) (s : SocketStream) (hpos : 0 < n)
    (hn : n < 2 ^ 31) :
    (readBody n data s).1 =
      if n ≤ (data ++ s.arrived).length then .message (some ((data ++ s.arrived).take n))
      else .null := by
  have hsome : 0 < (n : Int) := by omega
  obtain ⟨hresult, hbytes⟩ := s.readFixSize_arrived (n - data.length)
  have hint := toInt32_of_lt (show n - data.length < 2 ^ 31 by omega)
  simp only [readBody, if_pos hsome, Int.toNat_natCast, List.length_append]
  by_cases hlt : data.length < n
  · rw [if_pos hlt]
    by_cases hall : n - data.length ≤ s.arrived.length
    · rw [if_pos hall, hint] at hresult
      have hgot : ¬ (s.readFixSize (n - data.length)).1 ≤ 0 := by omega
      rw [if_neg hgot, if_pos (by omega), hbytes hall, List.take_append,
        List.take_of_length_le (Nat.le_of_lt hlt)]
    · rw [if_neg hall] at hresult
      rw [if_pos (by omega), if_neg (by omega)]
  · rw [if_neg hlt, if_pos (by omega), List.take_append_of_le_length (by omega)]

theorem contentLength_eq {c : Session} {headers : MapType} {v : List UInt8} {n : Nat}
    (hcast : c.CastsDecimals) (hfield : headers.lookup (bytes "content-length") = some v)
    (hdecimal : IsDecimal v n) (hn : n < 2 ^ 64) : contentLength c.lexicalCast headers = n := by
  rw [contentLength, hfield]
  dsimp only
  rw [hcast v n hdecimal hn, Option.getD_some, UInt64.toNat_ofNat', Nat.mod_eq_of_lt hn]

/-- The body becomes that of the request. -/
theorem recvBody_framed {c : Session} {s : HttpRequestParser} {data : List UInt8} {n : Nat}
    (stream : SocketStream) (hlength : s.getContentLength c.lexicalCast = n) (hpos : 0 < n)
    (hn : n < 2 ^ 31) : Framed n (data ++ stream.arrived) (c.recvBody s data stream).1 := by
  have hbody := readBody_arrived n data stream hpos hn
  simp only [Session.recvBody, hlength, toInt64_of_lt (show n < 2 ^ 63 by omega), hbody]
  by_cases hall : n ≤ (data ++ stream.arrived).length
  · rw [if_pos hall]
    refine .inl ⟨_, rfl, hall, ?_⟩
    obtain ⟨v, hv⟩ := (s.data.setBody ((data ++ stream.arrived).take n)).init_eq
    exact congrArg HttpRequest.body hv
  · rw [if_neg hall]
    exact .inr ⟨rfl, by omega⟩

variable {c : Session} {head more v : List UInt8} {ts : List Token} {data : HttpRequest} {n : Nat}

/-- **Framing.**  Take a header block that is a request with the content length `n`, bytes
behind it in the first read result, and any further read results.  The request is framed by
its content length, exactly when the bytes behind the header block do not number
`(int)buff_size`, or less than `n` bytes arrive. -/
theorem recvRequest_framed_iff (hcast : c.CastsDecimals)
    (hts : headTokens c.uriRelaxed head = some ts)
    (happly : applyAll head whole ts .new = some data)
    (hfield : data.headers.lookup (bytes "content-length") = some v) (hdecimal : IsDecimal v n)
    (hpos : 1 ≤ n) (hn : n < 2 ^ 31) (hsize : (head ++ more).length ≤ c.buffSize)
    (hmax : (head ++ more).length ≤ maxRead) (pieces : List (List UInt8)) :
    Framed n (more ++ (SocketStream.ofPieces pieces).arrived)
        (c.recvRequest (.ofPieces ((head ++ more) :: pieces))).1 ↔
      ((more.length : Int) = toInt32 c.buffSize →
        (more ++ (SocketStream.ofPieces pieces).arrived).length < n) := by
  have hhead := recvHead_first (SocketStream.ofPieces ((head ++ more) :: pieces)).unread.length
    pieces hts happly hsize hmax
  by_cases hfull : (more.length : Int) = toInt32 c.buffSize
  · have hbuffer : bufferFull c.buffSize more.length = true := by simpa [bufferFull] using hfull
    rw [if_pos hbuffer] at hhead
    have hnull : (c.recvRequest (.ofPieces ((head ++ more) :: pieces))).1 = .null := by
      rw [Session.recvRequest]
      generalize c.recvHead _ _ _ _ = r at hhead
      obtain ⟨result, s⟩ := r
      subst hhead
      rfl
    rw [hnull]
    constructor
    · rintro (⟨req, hreq, -⟩ | ⟨-, hless⟩) -
      · cases hreq
      · exact hless
    · intro hless
      exact .inr ⟨rfl, hless hfull⟩
  · have hbuffer : ¬ bufferFull c.buffSize more.length = true := by simpa [bufferFull] using hfull
    rw [if_neg hbuffer] at hhead
    obtain ⟨s', heq, hdata⟩ := hhead
    rw [recvRequest_message heq]
    have hlength : s'.getContentLength c.lexicalCast = n := by
      rw [HttpRequestParser.getContentLength, hdata]
      exact contentLength_eq hcast hfield hdecimal (by omega)
    exact ⟨fun _ h => absurd h hfull, fun _ => recvBody_framed _ hlength hpos hn⟩

theorem dumpSession_castsDecimals : dumpSession.CastsDecimals := by
  rintro v n ⟨hne, hdigits, hvalue⟩ hn
  have hcast : dumpSession.lexicalCast v =
      if v ≠ [] ∧ v.all (inClass digit) = true ∧ decimalValue v < 2 ^ 64 then
        some (UInt64.ofNat (decimalValue v))
      else none := rfl
  rw [hcast, hvalue, if_pos ⟨hne, hdigits, hn⟩]

/-- The header block of a request with five bytes of a body. -/
def fiveHead : List UInt8 := bytes "PUT / HTTP/1.1\r\ncontent-length: 5\r\n\r\n"

/-- Two bytes of the body come with the header block, the others in two pieces, the second of
which goes on behind the body. -/
theorem recvRequest_framed_five :
    Framed 5 (bytes "he" ++ (SocketStream.ofPieces [bytes "l", bytes "lo!"]).arrived)
        (dumpSession.recvRequest
          (.ofPieces ((fiveHead ++ bytes "he") :: [bytes "l", bytes "lo!"]))).1 ↔
      (((bytes "he").length : Int) = toInt32 dumpSession.buffSize →
        (bytes "he" ++ (SocketStream.ofPieces [bytes "l", bytes "lo!"]).arrived).length < 5) := by
  have hts : headTokens dumpSession.uriRelaxed fiveHead =
      some [.method 0 3, .path 4 5, .version 6 14, .field 16 30 32 33] := by decide
  exact recvRequest_framed_iff (v := bytes "5") dumpSession_castsDecimals hts rfl (by decide)
    (by decide) (by decide) (by decide) (by decide) (by decide) _

/-- **A request that is not framed**: the buffer is two bytes longer than 4 GiB, and the two
bytes of the body come with the header block. -/
theorem not_framed :
    dumpSession.CastsDecimals ∧
      (Session.recvRequest ⟨false, decimalCast, 2 ^ 32 + 2⟩
        (.ofPieces [bytes "PUT / HTTP/1.1\r\ncontent-length: 2\r\n\r\nhi"])).1 = .null ∧
      ¬ Framed 2 (bytes "hi") (Session.recvRequest ⟨false, decimalCast, 2 ^ 32 + 2⟩
        (.ofPieces [bytes "PUT / HTTP/1.1\r\ncontent-length: 2\r\n\r\nhi"])).1 := by
  have hnull : (Session.recvRequest ⟨false, decimalCast, 2 ^ 32 + 2⟩
      (.ofPieces [bytes "PUT / HTTP/1.1\r\ncontent-length: 2\r\n\r\nhi"])).1 = .null := by
    decide
  refine ⟨dumpSession_castsDecimals, hnull, ?_⟩
  rw [hnull]
  rintro (⟨req, hreq, -⟩ | ⟨-, hless⟩)
  · cases hreq
  · exact absurd hless (by decide)

end Mingo.Http
