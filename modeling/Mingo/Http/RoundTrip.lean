import Mingo.Http.Phrases
import Mingo.Http.Pipeline

/-!
# A request that is written and read again

What `HttpRequest::dump` writes is sent in one piece, and `recvRequest` of the
other side reads it.

* `Writable.message` -- the phrases of the header block make a request with the
  members that were written and the header fields that `dump` adds;
* `recvRequest_one_piece` -- a request in one piece whose header block fits in the
  buffer;
* `recvRequest_dump` -- both together.
-/

namespace Mingo.Http

open Scanner (Rule events on byte)
open HttpRequestParser (scanner)

variable {c : Session} {flag : Bool} {req : HttpRequest}

/-! ### The header block -/

/-- The URI and the space behind it. -/
def HttpRequest.dumpUri (req : HttpRequest) : List UInt8 :=
  req.path ++ (if req.query = [] then [] else bytes "?") ++ req.query ++
    (if req.fragment = [] then [] else bytes "#") ++ req.fragment ++ [32]

/-- The URI sets the path, and the query and the fragment where there are any. -/
theorem Writable.phrase_uri (h : Writable req)
    (hpath : [47, 47] <+: req.path → takesPath flag req.path = true) :
    ∃ f, Phrase flag req.dumpUri 3 f 4 ∧ ∀ r : HttpRequest, r.query = [] → r.fragment = [] →
      f r = { r with path := req.path, query := req.query, fragment := req.fragment } := by
  obtain ⟨rest, q, hrest, hsilent, hend⟩ := h.silent_path hpath
  by_cases hq : req.query = []
  · by_cases hf : req.fragment = []
    · have hbytes : req.dumpUri = 47 :: rest ++ [32] := by simp [HttpRequest.dumpUri, hrest, hq, hf]
      refine ⟨_, hbytes ▸ phrase_path hsilent hend.space (.inr rfl), ?_⟩
      intro r hrq hrf
      rw [hrest, hq.trans hrq.symm, hf.trans hrf.symm]
    · have hbytes : req.dumpUri = 47 :: rest ++ [35] ++ (req.fragment ++ [32]) := by
        simp [HttpRequest.dumpUri, hrest, hq, hf, bytes]
      refine ⟨_, hbytes ▸ (phrase_path hsilent hend.hash (.inr rfl)).append
        (phrase_fragment h.fragment hf), ?_⟩
      intro r hrq _
      rw [hrest, hq.trans hrq.symm]
  · have hquery := (phrase_path hsilent hend.mark (.inl rfl)).append
      (phrase_query h.query hq (b := 32) (r := byte 32 [.queryString, .requestUri] 4)
        (rule_of_byte flag 32 (by decide)) rfl)
    have hqueryHash := (phrase_path hsilent hend.mark (.inl rfl)).append
      (phrase_query h.query hq (b := 35) (r := byte 35 [.queryString, .requestUri] 20)
        (rule_of_byte flag 35 (by decide)) rfl)
    by_cases hf : req.fragment = []
    · have hbytes : req.dumpUri = 47 :: rest ++ [63] ++ (req.query ++ [32]) := by
        simp [HttpRequest.dumpUri, hrest, hq, hf, bytes]
      refine ⟨_, hbytes ▸ hquery, ?_⟩
      intro r _ hrf
      rw [hrest, hf.trans hrf.symm]
    · have hbytes : req.dumpUri =
          47 :: rest ++ [63] ++ (req.query ++ [35]) ++ (req.fragment ++ [32]) := by
        simp [HttpRequest.dumpUri, hrest, hq, hf, bytes]
      refine ⟨_, hbytes ▸ hqueryHash.append (phrase_fragment h.fragment hf), ?_⟩
      intro r _ _
      rw [hrest]

/-- The request line sets the method, the URI and the version. -/
theorem Writable.phrase_line (h : Writable req) (hmethod : req.method ≠ .msearch)
    (hpath : [47, 47] <+: req.path → takesPath flag req.path = true) :
    ∃ f, Phrase flag req.dumpLine 1 f 13 ∧
      f .new = { req with close := true, body := [], headers := [] } := by
  obtain ⟨f, huri, hf⟩ := h.phrase_uri hpath
  have hline := ((phrase_method h.method hmethod).append huri).append (phrase_version h.version)
  have hbytes : req.dumpLine = bytes (httpMethodToString req.method) ++ ([32] : List UInt8) ++
      req.dumpUri ++ (bytes "HTTP/" ++ decimal (req.version >>> 4) ++ bytes "." ++
      decimal (req.version &&& 0x0F) ++ crlf) := by
    simp [HttpRequest.dumpLine, HttpRequest.dumpUri, bytes]
  refine ⟨_, hbytes ▸ hline, ?_⟩
  rw [hf _ rfl rfl]
  rfl

theorem headers_foldl (fs : List (List UInt8 × List UInt8)) (req : HttpRequest) :
    fs.foldl (fun req f => req.setHeader f.1 f.2) req =
      { req with headers := fs.foldl (fun m f => MapType.assign m f.1 f.2) req.headers } := by
  induction fs generalizing req with
  | nil => rfl
  | cons f fs ih => exact ih (req.setHeader f.1 f.2)

/-- What the header block makes of a new request. -/
def HttpRequest.parsed (req : HttpRequest) : HttpRequest :=
  { req with close := true, body := [], headers := req.sentHeaders }

/-- **The header block that `dump` writes** has the tokens of the request. -/
theorem Writable.headTokens (h : Writable req) (hmethod : req.method ≠ .msearch)
    (hpath : [47, 47] <+: req.path → takesPath flag req.path = true) :
    ∃ ts, headTokens flag req.dumpHead = some ts ∧
      applyAll req.dumpHead whole ts .new = some req.parsed := by
  obtain ⟨f, hline, hf⟩ := h.phrase_line hmethod hpath
  obtain ⟨m, hscans⟩ := (hline.append (phrase_fields h.sentFields_good)) [] .zero .new
  have hreturn := Scans.mark .startField (r := byte 13 [.startField] 18)
    (rule_of_byte flag (q := 13) 13 (by decide)) rfl (by decide) (fun m p => rfl)
    ([] ++ (req.dumpLine ++ req.sentFields.flatMap dumpField)) m
    (req.sentFields.foldl (fun req f => req.setHeader f.1 f.2) (f .new))
  obtain ⟨rs, hfollow, hlast, hends, -, hdata⟩ := hscans.append hreturn
  have hnewline : (scanner flag).rule 18 10 = some (byte 10 [.done] 348) :=
    rule_of_byte flag 10 (by decide)
  have hdone : (scanner flag).ends (byte 10 [.done] 348) = true := by
    simp [Scanner.ends, byte, scanner]
  have hstate : Scanner.lastState 1 rs = 18 := hlast
  rw [← hstate] at hnewline
  have hwalk := Scanner.walk_of_follow hfollow hends hnewline hdone
  have hhead : req.dumpHead =
      req.dumpLine ++ req.sentFields.flatMap dumpField ++ [13] ++ [10] := by
    simp [HttpRequest.dumpHead, crlf, bytes]
  have htokens : Marks.zero.tokens (events 0 (rs ++ [byte 10 [.done] 348])) =
      Marks.zero.tokens (events 0 rs) := by
    rw [Scanner.events_append, Marks.tokens_append]
    simp [events, byte, Marks.tokens, Marks.completed]
  rw [← hhead] at hwalk
  refine ⟨Marks.zero.tokens (events 0 rs), ?_, ?_⟩
  · have hfinal : Scanner.lastState 1 (rs ++ [byte 10 [.done] 348]) = 348 := by
      rw [Scanner.lastState_append]
      rfl
    rw [Mingo.Http.headTokens, hwalk]
    dsimp only
    rw [if_pos hfinal, htokens]
  · have hheaders : req.sentFields.foldl (fun req f => req.setHeader f.1 f.2) (f .new) =
        req.parsed := by
      rw [headers_foldl, hf, h.sentFields_foldl]
      rfl
    have hall := hdata [10]
    rw [List.nil_append, ← hhead] at hall
    simpa only [List.length_nil, hheaders] using hall

/-! ### A request in one piece -/

/-- The bytes of the body that the first `read` returns behind the header block. -/
def Session.buffered (c : Session) (head body : List UInt8) : Nat :=
  min (min c.buffSize maxRead - head.length) body.length

/-- The call goes the same way when the first `read` is the same. -/
theorem recvHead_congr {turns : Nat} {s : HttpRequestParser} {stream stream' : SocketStream}
    (h : stream.read c.buffSize = stream'.read c.buffSize) :
    c.recvHead (turns + 1) s [] stream = c.recvHead (turns + 1) s [] stream' := by
  simp only [Session.recvHead, readHead, List.length_nil, Nat.sub_zero, h]

/-- **The first `read`** returns the header block and `buffered` bytes of the body. -/
theorem read_first {head : List UInt8} (body : List UInt8)
    (hhead : head.length ≤ min c.buffSize maxRead) :
    ∃ more rest, more ++ rest.flatten = body ∧ more.length = c.buffered head body ∧
      (∀ p ∈ rest, p ≠ []) ∧
      (SocketStream.ofPieces [head ++ body]).read c.buffSize = (head ++ more, .ofPieces rest) := by
  by_cases hall : (head ++ body).length ≤ min c.buffSize maxRead
  · refine ⟨body, [], by simp, ?_, by simp, ?_⟩
    · rw [List.length_append] at hall
      rw [Session.buffered]
      omega
    · exact SocketStream.read_piece rfl rfl (by omega) (by omega)
  · have hlong : min c.buffSize maxRead - head.length < body.length := by
      rw [List.length_append] at hall
      omega
    refine ⟨body.take (min c.buffSize maxRead - head.length),
      [body.drop (min c.buffSize maxRead - head.length)], by simp, ?_, ?_, ?_⟩
    · rw [List.length_take, Session.buffered]
    · simp only [List.mem_singleton, forall_eq, ne_eq, List.drop_eq_nil_iff]
      omega
    · simp only [SocketStream.read, SocketStream.ofPieces, if_true, if_neg hall,
        List.take_append, List.take_of_length_le hhead, List.drop_append,
        List.drop_eq_nil_of_le hhead, List.nil_append]

/-- **A request in one piece.**  When its header block fits in the buffer, the
request is returned as far as the check on the length of its body lets it pass. -/
theorem recvRequest_one_piece (m : Message c) (hhead : m.head.length ≤ min c.buffSize maxRead)
    (hfull : bufferFull c.buffSize (c.buffered m.head m.body) = false) :
    (c.recvRequest (.ofPieces [m.head ++ m.body])).1 =
      if BodyFits (c.buffered m.head m.body) m.body.length then .message m.request else .null := by
  obtain ⟨more, rest, hmore, hlength, hne, hread⟩ := read_first m.body hhead
  have hsize : (m.head ++ more).length ≤ min c.buffSize maxRead := by
    rw [List.length_append, hlength, Session.buffered]
    omega
  -- the call cannot tell this piece from two
  have htwo : (SocketStream.ofPieces ((m.head ++ more) :: rest)).read c.buffSize =
      (m.head ++ more, .ofPieces rest) :=
    SocketStream.read_piece rfl rfl (by omega) (by omega)
  have hlast := recvHead_first (SocketStream.ofPieces [m.head ++ m.body]).unread.length rest
    m.scanned m.parsed (show (m.head ++ more).length ≤ c.buffSize by omega) (by omega)
  rw [hlength, hfull, if_neg (by simp), ← recvHead_congr (hread.trans htwo.symm)] at hlast
  obtain ⟨s', heq, hdata⟩ := hlast
  have hempty : s'.data.body = [] := by
    rw [hdata]
    exact (applyAll_body m.parsed).1
  have hsized : m.body.length = bodyLength c.lexicalCast s'.data.headers := by
    rw [hdata]
    exact m.sized
  have hleft : (SocketStream.ofPieces rest).Nonempty := hne
  have hopen : (SocketStream.ofPieces rest).connected = true := rfl
  have hbody := recvBody_eq hopen hleft hmore hsized hempty
  rw [hlength, hdata] at hbody
  rw [recvRequest_message heq]
  exact hbody

/-- `boost::lexical_cast` reads what `os << n` writes. -/
def Session.ReadsDecimals (c : Session) : Prop :=
  ∀ n < 2 ^ 64, c.lexicalCast (decimal n) = some (UInt64.ofNat n)

/-- What `dump` writes, sent in one piece, is received as the request written, with
the header fields that `dump` adds. -/
def Session.RoundTrip (c : Session) (req : HttpRequest) : Prop :=
  (c.recvRequest (.ofPieces [req.dump false])).1 =
    .message { req with headers := req.sentHeaders }

/-- The header fields `dump` adds are found in the header map. -/
theorem Writable.lookup_added (h : Writable req) :
    req.sentHeaders.lookup (bytes "connection") = some req.connectionValue ∧
      req.sentHeaders.lookup (bytes "content-length") =
        if req.body = [] then none else some (decimal req.body.length) := by
  have hdistinct : caseFold (bytes "connection") ≠ caseFold (bytes "content-length") := by decide
  have hmissing : OrderedMap.entry caseFold req.headers (bytes "content-length") = none :=
    h.headers.entry_eq_none fun f hf => (h.added f hf).2
  unfold HttpRequest.sentHeaders MapType.lookup MapType.assign
  split
  · simp [OrderedMap.entry_assign, hdistinct.symm, hmissing]
  · simp [OrderedMap.entry_assign, hdistinct]

instance (c : Session) (req : HttpRequest) : Decidable (c.RoundTrip req) :=
  inferInstanceAs (Decidable (_ = _))

/-- The header fields announce the body. -/
theorem Writable.bodyLength_eq (h : Writable req) (hcast : c.ReadsDecimals) :
    bodyLength c.lexicalCast req.sentHeaders = req.body.length := by
  rw [bodyLength, contentLength, h.lookup_added.2]
  by_cases hbody : req.body = []
  · rw [if_pos hbody, hbody]
    rfl
  · have hlt : req.body.length < 2 ^ 64 := h.body.trans (by decide)
    rw [if_neg hbody]
    dsimp only
    rw [hcast _ hlt, Option.getD_some, UInt64.toNat_ofNat', Nat.mod_eq_of_lt hlt,
      toInt64_of_lt h.body, Int.toNat_natCast]

/-- `init` reads the connection flag back from the header field. -/
theorem Writable.init_parsed (h : Writable req) :
    (req.parsed.setBody req.body).init = { req with headers := req.sentHeaders } := by
  have hconn : (req.parsed.setBody req.body).getHeader (bytes "connection") [] =
      req.connectionValue := by
    rw [HttpRequest.getHeader]
    exact congrArg (·.getD []) h.lookup_added.1
  have hvalue : req.connectionValue ≠ [] ∧
      (caseFold req.connectionValue ≠ caseFold (bytes "keep-alive") ↔ req.close = true) := by
    rw [HttpRequest.connectionValue]
    cases req.close <;> decide
  rw [HttpRequest.init, hconn, if_neg hvalue.1]
  have hclose : decide (caseFold req.connectionValue ≠ caseFold (bytes "keep-alive")) =
      req.close := by
    rw [Bool.eq_iff_iff, decide_eq_true_iff, hvalue.2]
  rw [hclose]
  rfl

/-- The request that `dump` wrote, as a message on the wire. -/
theorem Writable.message (h : Writable req) (hcast : c.ReadsDecimals)
    (hmethod : req.method ≠ .msearch)
    (hpath : [47, 47] <+: req.path → takesPath c.uriRelaxed req.path = true) :
    ∃ m : Message c, m.head = req.dumpHead ∧ m.body = req.body ∧
      m.request = { req with headers := req.sentHeaders } := by
  obtain ⟨ts, hts, happly⟩ := h.headTokens hmethod hpath
  exact ⟨⟨req.dumpHead, req.body, ts, req.parsed, hts, happly, (h.bodyLength_eq hcast).symm⟩, rfl,
    rfl, h.init_parsed⟩

/-- **Writing and reading a request.** -/
theorem recvRequest_dump (hcast : c.ReadsDecimals) (h : Writable req)
    (hmethod : req.method ≠ .msearch)
    (hpath : [47, 47] <+: req.path → takesPath c.uriRelaxed req.path = true)
    (hhead : req.dumpHead.length ≤ min c.buffSize maxRead)
    (hgoes : c.GoesOn (c.buffered req.dumpHead req.body) req.body.length) :
    c.RoundTrip req := by
  obtain ⟨m, hm, hbody, hrequest⟩ := h.message hcast hmethod hpath
  have hdump : req.dump false = m.head ++ m.body := by rw [h.dump_eq, hm, hbody]
  rw [← hm, ← hbody] at hgoes
  rw [← hm] at hhead
  rw [Session.RoundTrip, hdump, recvRequest_one_piece m hhead hgoes.1, if_pos hgoes.2, hrequest]

/-! ### Requests that come back, and some that do not -/

/-- A cast to `uint64_t` that takes decimal digits. -/
def decimalCast (v : List UInt8) : Option UInt64 :=
  let n := Nat.ofDigitChars 10 (v.map fun b => Char.ofNat b.toNat) 0
  if v ≠ [] ∧ v.all (Scanner.inClass Scanner.digit) = true ∧ n < 2 ^ 64 then some (UInt64.ofNat n)
  else none

/-- A session with the default buffer. -/
def dumpSession : Session := ⟨false, decimalCast, 4096⟩

theorem dumpSession_readsDecimals : dumpSession.ReadsDecimals := by
  intro n hn
  have hdigits : (decimal n).all (Scanner.inClass Scanner.digit) = true := by
    rw [List.all_eq_true]
    intro b hb
    have hrange := decimal_digits hb
    simp [Scanner.inClass, Scanner.digit, hrange]
  have hne : decimal n ≠ [] := by simp [decimal, Nat.toDigits_ne_nil]
  show decimalCast (decimal n) = some (UInt64.ofNat n)
  simp only [decimalCast, chars_decimal, Nat.ofDigitChars_ten_toDigits]
  rw [if_pos ⟨hne, hdigits, hn⟩]

/-- A request with every member set. -/
def samplePut : HttpRequest where
  method := .put
  version := 0x10
  close := false
  path := bytes "/a%20b//c"
  query := bytes "q=/?"
  fragment := bytes "top"
  body := bytes "hi"
  headers := [(bytes "Accept", bytes "*/* "), (bytes "host", [])]

/-- It comes back. -/
theorem recvRequest_dump_put : dumpSession.RoundTrip samplePut :=
  recvRequest_dump dumpSession_readsDecimals (by decide) (by decide) (by decide)
    (by decide) (by decide)

/-- With a body that is 2 GiB longer than the buffer it does not. -/
theorem not_roundTrip_long_body {body : List UInt8} (hlen : body.length = 2 ^ 31 + 4096) :
    Writable { samplePut with body := body } ∧
      ¬ dumpSession.RoundTrip { samplePut with body := body } := by
  have hput : Writable samplePut := by decide
  have hwritable : Writable { samplePut with body := body } := by
    refine ⟨hput.method, hput.version, hput.slash, hput.path, hput.query, hput.fragment,
      hput.headers, hput.fields, hput.added, ?_⟩
    rw [hlen]
    decide
  have hne : body ≠ [] := by
    rintro rfl
    cases hlen
  have hmethod : samplePut.method ≠ .msearch := by decide
  have hslashes : ¬ [47, 47] <+: samplePut.path := by decide
  obtain ⟨m, hm, hmbody, -⟩ := hwritable.message dumpSession_readsDecimals hmethod
    fun h => absurd h hslashes
  have hsent : HttpRequest.sentFields { samplePut with body := body } =
      (bytes "connection", bytes "keep-alive") :: samplePut.headers ++
        [(bytes "content-length", decimal (2 ^ 31 + 4096))] := by
    rw [HttpRequest.sentFields, if_neg hne, hlen]
    rfl
  have hline : (HttpRequest.dumpLine { samplePut with body := body }).length = 33 := by
    have : samplePut.dumpLine.length = 33 := by decide
    exact this
  have hhead : m.head.length = 109 := by
    rw [hm, HttpRequest.dumpHead, hsent, List.length_append, List.length_append, hline]
    decide
  have hbuffered : dumpSession.buffered m.head m.body = 3987 := by
    rw [Session.buffered, hhead, hmbody, hlen]
    decide
  have hnull := recvRequest_one_piece m (by rw [hhead]; decide)
    (by rw [hbuffered]; decide)
  have hlong : ¬ BodyFits 3987 (2 ^ 31 + 4096) := by decide
  rw [hbuffered, hmbody, hlen, if_neg hlong] at hnull
  refine ⟨hwritable, ?_⟩
  rw [Session.RoundTrip, hwritable.dump_eq, ← hm, hnull]
  intro h
  cases h

/-- **Requests that can be written and do not come back**: one whose path begins
with `//` and is no authority, one with the method `M-SEARCH`, one whose header
block is longer than the buffer, one with a body of 2 GiB behind the buffer, and
any without a body where the size of the buffer is 0 as an `int`. -/
theorem roundTrip_fails :
    dumpSession.ReadsDecimals ∧
      (Writable { samplePut with path := bytes "//a:b" } ∧
        ¬ dumpSession.RoundTrip { samplePut with path := bytes "//a:b" }) ∧
      (Writable { samplePut with method := .msearch } ∧
        ¬ dumpSession.RoundTrip { samplePut with method := .msearch }) ∧
      (Writable { samplePut with path := 47 :: List.replicate 64 97 } ∧
        ¬ Session.RoundTrip ⟨false, decimalCast, 64⟩
          { samplePut with path := 47 :: List.replicate 64 97 }) ∧
      (Writable { samplePut with body := List.replicate (2 ^ 31 + 4096) 97 } ∧
        ¬ dumpSession.RoundTrip { samplePut with body := List.replicate (2 ^ 31 + 4096) 97 }) ∧
      (Writable { samplePut with body := [] } ∧
        ¬ Session.RoundTrip ⟨false, decimalCast, 2 ^ 32⟩ { samplePut with body := [] }) := by
  refine ⟨dumpSession_readsDecimals, ?_, ?_, ?_, ?_, ?_⟩
  · decide
  · decide
  · decide +kernel
  · exact not_roundTrip_long_body List.length_replicate
  · decide

end Mingo.Http
