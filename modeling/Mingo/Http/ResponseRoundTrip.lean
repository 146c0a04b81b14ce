import Mingo.Http.Delivery
import Mingo.Http.ResponseHead
import Mingo.Http.ResponsePhrases
import Mingo.Http.RoundTrip

/-!
# A response that is written and read again

What `HttpResponse::dump` writes is read by `recvResponse` of the other side.

* `WritableResponse.passes_head` -- the phrases of the header block make a response with the
  members that were written and the header fields that `dump` adds;
* `recvResponse_dump` -- so does a call, whatever pieces the body comes in.

Nothing of the client sets the flag `m_close`, so what comes back has the `true` of the
constructor, and a reason where none was given.
-/

namespace Mingo.Http

open Scanner (Rule events byte)
open HttpResponseParser (scanner)

/-! ### What is written -/

namespace HttpResponse

/-- What `dump` writes for the reason. -/
def shownReason (rsp : HttpResponse) : List UInt8 :=
  if rsp.reason = [] then bytes (httpStatusToString rsp.status) else rsp.reason

/-- The header fields `dump` writes, in this order. -/
def sentFields (rsp : HttpResponse) : List (List UInt8 × List UInt8) :=
  keptFields false rsp.headers ++ (bytes "connection", rsp.connectionValue) ::
    if rsp.body = [] then [] else [(bytes "content-length", decimal rsp.body.length)]

/-- The header block `dump` writes. -/
def dumpHead (rsp : HttpResponse) : List UInt8 :=
  rsp.startLine ++ crlf ++ rsp.sentFields.flatMap dumpField ++ crlf

/-- The header map with the fields `dump` adds. -/
def sentHeaders (rsp : HttpResponse) : MapType :=
  if rsp.body = [] then
    (MapType.assign (keptFields false rsp.headers) (bytes "connection") rsp.connectionValue)
  else
    (MapType.assign (keptFields false rsp.headers) (bytes "connection")
      rsp.connectionValue).assign (bytes "content-length") (decimal rsp.body.length)

/-- What the other side makes of the response. -/
def received (rsp : HttpResponse) : HttpResponse :=
  { rsp with close := true, reason := rsp.shownReason, headers := rsp.sentHeaders }

/-- **What `dump` writes**: the header block and the body. -/
theorem dump_eq (rsp : HttpResponse) : rsp.dump false [] = rsp.dumpHead ++ rsp.body := by
  rw [dump, dumpHead, sentFields]
  by_cases hbody : rsp.body = []
  · simp [hbody, keptFields]
  · simp [hbody, keptFields]

end HttpResponse

/-- A response that can be written: a status that is no negative number, a version the parser
knows, a reason in one line, and header fields that the automaton takes as they are, but for
`connection`, which `dump` leaves out.  The header map is in order and the body no longer than
an `int` can say. -/
structure WritableResponse (rsp : HttpResponse) : Prop where
  status : 0 ≤ rsp.status ∧ rsp.status < 2 ^ 31
  version : rsp.version = 0x10 ∨ rsp.version = 0x11
  reason : rsp.reason.all HttpResponseParser.lineByte = true
  headers : OrderedMap.Sorted caseFold rsp.headers
  fields : ∀ f ∈ keptFields false rsp.headers, PlainField f
  body : rsp.body.length < 2 ^ 31

instance (rsp : HttpResponse) : Decidable (WritableResponse rsp) :=
  decidable_of_iff ((0 ≤ rsp.status ∧ rsp.status < 2 ^ 31) ∧
      (rsp.version = 0x10 ∨ rsp.version = 0x11) ∧
      rsp.reason.all HttpResponseParser.lineByte = true ∧
      OrderedMap.Sorted caseFold rsp.headers ∧
      (∀ f ∈ keptFields false rsp.headers, PlainField f) ∧ rsp.body.length < 2 ^ 31)
    ⟨fun ⟨h₁, h₂, h₃, h₄, h₅, h₆⟩ => ⟨h₁, h₂, h₃, h₄, h₅, h₆⟩,
      fun ⟨h₁, h₂, h₃, h₄, h₅, h₆⟩ => ⟨h₁, h₂, h₃, h₄, h₅, h₆⟩⟩

variable {rsp : HttpResponse}

/-- No text of the table has a line end. -/
theorem statusText_line (s : Int) :
    bytes (httpStatusToString s) ≠ [] ∧
      (bytes (httpStatusToString s)).all HttpResponseParser.lineByte = true := by
  have htable : ∀ e ∈ httpStatusMap, bytes e.2 ≠ [] ∧
      (bytes e.2).all HttpResponseParser.lineByte = true := by
    decide +kernel
  rw [httpStatusToString]
  cases hlookup : httpStatusMap.lookup s with
  | none => decide
  | some text =>
      obtain ⟨l₁, l₂, hmap, -⟩ := List.lookup_eq_some_iff.mp hlookup
      exact htable (s, text) (by simp [hmap])

theorem WritableResponse.reason_line (h : WritableResponse rsp) :
    rsp.shownReason ≠ [] ∧ rsp.shownReason.all HttpResponseParser.lineByte = true := by
  rw [HttpResponse.shownReason]
  split
  · exact statusText_line rsp.status
  · next hne => exact ⟨hne, h.reason⟩

/-- The status line sets the version, the status and the reason. -/
theorem WritableResponse.phrase_line (h : WritableResponse rsp) :
    HttpResponseParser.Phrase (rsp.startLine ++ crlf) 1 (fun r => { r with
      version := rsp.version, status := rsp.status, reason := rsp.shownReason }) 20 := by
  obtain ⟨hlo, hhi⟩ := h.status
  have hstatus : ((rsp.status % 2 ^ 32).toNat : Int) = rsp.status := by omega
  obtain ⟨hne, hline⟩ := h.reason_line
  have hall := ((HttpResponseParser.phrase_version h.version).append
    (HttpResponseParser.phrase_status (n := (rsp.status % 2 ^ 32).toNat) (by omega))).append
      (HttpResponseParser.phrase_reason hne hline)
  have hbytes : rsp.startLine ++ crlf = bytes "HTTP/" ++ decimal (rsp.version >>> 4) ++
      bytes "." ++ decimal (rsp.version &&& 0x0F) ++ bytes " " ++
      (decimal (rsp.status % 2 ^ 32).toNat ++ bytes " ") ++ (rsp.shownReason ++ crlf) := by
    simp only [HttpResponse.startLine, HttpResponse.shownReason, List.append_assoc]
  rw [hbytes]
  rw [hstatus] at hall
  exact hall

theorem setHeaders_foldl (fs : List (List UInt8 × List UInt8)) (rsp : HttpResponse) :
    fs.foldl (fun rsp f => rsp.setHeader f.1 f.2) rsp =
      { rsp with headers := fs.foldl (fun m f => MapType.assign m f.1 f.2) rsp.headers } := by
  induction fs generalizing rsp with
  | nil => rfl
  | cons f fs ih => exact ih (rsp.setHeader f.1 f.2)

/-- A map in order is made by entering its fields one after the other. -/
theorem ofList_of_sorted {m : MapType} (h : OrderedMap.Sorted caseFold m) :
    OrderedMap.ofList caseFold m = m := by
  refine (OrderedMap.ofList_sorted m).ext h fun k => ?_
  rw [OrderedMap.entry_ofList, h.assignments_eq]
  cases OrderedMap.entry caseFold m k with
  | none => rfl
  | some e => rfl

theorem WritableResponse.kept_sorted (h : WritableResponse rsp) :
    OrderedMap.Sorted caseFold (keptFields false rsp.headers) := by
  apply List.Pairwise.filter
  exact h.headers

/-- The header fields are entered one after the other. -/
theorem WritableResponse.phrase_fields (h : WritableResponse rsp) :
    ∃ q', (q' = 20 ∨ q' = 43) ∧
      HttpResponseParser.Phrase (rsp.sentFields.flatMap dumpField) 20
        (fun r => rsp.sentFields.foldl (fun r f => r.setHeader f.1 f.2) r) q' := by
  obtain ⟨q', hconnection, hq'⟩ := HttpResponseParser.phrase_connection rsp
  have hkept := HttpResponseParser.phrase_fields h.fields
  have hboth := hkept.append hconnection
  rw [HttpResponse.sentFields, List.flatMap_append]
  by_cases hbody : rsp.body = []
  · rw [if_pos hbody]
    refine ⟨q', hq', ?_⟩
    simpa only [List.flatMap_cons, List.flatMap_nil, List.append_nil, List.foldl_append,
      List.foldl_cons, List.foldl_nil] using hboth
  · have hlength := hboth.append (HttpResponseParser.phrase_length rsp.body.length hq')
    rw [if_neg hbody]
    refine ⟨20, .inl rfl, ?_⟩
    simpa only [List.flatMap_cons, List.flatMap_nil, List.append_nil, List.foldl_append,
      List.foldl_cons, List.foldl_nil, List.append_assoc] using hlength

theorem WritableResponse.sentFields_foldl (h : WritableResponse rsp) :
    rsp.sentFields.foldl (fun m f => MapType.assign m f.1 f.2) [] = rsp.sentHeaders := by
  have hkept : (keptFields false rsp.headers).foldl (fun m f => MapType.assign m f.1 f.2) [] =
      keptFields false rsp.headers := ofList_of_sorted h.kept_sorted
  rw [HttpResponse.sentFields, HttpResponse.sentHeaders, List.foldl_append, hkept, List.foldl_cons]
  split
  · rfl
  · rfl

/-- **The header block that `dump` writes** makes the response, but for its body. -/
theorem WritableResponse.passes_head (h : WritableResponse rsp)
    (memory : List UInt8 → List UInt8) :
    ∃ bs s, rsp.dumpHead = bs ++ [10] ∧
      scanner.Passes HttpResponseParser.act [] bs 1 (.new memory) 3 s ∧
      s.data = { rsp.received with body := [] } ∧ s.error = 0 ∧ s.parser.chunked = false := by
  obtain ⟨q', hq', hfields⟩ := h.phrase_fields
  obtain ⟨s, hpasses, hdata, herror, hchunked⟩ :=
    (h.phrase_line.append hfields) [] (HttpResponseParser.new memory)
  have hheaders : s.data = { rsp.received with body := [] } := by
    have hmap : rsp.sentFields.foldl (fun m f => MapType.assign m f.1 f.2)
        HttpResponse.new.headers = rsp.sentHeaders := h.sentFields_foldl
    have hentered : s.data = rsp.sentFields.foldl (fun r f => r.setHeader f.1 f.2)
        { HttpResponse.new with
          version := rsp.version, status := rsp.status, reason := rsp.shownReason } := hdata
    rw [hentered, setHeaders_foldl]
    dsimp only
    rw [hmap]
    rfl
  have hhead : rsp.dumpHead =
      rsp.startLine ++ crlf ++ rsp.sentFields.flatMap dumpField ++ [13] ++ [10] := by
    simp [HttpResponse.dumpHead, crlf, bytes]
  -- the carriage return of the empty line may still be due to say that the connection closes
  obtain ⟨close, hreturn⟩ : ∃ close : Bool, scanner.Passes HttpResponseParser.act
      ([] ++ (rsp.startLine ++ crlf ++ rsp.sentFields.flatMap dumpField)) [13] q' s 3
      { s with parser := { s.parser with close := close } } := by
    rcases hq' with rfl | rfl
    · exact ⟨s.parser.close, .byte (r := byte 13 [] 3) (by decide) (by decide) fun post => rfl⟩
    · exact ⟨true, .byte (r := byte 13 [.writeConnectionClose] 3) (by decide) (by decide)
        fun post => rfl⟩
  exact ⟨_, _, hhead, hpasses.append hreturn, hheaders, herror, hchunked⟩

namespace Connection

variable {c : Connection} {bs more head body : List UInt8} {pieces rest : List (List UInt8)}
  {s : HttpResponseParser} {memory : List UInt8 → List UInt8}

/-- A call of the parser on a buffer with a header block. -/
theorem execute_passes (h : scanner.Passes HttpResponseParser.act [] bs 1 (.new memory) 3 s)
    (more : List UInt8) :
    ∃ s', HttpResponseParser.execute false (.new memory) (bs ++ [10] ++ more) = some (more, s') ∧
      s'.parser.cs = 120 ∧ s'.data = s.data ∧ s'.error = s.error ∧
      s'.parser.chunked = s.parser.chunked := by
  have hrule : scanner.rule 3 10 = some (byte 10 [.done] 120) := by decide
  obtain ⟨rs, hwalk, hlast, hperform⟩ := h.walk hrule (by decide)
  have hlen := Scanner.length_of_walk hwalk
  have hscan : scanner.exec (HttpResponseParser.act (bs ++ [10] ++ more)) 1 0
      (HttpResponseParser.new memory).rewind (bs ++ [10] ++ more) = _ :=
    Scanner.exec_of_walk hwalk more 0 (HttpResponseParser.new memory).rewind
  rw [← hlen] at hscan
  obtain ⟨t, s', ht, hexecute, hparser, hdata, herror⟩ :=
    HttpResponseParser.httpclientParserExecute_eq (s := HttpResponseParser.new memory) rfl (by simp)
      (by simp [hlen]) hscan
  have hall := hperform ([10] ++ more)
  rw [← List.append_assoc] at hall
  have hrewind : (HttpResponseParser.new memory).rewind = HttpResponseParser.new memory := rfl
  rw [hrewind, hall] at ht
  obtain rfl := Option.some.inj ht
  refine ⟨s', ?_, ?_, hdata, herror, ?_⟩
  · rw [HttpResponseParser.execute, if_neg Bool.false_ne_true, hexecute, Option.map_some, hlen,
      List.drop_left]
  · rw [hparser]
    exact hlast
  · rw [hparser]

/-- The first `read`, which brings the header block. -/
theorem recvHead_passes (turns : Nat)
    (h : scanner.Passes HttpResponseParser.act [] bs 1 (.new c.memory) 3 s)
    (herror : s.error = 0) (hsize : (bs ++ [10] ++ more).length ≤ c.buffSize)
    (hmax : (bs ++ [10] ++ more).length ≤ maxRead) (hint : c.buffSize < 2 ^ 31)
    (rest : List (List UInt8)) :
    ∃ s', c.recvHead (turns + 1) (.new c.memory) [] ⟨(bs ++ [10] ++ more) :: rest, true⟩ =
        (.message (s', more), ⟨rest, true⟩) ∧
      s'.data = s.data ∧ s'.parser.chunked = s.parser.chunked := by
  obtain ⟨s', hexecute, hcs, hdata, herror', hchunked⟩ := execute_passes h more
  refine ⟨s', ?_, hdata, hchunked⟩
  have hread : (⟨(bs ++ [10] ++ more) :: rest, true⟩ : SocketStream).read c.buffSize =
      (bs ++ [10] ++ more, ⟨rest, true⟩) := SocketStream.read_piece rfl rfl hsize hmax
  have hne : bs ++ [10] ++ more ≠ [] := by simp
  have hhas : s'.hasError = false := by
    simp [HttpResponseParser.hasError, HttpClientParser.hasError, hcs, herror', herror]
  have hfinished : s'.isFinished = true := by
    simp [HttpResponseParser.isFinished, HttpClientParser.isFinished, hcs]
  have hfull : bufferFull c.buffSize more.length = false := not_full (by simp) hsize hint
  simp only [recvHead, readHead, List.length_nil, Nat.sub_zero, hread, hne, if_false,
    List.nil_append, hexecute, hhas, Bool.false_eq_true, hfull, hfinished, if_true]

/-- `boost::lexical_cast` reads what `os << n` writes. -/
def ReadsDecimals (c : Connection) : Prop :=
  ∀ n < 2 ^ 64, c.lexicalCast (decimal n) = some (UInt64.ofNat n)

end Connection

/-- The header field with the length is found in the header map. -/
theorem WritableResponse.lookup_length (h : WritableResponse rsp) :
    rsp.sentHeaders.lookup (bytes "content-length") =
      if rsp.body = [] then none else some (decimal rsp.body.length) := by
  have hdistinct : caseFold (bytes "content-length") ≠ caseFold (bytes "connection") := by decide
  have hmissing : OrderedMap.entry caseFold (keptFields false rsp.headers)
      (bytes "content-length") = none :=
    h.kept_sorted.entry_eq_none fun f hf => (h.fields f hf).other _ (by decide)
  unfold HttpResponse.sentHeaders MapType.lookup MapType.assign
  split
  · simp [OrderedMap.entry_assign, hdistinct, hmissing]
  · simp [OrderedMap.entry_assign]

/-- The header fields announce the body. -/
theorem WritableResponse.contentLength_eq {lexicalCast : List UInt8 → Option UInt64}
    (h : WritableResponse rsp)
    (hcast : ∀ n < 2 ^ 64, lexicalCast (decimal n) = some (UInt64.ofNat n)) :
    toInt64 (contentLength lexicalCast rsp.sentHeaders) = rsp.body.length := by
  have hsmall : rsp.body.length < 2 ^ 31 := h.body
  rw [contentLength, h.lookup_length]
  by_cases hbody : rsp.body = []
  · rw [if_pos hbody, hbody]
    rfl
  · rw [if_neg hbody]
    dsimp only
    rw [hcast _ (by omega), Option.getD_some, UInt64.toNat_ofNat', Nat.mod_eq_of_lt (by omega),
      toInt64_of_lt (by omega)]

namespace Connection

variable {c : Connection} {pieces : List (List UInt8)}

/-- **A response that is written and read again.**  Whatever pieces its body comes in, the other
side receives it with the header fields that `dump` adds, and the stream is left in front of
what comes behind it. -/
theorem recvResponse_dump (hcast : c.ReadsDecimals) (hint : c.buffSize < 2 ^ 31)
    (h : WritableResponse rsp) (hpieces : Brings c.buffSize rsp.dumpHead rsp.body pieces)
    (later : List (List UInt8)) :
    c.recvResponse (.ofPieces (pieces ++ later)) = (.message rsp.received, .ofPieces later) := by
  obtain ⟨more, rest, rfl, hbody, hsize, hmax, hne⟩ := hpieces
  obtain ⟨bs, s, hhead, hpasses, hdata, herror, hchunked⟩ := h.passes_head c.memory
  rw [hhead] at hsize hmax ⊢
  rw [List.cons_append]
  obtain ⟨s', hrecv, hdata', hchunked'⟩ := recvHead_passes
    (SocketStream.ofPieces ((bs ++ [10] ++ more) :: (rest ++ later))).unread.length
    hpasses herror hsize hmax hint (rest ++ later)
  have hreceived : s'.data = { rsp.received with body := [] } := hdata'.trans hdata
  have hplain : s'.parser.chunked = false := hchunked'.trans hchunked
  have hlength : toInt64 (s'.getContentLength c.lexicalCast) = rsp.body.length := by
    rw [HttpResponseParser.getContentLength, hreceived]
    exact h.contentLength_eq hcast
  have hlen : rsp.body.length = (toInt64 (s'.getContentLength c.lexicalCast)).toNat := by
    rw [hlength, Int.toNat_natCast]
  have hread := readBody_pieces hbody hne hlen h.body later
  rw [SocketStream.ofPieces] at hrecv ⊢
  rw [recvResponse, hrecv]
  dsimp only
  rw [recvBody, hplain, if_neg Bool.false_ne_true, hread, hlength, hreceived]
  by_cases hpos : 0 < (rsp.body.length : Int)
  · rw [if_pos hpos]
    rfl
  · have hzero : rsp.body = [] := by
      rw [← List.length_eq_zero_iff]
      omega
    rw [if_neg hpos, HttpResponse.received, hzero]
    rfl

end Connection

/-! ### A response that comes back -/

/-- A connection with the default buffer. -/
def dumpConnection : Connection := ⟨decimalCast, 4096, fun _ => []⟩

/-- A response with every member set, and a header field that `dump` leaves out. -/
def sampleFound : HttpResponse where
  status := 302
  version := 0x10
  close := false
  body := bytes "moved"
  reason := []
  headers := [(bytes "Connection", bytes "x"), (bytes "Content-Type", bytes "text/html "),
    (bytes "Location", bytes "/new")]

end Mingo.Http
