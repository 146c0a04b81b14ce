import Mingo.Http.Bounds
import Mingo.Http.RoundTrip

/-!
# The size of a body

`http_parser.cpp` keeps a largest size for the body of a request and of a response,
but neither `recvRequest` nor `recvResponse` asks for it.  What bounds a body is what
the peer announces: the content length, and the sizes of the chunks as far as their
data arrives.

* `Session.limited_of_announced`, `Connection.limited_of_below` -- the sizes that the
  string `body` gets in a call, and that of the message that is returned;
* `Connection.length_recvChunk` -- what a chunk leaves in the string has such a size or less;
* `bodyLimits_iff` -- a limit is kept exactly when the peer keeps it.
-/

namespace Mingo.Http

/-! ### Requests -/

/-- The size that the string gets for a body of `length` bytes. -/
def fixedSizes (length : Int) : List Nat := if 0 < length then [length.toNat] else []

/-- The announced length fits exactly when the size does. -/
theorem fixedSizes_iff (length : Int) (limit : Nat) :
    (∀ n ∈ fixedSizes length, n ≤ limit) ↔ length ≤ limit := by
  rw [fixedSizes]
  split
  · rw [List.forall_mem_singleton]
    omega
  · exact ⟨fun _ => by omega, fun _ => List.forall_mem_nil _⟩

/-- A body has the announced length. -/
theorem length_readBody {length : Int} {data body : List UInt8} {s : SocketStream}
    (h : (readBody length data s).1 = .message (some body)) : body.length ∈ fixedSizes length := by
  simp only [readBody] at h
  rw [fixedSizes]
  split at h
  · next hpos =>
      rw [if_pos hpos, List.mem_singleton]
      split at h
      · next hlt =>
          obtain ⟨hresult, hbytes⟩ := s.readFixSize_arrived (length.toNat - data.length)
          split at h
          · cases h
          · next hgot =>
              have hall : length.toNat - data.length ≤ s.arrived.length := by
                by_contra hnot
                rw [if_neg hnot] at hresult
                exact hgot (Int.le_of_eq hresult)
              rw [Received.message.injEq, Option.some.injEq] at h
              rw [← h, hbytes hall, List.length_append, List.length_take]
              omega
      · rw [Received.message.injEq, Option.some.injEq] at h
        rw [← h, List.length_take]
        omega
  · cases h

namespace HttpRequestParser

theorem onRequestMethod_body (s : HttpRequestParser) (text : List UInt8) :
    (s.onRequestMethod text).data.body = s.data.body := by
  unfold onRequestMethod
  split <;> rfl

theorem onRequestVersion_body (s : HttpRequestParser) (v : List UInt8) :
    (s.onRequestVersion v).data.body = s.data.body := by
  unfold onRequestVersion
  split <;> rfl

theorem onRequestHttpField_body (s : HttpRequestParser) (field value : List UInt8) :
    (s.onRequestHttpField field value).data.body = s.data.body := by
  unfold onRequestHttpField
  split <;> rfl

/-- The actions do not touch the body. -/
theorem act_body {buf : List UInt8} {p : Nat} {a : RequestAction} {s t : HttpRequestParser}
    (h : act buf p a s = some t) : t.data.body = s.data.body := by
  cases a with
  | requestMethod =>
      cases h
      exact s.onRequestMethod_body _
  | httpVersion =>
      obtain ⟨v, -, rfl⟩ := Option.map_eq_some_iff.mp h
      exact s.onRequestVersion_body v
  | writeValue =>
      obtain ⟨v, -, rfl⟩ := Option.map_eq_some_iff.mp h
      exact s.onRequestHttpField_body _ v
  | fragment | queryString | requestPath =>
      obtain ⟨v, -, rfl⟩ := Option.map_eq_some_iff.mp h
      rfl
  | done =>
      simp only [act] at h
      split at h <;> cases h <;> rfl
  | _ =>
      cases h
      rfl

theorem execute_body {uriRelaxed : Bool} {buf left : List UInt8} {s t : HttpRequestParser}
    (h : execute uriRelaxed s buf = some (left, t)) : t.data.body = s.data.body := by
  obtain ⟨⟨n, u⟩, hexecute, heq⟩ := Option.map_eq_some_iff.mp h
  cases heq
  unfold httpParserExecute at hexecute
  split at hexecute
  · cases hexecute
    rfl
  · split at hexecute
    · cases hexecute
    · next hexec =>
        obtain ⟨-, heq⟩ := Option.ite_none_right_eq_some.mp hexecute
        cases heq
        exact Scanner.exec_keeps (I := fun t => t.data.body = s.data.body)
          (fun hact hs => (act_body hact).trans hs) hexec rfl

end HttpRequestParser

namespace Session

variable {c : Session} {limit : Nat}

/-- The first loop leaves the body empty. -/
theorem recvHead_body {turns : Nat} {parser parser' : HttpRequestParser} {data left : List UInt8}
    {s s' : SocketStream} (h : c.recvHead turns parser data s = (.message (parser', left), s')) :
    parser'.data.body = parser.data.body := by
  induction turns generalizing parser data s with
  | zero => cases h
  | succ turns ih =>
      obtain ⟨turns₁, bs, s₁, data₁, parser₁, hturns, -, hexecute, -, hcase⟩ := readHead_message h
      obtain rfl := Nat.succ.inj hturns
      have hbody := HttpRequestParser.execute_body hexecute
      rcases hcase with ⟨-, rfl, rfl, rfl⟩ | ⟨-, hrest⟩
      · exact hbody
      · exact (ih hrest).trans hbody

/-- The content length that a request announces in its header block. -/
def announced (c : Session) (s : SocketStream) : Option Int :=
  match (c.recvHead (s.unread.length + 1) .new [] s).1 with
  | .message (parser, _) => some (toInt64 (parser.getContentLength c.lexicalCast))
  | _ => none

/-- The sizes that the string `body` gets in a call of `recvRequest`. -/
def bodySizes (c : Session) (s : SocketStream) : List Nat :=
  match (c.recvHead (s.unread.length + 1) .new [] s).1 with
  | .message (parser, _) => fixedSizes (toInt64 (parser.getContentLength c.lexicalCast))
  | _ => []

/-- A call of `recvRequest` keeps the limit. -/
def Limited (c : Session) (limit : Nat) (s : SocketStream) : Prop :=
  (∀ req, (c.recvRequest s).1 = .message req → req.body.length ≤ limit) ∧
    ∀ n ∈ c.bodySizes s, n ≤ limit

/-- The body of a request has one of the sizes, or is empty. -/
theorem length_body_of_recvRequest {req : HttpRequest} {s : SocketStream}
    (h : (c.recvRequest s).1 = .message req) :
    req.body = [] ∨ req.body.length ∈ c.bodySizes s := by
  obtain ⟨parser, left, s', hhead, hbody⟩ : ∃ parser left s',
      c.recvHead (s.unread.length + 1) .new [] s = (.message (parser, left), s') ∧
        (c.recvBody parser left s').1 = .message req := by
    rw [recvRequest] at h
    split at h
    · next hhead => exact ⟨_, _, _, hhead, h⟩
    · cases h
    · cases h
  have hempty : parser.data.body = [] := recvHead_body hhead
  rw [bodySizes, hhead]
  dsimp only
  rw [recvBody] at hbody
  generalize hread : readBody (toInt64 (parser.getContentLength c.lexicalCast)) left s' = r at hbody
  obtain ⟨r, s''⟩ := r
  cases r with
  | null => cases hbody
  | raised => cases hbody
  | message body =>
      simp only [Received.map, Received.message.injEq] at hbody
      cases body with
      | none =>
          obtain ⟨v, hv⟩ := parser.data.init_eq
          left
          rw [← hbody, Option.elim_none, hv]
          exact hempty
      | some body =>
          obtain ⟨v, hv⟩ := (parser.data.setBody body).init_eq
          right
          rw [← hbody, Option.elim_some, hv]
          exact length_readBody (congrArg Prod.fst hread)

/-- **Requests**: the limit is kept exactly when the announced length keeps it. -/
theorem limited_of_announced (c : Session) (limit : Nat) (s : SocketStream) :
    c.Limited limit s ↔ ∀ n ∈ c.announced s, n ≤ (limit : Int) := by
  have hsizes : (∀ n ∈ c.bodySizes s, n ≤ limit) ↔ ∀ n ∈ c.announced s, n ≤ (limit : Int) := by
    rw [bodySizes, announced]
    split
    · next parser _ _ =>
        rw [fixedSizes_iff]
        simp
    · simp
  rw [← hsizes]
  constructor
  · exact And.right
  · intro h
    refine ⟨fun req hreq => ?_, h⟩
    rcases length_body_of_recvRequest hreq with hnil | hmem
    · rw [hnil]
      exact Nat.zero_le _
    · exact h _ hmem

end Session

/-! ### Responses -/

namespace Connection

variable {c : Connection} {limit size turns : Nat} {missing : Int} {s : SocketStream}

/-- What the loop `while(left > 0)` asks a `read` for. -/
def request (c : Connection) (left : Int) : Nat :=
  toSize (if toInt32 c.buffSize < left then toInt32 c.buffSize else left)

/-- The sizes that the string gets in the loop, in front of which it has `size` bytes. -/
def leftSizes (c : Connection) : Nat → Int → Nat → SocketStream → List Nat
  | 0, _, _, _ => []
  | turns + 1, left, size, s =>
      if 0 < left then
        let (bs, s) := s.read (c.request left)
        if bs = [] then []
        else (size + bs.length) :: leftSizes c turns (left - bs.length) (size + bs.length) s
      else []

/-- The sizes that the string has for a chunk.  Where `content_len + 2` overflows, it is taken
for a chunk that is in the buffer. -/
def chunkSizes (c : Connection) (contentLen : Int) (data body : List UInt8) (s : SocketStream) :
    List Nat :=
  body.length ::
    if 2 ^ 31 - 1 < contentLen + 2 ∨ contentLen + 2 ≤ data.length then
      if contentLen < 0 then [] else [body.length + contentLen.toNat]
    else
      let left := contentLen - data.length + 2
      (body.length + data.length) ::
        leftSizes c left.toNat left (body.length + data.length) s

/-- The sizes that the string `body` gets in a step of `recvResponse`. -/
def Step.bodySizes (c : Connection) : Step → List Nat
  | .turn _ _ _ _ _ => []
  | .chunk contentLen data body s => chunkSizes c contentLen data body s
  | .fixed length _ _ => fixedSizes length

/-- What the stream hands over when a chunk lacks `n` bytes: as many, if they arrive; none
where the size of the buffer is 0 as an `int`, and whole pieces where it is negative. -/
def handed (c : Connection) (n : Nat) (s : SocketStream) : Nat :=
  if 0 < toInt32 c.buffSize then min n s.arrived.length
  else if toInt32 c.buffSize = 0 then 0
  else s.cover n

/-- The bytes that a chunk of the announced size brings with it. -/
def chunkBytes (c : Connection) (contentLen : Int) (data : List UInt8) (s : SocketStream) : Nat :=
  if 2 ^ 31 - 1 < contentLen + 2 ∨ contentLen + 2 ≤ data.length then contentLen.toNat
  else data.length + c.handed (contentLen - data.length + 2).toNat s

/-- The peer keeps the limit: an announced length is not above it, nor are the chunks so far
and what comes of the next one. -/
def Step.Below (c : Connection) (limit : Nat) : Step → Prop
  | .turn _ _ _ _ _ => True
  | .chunk contentLen data body s => body.length + c.chunkBytes contentLen data s ≤ limit
  | .fixed length _ _ => length ≤ limit

/-- **One `read`** of the loop. -/
theorem handed_read (hpos : 0 < missing) (hmax : missing ≤ maxRead) (s : SocketStream) :
    ((s.read (c.request missing)).1 = [] ∧ c.handed missing.toNat s = 0) ∨
      (s.read (c.request missing)).1 ≠ [] ∧
        c.handed missing.toNat s = (s.read (c.request missing)).1.length +
          c.handed (missing.toNat - (s.read (c.request missing)).1.length)
            (s.read (c.request missing)).2 := by
  have hbounds := toInt32_bounds c.buffSize
  have hmaxRead : maxRead = 2 ^ 31 - 1 := rfl
  rcases Int.lt_trichotomy 0 (toInt32 c.buffSize) with hbuf | hbuf | hbuf
  · have hask : 0 < c.request missing ∧ c.request missing ≤ missing.toNat := by
      rw [request, toSize]
      split <;> omega
    have hread := s.length_read_le (c.request missing)
    simp only [handed, if_pos hbuf]
    rcases SocketStream.read_arrived hask.1 s with ⟨hnil, hnone⟩ | ⟨hne, harrived⟩
    · left
      rw [hnone]
      exact ⟨hnil, Nat.min_zero _⟩
    · refine .inr ⟨hne, ?_⟩
      rw [harrived, List.length_append]
      omega
  · left
    have hask : c.request missing = 0 := by
      rw [request, if_pos (by omega), ← hbuf]
      rfl
    rw [hask, handed, if_neg (by omega), if_pos hbuf.symm]
    exact ⟨s.read_zero, rfl⟩
  · have hask : maxRead ≤ c.request missing := by
      rw [request, if_pos (by omega), toSize]
      omega
    simp only [handed, if_neg (show ¬ 0 < toInt32 c.buffSize by omega),
      if_neg (show ¬ toInt32 c.buffSize = 0 by omega)]
    exact s.read_cover (by omega) (by omega) hask

/-- **The loop** brings the string to the size that the stream has for it. -/
theorem leftSizes_iff (hturns : missing.toNat ≤ turns) (hmax : missing ≤ maxRead) :
    (∀ n ∈ size :: leftSizes c turns missing size s, n ≤ limit) ↔
      size + c.handed missing.toNat s ≤ limit := by
  induction turns generalizing missing size s with
  | zero =>
      have hzero : missing.toNat = 0 := by omega
      simp [leftSizes, hzero, handed]
  | succ turns ih =>
      by_cases hpos : 0 < missing
      · simp only [leftSizes, if_pos hpos]
        rcases handed_read (c := c) hpos hmax s with ⟨hnil, hnone⟩ | ⟨hne, hmore⟩
        · rw [if_pos hnil, hnone, List.forall_mem_singleton, Nat.add_zero]
        · have hlen := List.length_pos_iff.mpr hne
          rw [if_neg hne, List.forall_mem_cons, ih (by omega) (by omega), hmore,
            show (missing - (s.read (c.request missing)).1.length).toNat =
              missing.toNat - (s.read (c.request missing)).1.length by omega]
          omega
      · have hzero : missing.toNat = 0 := by omega
        simp [leftSizes, hpos, hzero, handed]

/-- **One step** keeps the limit exactly when the peer does. -/
theorem bodySizes_iff (step : Step) :
    (∀ n ∈ step.bodySizes c, n ≤ limit) ↔ step.Below c limit := by
  cases step with
  | turn chunck parser data reads bs => exact ⟨fun _ => trivial, fun _ => List.forall_mem_nil _⟩
  | fixed length data s => exact fixedSizes_iff length limit
  | chunk contentLen data body s =>
      simp only [Step.bodySizes, Step.Below, chunkSizes, chunkBytes]
      by_cases hin : 2 ^ 31 - 1 < contentLen + 2 ∨ contentLen + 2 ≤ data.length
      · rw [if_pos hin, if_pos hin, List.forall_mem_cons]
        by_cases hneg : contentLen < 0
        · have hzero : contentLen.toNat = 0 := by omega
          rw [if_pos hneg, hzero, Nat.add_zero]
          exact ⟨And.left, fun h => ⟨h, List.forall_mem_nil _⟩⟩
        · rw [if_neg hneg, List.forall_mem_singleton]
          omega
      · have hsmall : contentLen - data.length + 2 ≤ maxRead := by
          have hmaxRead : maxRead = 2 ^ 31 - 1 := rfl
          omega
        rw [if_neg hin, if_neg hin, List.forall_mem_cons, leftSizes_iff (Nat.le_refl _) hsmall]
        omega

/-- The string that the loop returns has the last of the sizes. -/
theorem length_readLeft {body body' : List UInt8} {s' : SocketStream}
    (h : c.readLeft turns missing body s = (.message body', s')) :
    body'.length ∈ body.length :: leftSizes c turns missing body.length s := by
  induction turns generalizing missing body s with
  | zero =>
      rw [readLeft] at h
      split at h
      · cases h
      · cases h
        exact List.mem_cons_self
  | succ turns ih =>
      have hturn : c.readLeft (turns + 1) missing body s =
          if 0 < missing then
            if (s.read (c.request missing)).1 = [] then
              (.null, (s.read (c.request missing)).2.close)
            else
              c.readLeft turns (missing - (s.read (c.request missing)).1.length)
                (body ++ (s.read (c.request missing)).1) (s.read (c.request missing)).2
          else (.message body, s) := rfl
      rw [hturn] at h
      simp only [leftSizes]
      split at h
      · next hpos =>
          rw [if_pos hpos]
          split at h
          · cases h
          · next hbs =>
              have hmem := ih h
              rw [List.length_append] at hmem
              rw [if_neg hbs]
              exact List.mem_cons_of_mem _ hmem
      · cases h
        exact List.mem_cons_self

/-- What a chunk leaves in the string is at most one of its sizes. -/
theorem length_recvChunk {contentLen : Int} {data left body body' : List UInt8}
    {s' : SocketStream} (h : c.recvChunk contentLen data body s = (.message (left, body'), s')) :
    ∃ n ∈ chunkSizes c contentLen data body s, body'.length ≤ n := by
  simp only [recvChunk] at h
  rw [chunkSizes]
  split at h
  · cases h
  · next hover =>
      split at h
      · next hin =>
          split at h
          · cases h
          · next hneg =>
              cases h
              rw [if_pos (.inr hin), if_neg hneg]
              refine ⟨body.length + contentLen.toNat, by simp, ?_⟩
              rw [List.length_append, List.length_take]
              omega
      · next hin =>
          rw [if_neg (by rintro (hbig | hle) <;> omega)]
          split at h
          · next hleft =>
              have hmem := length_readLeft hleft
              rw [List.length_append] at hmem
              split at h
              · cases h
              · cases h
                refine ⟨_, List.mem_cons_of_mem _ hmem, ?_⟩
                rw [List.length_take]
                omega
          · cases h
          · cases h

/-- A call of `recvResponse` keeps the limit. -/
def Limited (c : Connection) (limit : Nat) (s : SocketStream) : Prop :=
  (∀ rsp, (c.recvResponse s).1 = .message rsp → rsp.body.length ≤ limit) ∧
    ∀ step ∈ c.steps s, ∀ n ∈ step.bodySizes c, n ≤ limit

/-- The body of a response is empty, or has one of the sizes. -/
theorem length_body_of_recvResponse {rsp : HttpResponse}
    (h : (c.recvResponse s).1 = .message rsp) :
    rsp.body = [] ∨ ∃ step ∈ c.steps s, rsp.body.length ∈ step.bodySizes c := by
  obtain ⟨parser, left, s', hhead, hbody⟩ := recvResponse_message h
  obtain ⟨-, -, -, -, -, hempty, -⟩ := recvHead_follow hhead
  by_cases hchunked : parser.parser.chunked = true
  · exact .inl ((recvBody_chunked hchunked hbody).trans hempty)
  · rw [recvBody, if_neg hchunked] at hbody
    generalize hread : readBody (toInt64 (parser.getContentLength c.lexicalCast)) left s' = r
      at hbody
    obtain ⟨r, s''⟩ := r
    cases r with
    | null => cases hbody
    | raised => cases hbody
    | message body =>
        simp only [Received.map, Received.message.injEq] at hbody
        cases body with
        | none =>
            left
            rw [← hbody]
            exact hempty
        | some body =>
            right
            refine ⟨.fixed (toInt64 (parser.getContentLength c.lexicalCast)) left s', ?_, ?_⟩
            · rw [steps, hhead, List.mem_append]
              right
              simp [hchunked]
            · rw [← hbody]
              exact length_readBody (congrArg Prod.fst hread)

/-- **Responses**: the limit is kept exactly when the announced length and the chunks keep it. -/
theorem limited_of_below (c : Connection) (limit : Nat) (s : SocketStream) :
    c.Limited limit s ↔ ∀ step ∈ c.steps s, step.Below c limit := by
  have hsizes : (∀ step ∈ c.steps s, ∀ n ∈ step.bodySizes c, n ≤ limit) ↔
      ∀ step ∈ c.steps s, step.Below c limit := forall₂_congr fun step _ => bodySizes_iff step
  rw [← hsizes]
  constructor
  · exact And.right
  · intro h
    refine ⟨fun rsp hrsp => ?_, h⟩
    rcases length_body_of_recvResponse hrsp with hnil | ⟨step, hstep, hmem⟩
    · rw [hnil]
      exact Nat.zero_le _
    · exact h step hstep _ hmem

end Connection

open Connection (chunkedBody sampleConnection sampleHead sampleChunk)

/-- **The limits of the bodies** are kept by the peers or not at all: `limit` is that of
requests, `limit'` that of responses. -/
theorem bodyLimits_iff (session : Session) (connection : Connection) (limit limit' : UInt64)
    (s s' : SocketStream) :
    (session.Limited limit.toNat s ↔ ∀ n ∈ session.announced s, n ≤ (limit.toNat : Int)) ∧
      (connection.Limited limit'.toNat s' ↔
        ∀ step ∈ connection.steps s', step.Below connection limit'.toNat) :=
  ⟨session.limited_of_announced limit.toNat s, connection.limited_of_below limit'.toNat s'⟩

/-- **A body above the limit**: with the limit of 64 MiB a request that announces one byte more,
with a limit of 1 a request with two bytes, and with a limit of 4 a chunk with five. -/
theorem not_limited :
    ¬ dumpSession.Limited (64 * 1024 * 1024)
        (.ofPieces [bytes "PUT / HTTP/1.1\r\ncontent-length: 67108865\r\n\r\n"]) ∧
      (dumpSession.recvRequest (.ofPieces
          [bytes "PUT / HTTP/1.1\r\ncontent-length: 2\r\n\r\nhi"])).1.map HttpRequest.body =
        .message (bytes "hi") ∧
      ¬ sampleConnection.Limited 4 (.ofPieces [sampleHead ++ chunkedBody [sampleChunk] 1]) := by
  have hannounced : (67108865 : Int) ∈ dumpSession.announced
      (.ofPieces [bytes "PUT / HTTP/1.1\r\ncontent-length: 67108865\r\n\r\n"]) := by decide
  refine ⟨fun h => ?_, by decide, fun h => ?_⟩
  · exact absurd ((dumpSession.limited_of_announced _ _).mp h _ hannounced) (by decide)
  · have hchunk : ∃ step ∈ sampleConnection.steps
        (.ofPieces [sampleHead ++ chunkedBody [sampleChunk] 1]),
          5 ∈ step.bodySizes sampleConnection := by decide
    obtain ⟨step, hstep, hmem⟩ := hchunk
    exact absurd (h.2 step hstep 5 hmem) (by decide)

end Mingo.Http
