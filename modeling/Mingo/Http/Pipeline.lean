import Mingo.Http.Segmentation

/-!
# Pipelined requests

`HttpServer::handleClient` calls `recvRequest` again and again on one session.
Every call parses out of a buffer of its own, and what it read behind its request
goes with that buffer.  So of several requests in one read result only the first
is ever seen:

* `recvAll_iff` -- the calls return the requests sent, in order, exactly when
  every read result holds one request.
-/

namespace Mingo.Http

open Scanner (events)

/-- A well-formed request: a header block the parser takes, and a body of the
length its header fields announce. -/
structure Message (c : Session) where
  head : List UInt8
  body : List UInt8
  tokens : List Token
  data : HttpRequest
  scanned : headTokens c.uriRelaxed head = some tokens
  parsed : applyAll head whole tokens .new = some data
  sized : body.length = bodyLength c.lexicalCast data.headers

namespace Message

variable {c : Session}

/-- The bytes on the wire. -/
def bytes (m : Message c) : List UInt8 := m.head ++ m.body

/-- The request they stand for. -/
def request (m : Message c) : HttpRequest := (m.data.setBody m.body).init

end Message

/-- The read result with the requests of one group. -/
def groupBytes {c : Session} (group : List (Message c)) : List UInt8 :=
  (group.map Message.bytes).flatten

@[simp]
theorem groupBytes_nil {c : Session} : groupBytes ([] : List (Message c)) = [] := rfl

/-- `k` calls of `recvRequest`, one after the other. -/
def Session.recvAll (c : Session) : Nat → SocketStream → List (Received HttpRequest)
  | 0, _ => []
  | k + 1, s => (c.recvRequest s).1 :: recvAll c k (c.recvRequest s).2

variable {c : Session} {m : Message c} {more : List UInt8} {pieces : List (List UInt8)}

/-- **The first request of a read result** is returned, and the rest of the read
result is lost. -/
theorem recvRequest_first (hsize : (m.bytes ++ more).length ≤ c.buffSize)
    (hmax : (m.bytes ++ more).length ≤ maxRead) :
    if bufferFull c.buffSize (m.body ++ more).length then
      (c.recvRequest (.ofPieces ((m.bytes ++ more) :: pieces))).1.Failed
    else c.recvRequest (.ofPieces ((m.bytes ++ more) :: pieces)) =
      (.message m.request, .ofPieces pieces) := by
  have happend : m.bytes ++ more = m.head ++ (m.body ++ more) := List.append_assoc ..
  rw [happend] at hsize hmax ⊢
  have hlast := recvHead_first
    (SocketStream.ofPieces ((m.head ++ (m.body ++ more)) :: pieces)).unread.length pieces m.scanned
    m.parsed hsize hmax
  split
  · next hfull =>
      rw [if_pos hfull] at hlast
      exact recvRequest_failed (Received.failed_of_null hlast)
  · next hfull =>
      rw [if_neg hfull] at hlast
      obtain ⟨s', heq, hdata⟩ := hlast
      rw [recvRequest_message heq]
      have hempty : s'.data.body = [] := by
        rw [hdata]
        exact (applyAll_body m.parsed).1
      rw [Message.request, ← hdata]
      exact recvBody_buffered (hdata ▸ m.sized) hempty

/-- The read results of the groups, each in a buffer. -/
structure Fits (c : Session) (groups : List (List (Message c))) : Prop where
  nonempty : ∀ g ∈ groups, g ≠ []
  size : ∀ g ∈ groups, (groupBytes g).length ≤ c.buffSize
  max : ∀ g ∈ groups, (groupBytes g).length ≤ maxRead

variable {g : List (Message c)} {groups : List (List (Message c))}

theorem Fits.tail (h : Fits c (g :: groups)) : Fits c groups :=
  ⟨fun g' hg' => h.nonempty g' (by simp [hg']), fun g' hg' => h.size g' (by simp [hg']),
    fun g' hg' => h.max g' (by simp [hg'])⟩

/-- What a call does on a group: its first request, or a failure. -/
theorem Fits.recvRequest_group {ms : List (Message c)} (h : Fits c ((m :: ms) :: groups)) :
    if bufferFull c.buffSize (m.body ++ groupBytes ms).length then
      (c.recvRequest (.ofPieces (((m :: ms) :: groups).map groupBytes))).1.Failed
    else c.recvRequest (.ofPieces (((m :: ms) :: groups).map groupBytes)) =
      (.message m.request, .ofPieces (groups.map groupBytes)) := by
  have hgroup : groupBytes (m :: ms) = m.bytes ++ groupBytes ms := rfl
  have hsize := h.size (m :: ms) (by simp)
  have hmax := h.max (m :: ms) (by simp)
  rw [hgroup] at hsize hmax
  exact recvRequest_first hsize hmax

/-- Every request that is returned uses up a read result. -/
theorem Fits.le_of_messages (h : Fits c groups) {k : Nat}
    (hall : ∀ r ∈ c.recvAll k (.ofPieces (groups.map groupBytes)), ¬ r.Failed) :
    k ≤ groups.length := by
  induction groups generalizing k with
  | nil =>
      cases k with
      | zero => exact Nat.le_refl 0
      | succ k =>
          have hnull : (c.recvRequest (.ofPieces [])).1 = .null := rfl
          refine absurd (hall _ (List.mem_cons_self ..)) (not_not.mpr ?_)
          rw [List.map_nil, hnull]
          simp [Received.Failed]
  | cons g groups ih =>
      cases k with
      | zero => exact Nat.zero_le _
      | succ k =>
          obtain ⟨m, ms, rfl⟩ := List.exists_cons_of_ne_nil (h.nonempty g (by simp))
          have hfirst := h.recvRequest_group
          have hok := hall _ (List.mem_cons_self ..)
          split at hfirst
          · exact absurd hfirst hok
          · have hrest := ih h.tail fun r hr => hall r (List.mem_cons_of_mem _ (by rwa [hfirst]))
            simpa using hrest

/-- **Pipelining.**  Send requests back to back, grouped in any way into read
results.  As many calls of `recvRequest` as there are requests return exactly
them, in order, if and only if every read result holds a single request (whose
body does not have the length that the size of the buffer is as an `int`). -/
theorem recvAll_iff (h : Fits c groups) :
    c.recvAll groups.flatten.length (.ofPieces (groups.map groupBytes)) =
        groups.flatten.map (fun m => .message m.request) ↔
      ∀ g ∈ groups, ∃ m, g = [m] ∧ bufferFull c.buffSize m.body.length = false := by
  induction groups with
  | nil => simp [Session.recvAll]
  | cons g groups ih =>
      obtain ⟨m, ms, rfl⟩ := List.exists_cons_of_ne_nil (h.nonempty g (by simp))
      have hfirst := h.recvRequest_group
      have hcalls : ((m :: ms) :: groups).flatten.length =
          (ms.length + groups.flatten.length) + 1 := by
        simp only [List.flatten_cons, List.length_append, List.length_cons]
        omega
      have hsent : ((m :: ms) :: groups).flatten.map (fun m => Received.message m.request) =
          .message m.request :: (ms ++ groups.flatten).map (fun m => .message m.request) := rfl
      rw [hcalls, Session.recvAll, hsent, List.cons.injEq]
      split at hfirst
      · next hfull =>
          refine iff_of_false (fun heq => hfirst _ heq.1) fun hall => ?_
          obtain ⟨m', hm', hbody⟩ := hall (m :: ms) (by simp)
          obtain ⟨rfl, rfl⟩ := List.cons.inj hm'
          rw [groupBytes_nil, List.append_nil, hbody] at hfull
          cases hfull
      · next hfull =>
          rw [hfirst]
          constructor
          · rintro ⟨_, hrest⟩
            have hcount := h.tail.le_of_messages (k := ms.length + groups.flatten.length) (by
              intro r hr hfailed
              rw [hrest] at hr
              obtain ⟨m', _, rfl⟩ := List.mem_map.mp hr
              exact hfailed _ rfl)
            have hlen : groups.length ≤ groups.flatten.length := by
              have := length_le_flatten h.tail.nonempty
              omega
            obtain rfl : ms = [] := List.length_eq_zero_iff.mp (by omega)
            simp only [List.length_nil, Nat.zero_add, List.nil_append] at hrest
            intro g hg
            rcases List.mem_cons.mp hg with rfl | hg
            · refine ⟨m, rfl, ?_⟩
              simpa using hfull
            · exact (ih h.tail).mp hrest g hg
          · intro hall
            obtain ⟨m', hm', _⟩ := hall (m :: ms) (by simp)
            obtain ⟨_, rfl⟩ := List.cons.inj hm'
            refine ⟨rfl, ?_⟩
            simp only [List.length_nil, Nat.zero_add, List.nil_append]
            exact (ih h.tail).mpr fun g hg => hall g (by simp [hg])

/-- A request without a body. -/
def sampleGet : Message sampleSession where
  head := bytes "GET / HTTP/1.1\r\n\r\n"
  body := []
  tokens := [.method 0 3, .path 4 5, .version 6 14]
  data := .new
  scanned := by decide
  parsed := by decide
  sized := by decide

/-- A request with a body of two bytes. -/
def samplePost : Message sampleSession where
  head := bytes "POST / HTTP/1.1\r\nContent-Length: 2\r\n\r\n"
  body := bytes "hi"
  tokens := [.method 0 4, .path 5 6, .version 7 15, .field 17 31 33 34]
  data := { HttpRequest.new with
    method := .post, headers := [(bytes "Content-Length", bytes "2")] }
  scanned := by decide
  parsed := by decide
  sized := by decide

/-- Two requests in two read results. -/
theorem recvAll_one_by_one :
    sampleSession.recvAll 2 (.ofPieces [samplePost.bytes, sampleGet.bytes]) =
      [.message samplePost.request, .message sampleGet.request] := by
  have hfits : Fits sampleSession [[samplePost], [sampleGet]] :=
    ⟨by decide, by decide, by decide⟩
  refine (recvAll_iff hfits).mpr ?_
  intro g hg
  rcases List.mem_pair.mp hg with rfl | rfl
  · exact ⟨samplePost, rfl, by decide⟩
  · exact ⟨sampleGet, rfl, by decide⟩

/-- **Two requests in one read result**: the second is lost. -/
theorem not_recvAll_two_at_once :
    sampleSession.recvAll 2 (.ofPieces [samplePost.bytes ++ sampleGet.bytes]) =
        [.message samplePost.request, .null] ∧
      sampleSession.recvAll 2 (.ofPieces [samplePost.bytes ++ sampleGet.bytes]) ≠
        [.message samplePost.request, .message sampleGet.request] := by
  decide

end Mingo.Http
