import Mingo.Http.ResponseRoundTrip
import Mingo.Http.Servlet

/-!
# The server of http_server.cpp

`HttpServer::handleClient` answers the requests of one connection, one after the other, until
a `recvRequest` fails or the connection is not to be kept.

* `handleClient_brings` -- of requests that come one by one, it answers those up to the first
  that asks to close, each with what the servlet of its path makes of it;
* `conversation` -- a client that writes requests and reads responses gets these answers.
-/

namespace Mingo.Http

/-- `Servlet::handle`, which changes the response.  Nobody looks at the number that it returns;
a servlet that uses the session by itself is left out. -/
abbrev Servlet := HttpRequest → HttpResponse → HttpResponse

/-- `NotFoundServlet::handle`, for a servlet made with the name `name`. -/
def NotFoundServlet.handle (name : List UInt8) : Servlet := fun _ response =>
  (({ response with status := 404 }.setHeader (bytes "Server") (bytes "mingo/1.0.0")).setHeader
      (bytes "Content-Type") (bytes "text/html")).setBody
    (bytes "<html><head><title>404 Not Found</title></head><body><center><h1>404 Not Found</h1>" ++
      bytes "</center><hr><center>" ++ name ++ bytes "</center></body></html>")

/-- `ServletDispatch::handle`; a null pointer does nothing. -/
def ServletDispatch.handle (fnmatch : List UInt8 → List UInt8 → Bool)
    (d : ServletDispatch (Option Servlet)) : Servlet := fun request response =>
  match d.getMatchedServlet fnmatch request.path with
  | some slt => slt request response
  | none => response

/-- `HttpServer`, with the surroundings of its sessions. -/
structure HttpServer where
  session : Session
  fnmatch : List UInt8 → List UInt8 → Bool
  name : List UInt8
  isKeepalive : Bool
  dispatch : ServletDispatch (Option Servlet)

namespace HttpServer

/-- `setName`. -/
def setName (server : HttpServer) (v : List UInt8) : HttpServer :=
  { server with
    name := v
    dispatch := server.dispatch.setDefault (some (NotFoundServlet.handle v)) }

/-- The connection is not kept behind this request. -/
def closes (server : HttpServer) (req : HttpRequest) : Bool := !server.isKeepalive || req.close

/-- The response that the loop of `handleClient` makes and sends. -/
def respond (server : HttpServer) (req : HttpRequest) : HttpResponse :=
  let rsp : HttpResponse :=
    { HttpResponse.new with version := req.version, close := req.close || !server.isKeepalive }
  server.dispatch.handle server.fnmatch req (rsp.setHeader (bytes "Server") server.name)

/-- The loop of `handleClient`: the responses it sends, whatever becomes of sending them, and the
stream.  Each turn reads a byte or is the last. -/
def serve (server : HttpServer) : Nat → SocketStream → List HttpResponse × SocketStream
  | 0, s => ([], s.close)
  | turns + 1, s =>
      match server.session.recvRequest s with
      | (.null, s) => ([], s.close)
      | (.raised, s) => ([], s)
      | (.message req, s) =>
          if server.closes req then ([server.respond req], s.close)
          else
            let (rsps, s) := serve server turns s
            (server.respond req :: rsps, s)

/-- `HttpServer::handleClient`. -/
def handleClient (server : HttpServer) (s : SocketStream) : List HttpResponse × SocketStream :=
  server.serve (s.unread.length + 1) s

/-- The requests up to the first behind which the connection is not kept. -/
def answered (server : HttpServer) : List HttpRequest → List HttpRequest
  | [] => []
  | req :: reqs => req :: if server.closes req then [] else answered server reqs

variable {server : HttpServer} {turns : Nat}

/-- A connection on which nothing more comes is closed. -/
theorem serve_nil (server : HttpServer) (turns : Nat) :
    server.serve (turns + 1) (.ofPieces []) = ([], ⟨[], false⟩) := by
  have hnull : server.session.recvRequest (.ofPieces []) = (.null, ⟨[], false⟩) := rfl
  rw [serve, hnull]
  rfl

/-- **The loop over requests that come one by one.** -/
theorem serve_brings (hint : server.session.buffSize < 2 ^ 31)
    {msgs : List (Message server.session × List (List UInt8))}
    (hmsgs : ∀ e ∈ msgs, Brings server.session.buffSize e.1.head e.1.body e.2 ∧
      e.1.body.length < 2 ^ 31) (hturns : msgs.length < turns) :
    (server.serve turns (.ofPieces (msgs.flatMap Prod.snd))).1 =
        (server.answered (msgs.map fun e => e.1.request)).map server.respond ∧
      (server.serve turns (.ofPieces (msgs.flatMap Prod.snd))).2.connected = false := by
  induction msgs generalizing turns with
  | nil =>
      obtain ⟨turns, rfl⟩ := Nat.exists_eq_succ_of_ne_zero (Nat.ne_zero_of_lt hturns)
      rw [List.flatMap_nil, Nat.succ_eq_add_one, serve_nil]
      exact ⟨rfl, rfl⟩
  | cons e msgs ih =>
      obtain ⟨turns, rfl⟩ := Nat.exists_eq_succ_of_ne_zero (Nat.ne_zero_of_lt hturns)
      obtain ⟨hbrings, hsmall⟩ := hmsgs e (by simp)
      have hrecv := recvRequest_brings hbrings hint hsmall (msgs.flatMap Prod.snd)
      have hleft : msgs.length < turns := by simpa using hturns
      obtain ⟨hrsps, hclosed⟩ := ih (fun e' he' => hmsgs e' (by simp [he'])) hleft
      rw [List.flatMap_cons, Nat.succ_eq_add_one, serve, hrecv, List.map_cons, answered]
      dsimp only
      cases server.closes e.1.request with
      | true => exact ⟨rfl, rfl⟩
      | false =>
          refine ⟨?_, hclosed⟩
          rw [if_neg Bool.false_ne_true, if_neg Bool.false_ne_true, List.map_cons, ← hrsps]

/-- Each request has bytes. -/
theorem length_le_unread {c : Session} {msgs : List (Message c × List (List UInt8))}
    (h : ∀ e ∈ msgs, Brings c.buffSize e.1.head e.1.body e.2) :
    msgs.length ≤ (SocketStream.ofPieces (msgs.flatMap Prod.snd)).unread.length := by
  induction msgs with
  | nil => exact Nat.le_refl 0
  | cons e msgs ih =>
      have hrest := ih fun e' he' => h e' (by simp [he'])
      obtain ⟨more, rest, hpieces, -⟩ := h e (by simp)
      have hpos : 0 < e.1.head.length := List.length_pos_iff.mpr e.1.head_ne_nil
      simp only [SocketStream.unread, SocketStream.ofPieces, List.flatMap_cons, hpieces,
        List.cons_append, List.flatten_cons, List.flatten_append, List.length_append,
        List.length_cons] at hrest ⊢
      omega

/-- **The responses of `handleClient`** to requests that come one by one. -/
theorem handleClient_brings (hint : server.session.buffSize < 2 ^ 31)
    {msgs : List (Message server.session × List (List UInt8))}
    (hmsgs : ∀ e ∈ msgs, Brings server.session.buffSize e.1.head e.1.body e.2 ∧
      e.1.body.length < 2 ^ 31) :
    (server.handleClient (.ofPieces (msgs.flatMap Prod.snd))).1 =
        (server.answered (msgs.map fun e => e.1.request)).map server.respond ∧
      (server.handleClient (.ofPieces (msgs.flatMap Prod.snd))).2.connected = false := by
  have hlen := length_le_unread fun e he => (hmsgs e he).1
  exact serve_brings hint hmsgs (by omega)

end HttpServer

/-! ### A conversation -/

/-- A request that the other side reads as it was written. -/
structure Sendable (c : Session) (req : HttpRequest) : Prop where
  writable : Writable req
  method : req.method ≠ .msearch
  path : [47, 47] <+: req.path → takesPath c.uriRelaxed req.path = true
  body : req.body.length < 2 ^ 31

/-- What the other side reads: the header fields that `dump` adds are in the header map. -/
def HttpRequest.sent (req : HttpRequest) : HttpRequest := { req with headers := req.sentHeaders }

/-- `k` calls of `recvResponse`, one after the other. -/
def Connection.recvAll (c : Connection) : Nat → SocketStream → List (Received HttpResponse)
  | 0, _ => []
  | k + 1, s => (c.recvResponse s).1 :: recvAll c k (c.recvResponse s).2

/-- The read results bring the requests, one after the other. -/
def BringsRequests (size : Nat) (reqs : List HttpRequest) (ins : List (List (List UInt8))) :
    Prop :=
  List.Forall₂ (fun req pieces => Brings size req.dumpHead req.body pieces) reqs ins

/-- The read results bring the responses, one after the other. -/
def BringsResponses (size : Nat) (rsps : List HttpResponse) (outs : List (List (List UInt8))) :
    Prop :=
  List.Forall₂ (fun rsp pieces => Brings size rsp.dumpHead rsp.body pieces) rsps outs

/-- **The responses that a client reads** are those that were written. -/
theorem Connection.recvAll_brings {c : Connection} (hcast : c.ReadsDecimals)
    (hint : c.buffSize < 2 ^ 31) {rsps : List HttpResponse} {outs : List (List (List UInt8))}
    (h : ∀ rsp ∈ rsps, WritableResponse rsp) (houts : BringsResponses c.buffSize rsps outs) :
    c.recvAll rsps.length (.ofPieces outs.flatten) =
      rsps.map fun rsp => .message rsp.received := by
  induction houts with
  | nil => rfl
  | @cons rsp pieces rsps outs hbrings houts ih =>
      have hrecv := recvResponse_dump hcast hint (h rsp (by simp)) hbrings outs.flatten
      rw [List.length_cons, List.flatten_cons, recvAll, hrecv, List.map_cons,
        ih fun rsp hrsp => h rsp (by simp [hrsp])]

/-- **Responses that are written and read again.**  The bytes of some responses, cut into read
results behind each header block and behind each response, are received as these responses, with
the header fields that `dump` adds. -/
theorem Connection.recvAll_dump {c : Connection} (hcast : c.ReadsDecimals)
    (hint : c.buffSize < 2 ^ 31) {rsps : List HttpResponse} {outs : List (List (List UInt8))}
    (h : ∀ rsp ∈ rsps, WritableResponse rsp)
    (houts : List.Forall₂ (fun rsp pieces =>
      Cut c.buffSize rsp.dumpHead.length (rsp.dump false []) pieces) rsps outs) :
    c.recvAll rsps.length (.ofPieces outs.flatten) =
      rsps.map fun rsp => .message rsp.received := by
  refine Connection.recvAll_brings hcast hint h (houts.imp fun rsp pieces hcut => ?_)
  rw [HttpResponse.dump_eq] at hcut
  exact hcut.brings

/-- Two responses, the first in three read results. -/
theorem recvAll_dump_found :
    dumpConnection.recvAll 2 (.ofPieces (List.flatten
        [[sampleFound.dumpHead ++ bytes "mo", bytes "ve", bytes "d"],
          [HttpResponse.dump .new false []]])) =
      [.message sampleFound.received, .message HttpResponse.new.received] := by
  have hcast : dumpConnection.ReadsDecimals := dumpSession_readsDecimals
  have hwritable : ∀ rsp ∈ [sampleFound, HttpResponse.new], WritableResponse rsp := by decide
  exact Connection.recvAll_dump hcast (by decide) hwritable (.cons
    ⟨by decide, by decide, _, rfl, by decide, by decide, by decide⟩ (.cons
    ⟨List.append_nil _, by decide, _, rfl, by decide, by decide, by decide⟩ .nil))

/-- The requests that a client writes are messages of the session. -/
theorem messages_of_sendable {c : Session} (hcast : c.ReadsDecimals) {reqs : List HttpRequest}
    {ins : List (List (List UInt8))} (h : ∀ req ∈ reqs, Sendable c req)
    (hins : BringsRequests c.buffSize reqs ins) :
    ∃ msgs : List (Message c × List (List UInt8)), msgs.flatMap Prod.snd = ins.flatten ∧
      msgs.map (fun e => e.1.request) = reqs.map HttpRequest.sent ∧
      ∀ e ∈ msgs, Brings c.buffSize e.1.head e.1.body e.2 ∧ e.1.body.length < 2 ^ 31 := by
  induction hins with
  | nil => exact ⟨[], rfl, rfl, by simp⟩
  | @cons req pieces reqs ins hbrings hins ih =>
      obtain ⟨msgs, hpieces, hrequests, hall⟩ := ih fun req hreq => h req (by simp [hreq])
      obtain ⟨hwritable, hmethod, hpath, hbody⟩ := h req (by simp)
      obtain ⟨m, hhead, hmbody, hrequest⟩ := hwritable.message hcast hmethod hpath
      refine ⟨(m, pieces) :: msgs, ?_, ?_, ?_⟩
      · rw [List.flatMap_cons, List.flatten_cons, hpieces]
      · rw [List.map_cons, List.map_cons, hrequests, hrequest]
        rfl
      · intro e he
        rcases List.mem_cons.mp he with rfl | he
        · rw [hhead, hmbody]
          exact ⟨hbrings, hbody⟩
        · exact hall e he

/-- **A conversation.**  A client writes requests on one connection, and each request and each
response is there in read results of its own.  The server answers the requests up to the first
behind which it does not keep the connection, each with what the servlet of its path makes of
the request as it was written, and closes; and the client reads these answers. -/
theorem conversation {server : HttpServer} {client : Connection} {reqs : List HttpRequest}
    {ins outs : List (List (List UInt8))} (hserver : server.session.ReadsDecimals)
    (hclient : client.ReadsDecimals) (hin : server.session.buffSize < 2 ^ 31)
    (hout : client.buffSize < 2 ^ 31) (hreqs : ∀ req ∈ reqs, Sendable server.session req)
    (hins : BringsRequests server.session.buffSize reqs ins)
    (hservlets : ∀ req ∈ server.answered (reqs.map HttpRequest.sent),
      WritableResponse (server.respond req))
    (houts : BringsResponses client.buffSize
      ((server.answered (reqs.map HttpRequest.sent)).map server.respond) outs) :
    (server.handleClient (.ofPieces ins.flatten)).1 =
        (server.answered (reqs.map HttpRequest.sent)).map server.respond ∧
      (server.handleClient (.ofPieces ins.flatten)).2.connected = false ∧
      client.recvAll outs.length (.ofPieces outs.flatten) =
        (server.answered (reqs.map HttpRequest.sent)).map fun req =>
          .message (server.respond req).received := by
  obtain ⟨msgs, hpieces, hrequests, hall⟩ := messages_of_sendable hserver hreqs hins
  obtain ⟨hrsps, hclosed⟩ := HttpServer.handleClient_brings hin hall
  rw [hpieces, hrequests] at hrsps
  rw [hpieces] at hclosed
  refine ⟨hrsps, hclosed, ?_⟩
  rw [← List.Forall₂.length_eq houts, Connection.recvAll_brings hclient hout ?_ houts,
    List.map_map]
  · rfl
  · intro rsp hrsp
    obtain ⟨req, hreq, rfl⟩ := List.mem_map.mp hrsp
    exact hservlets req hreq

/-- A server that keeps connections and has one servlet, which says which method it was called
with. -/
def sampleServer : HttpServer where
  session := dumpSession
  fnmatch := fun _ _ => false
  name := bytes "mingo/1.0.0"
  isKeepalive := true
  dispatch := (ServletDispatch.new (some (NotFoundServlet.handle (bytes "mingo/1.0")))).addServlet
    (bytes "/a%20b//c")
    (some fun req rsp => rsp.setBody (bytes (httpMethodToString req.method)))

/-- A request for a path without a servlet, behind which the connection is to be closed. -/
def sampleLast : HttpRequest :=
  { samplePut with method := .get, close := true, path := bytes "/b", body := [] }

/-- Three requests, the first in two read results. -/
def sampleIns : List (List (List UInt8)) :=
  [[samplePut.dumpHead ++ bytes "h", bytes "i"], [sampleLast.dumpHead],
    [samplePut.dumpHead ++ bytes "hi"]]

/-- Two responses, the second in two read results. -/
def sampleOuts : List (List (List UInt8)) :=
  [[(sampleServer.respond samplePut.sent).dumpHead ++ bytes "PUT"],
    [(sampleServer.respond sampleLast.sent).dumpHead,
      (sampleServer.respond sampleLast.sent).body]]

/-- The second of the requests asks to close, and the third is not answered. -/
theorem conversation_two_of_three :
    (sampleServer.handleClient (.ofPieces sampleIns.flatten)).1 =
        [sampleServer.respond samplePut.sent, sampleServer.respond sampleLast.sent] ∧
      (sampleServer.handleClient (.ofPieces sampleIns.flatten)).2.connected = false ∧
      dumpConnection.recvAll 2 (.ofPieces sampleOuts.flatten) =
        [.message (sampleServer.respond samplePut.sent).received,
          .message (sampleServer.respond sampleLast.sent).received] := by
  have hserver : sampleServer.session.ReadsDecimals := dumpSession_readsDecimals
  have hclient : dumpConnection.ReadsDecimals := dumpSession_readsDecimals
  have hput : Sendable sampleServer.session samplePut :=
    ⟨by decide, by decide, by decide, by decide⟩
  have hlast : Sendable sampleServer.session sampleLast :=
    ⟨by decide, by decide, by decide, by decide⟩
  have hreqs : ∀ req ∈ [samplePut, sampleLast, samplePut], Sendable sampleServer.session req := by
    simp [hput, hlast]
  have hins : BringsRequests sampleServer.session.buffSize [samplePut, sampleLast, samplePut]
      sampleIns := by
    refine .cons ⟨bytes "h", [bytes "i"], rfl, by decide⟩ (.cons ⟨[], [], ?_, by decide⟩
      (.cons ⟨bytes "hi", [], rfl, by decide⟩ .nil))
    rw [List.append_nil]
  have hanswered : sampleServer.answered ([samplePut, sampleLast, samplePut].map
      HttpRequest.sent) = [samplePut.sent, sampleLast.sent] := rfl
  have hservlets : ∀ req ∈ sampleServer.answered ([samplePut, sampleLast, samplePut].map
      HttpRequest.sent), WritableResponse (sampleServer.respond req) := by
    rw [hanswered]
    decide +kernel
  have houts : BringsResponses dumpConnection.buffSize
      ((sampleServer.answered ([samplePut, sampleLast, samplePut].map HttpRequest.sent)).map
        sampleServer.respond) sampleOuts := by
    rw [hanswered]
    have hbody : (sampleServer.respond sampleLast.sent).body ≠ [] ∧
        (sampleServer.respond sampleLast.sent).dumpHead.length ≤ 4096 ∧
        (sampleServer.respond samplePut.sent).body = bytes "PUT" ∧
        ((sampleServer.respond samplePut.sent).dumpHead ++ bytes "PUT").length ≤ 4096 := by
      decide +kernel
    obtain ⟨hne, hlong, hbody, hlong'⟩ := hbody
    have hmax : 4096 ≤ maxRead := by decide
    refine .cons ⟨bytes "PUT", [], rfl, ?_, hlong', hlong'.trans hmax, by simp⟩ (.cons
      ⟨[], [(sampleServer.respond sampleLast.sent).body], ?_, by simp, ?_, ?_, ?_⟩ .nil)
    · rw [hbody]
      rfl
    · rw [List.append_nil]
    · rw [List.append_nil]
      exact hlong
    · rw [List.append_nil]
      exact hlong.trans hmax
    · simpa using hne
  have hall := conversation hserver hclient (by decide) (by decide) hreqs hins hservlets houts
  rw [hanswered] at hall
  exact hall

end Mingo.Http
