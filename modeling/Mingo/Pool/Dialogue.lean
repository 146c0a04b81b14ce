import Mingo.Http.Server
import Mingo.Pool.Exchange

/-!
# A pool and a server

The connections of an `HttpConnectionPool` lead to an `HttpServer`, and any number of fibers call
`doRequest`.  A connection that is handed out again has nothing left of the exchange before, so
every response that is received is the one to the request that its holder has sent.

* `dialogue_step` -- what every step keeps: nothing is pending on a connection, and a request
  that has been sent is the last one that the server has got over it;
* `run_answers` -- so a request is answered as its servlet says, unless the server has closed the
  connection behind an earlier one.
-/

namespace Mingo

open Http (HttpRequest HttpResponse HttpServer Received Sendable WritableResponse)

/-- The clients, and for each connection the requests that were sent over it, each with the read
results in which it comes to the server. -/
structure Dialogues where
  clients : Clients
  asked : Nat → List (HttpRequest × List (List UInt8))

/-- What a call of `recvResponse` has come to, and the requests that were sent over its
connection. -/
structure Answer where
  asked : List HttpRequest
  received : Received HttpResponse

namespace Dialogues

/-- No connection, at clock reading `now`. -/
def new (maxAliveTime maxRequest : UInt32) (now : UInt64) : Dialogues :=
  ⟨.new maxAliveTime maxRequest now, fun _ => []⟩

/-- The steps of the clients, with the request that is sent. -/
inductive Op
  | tick (now : UInt64)
  | getConnection
  | resume (call : Call) (made : Option Nat)
  | send (a : Nat) (req : HttpRequest) (results : List Int) (ins : List (List UInt8))
  | recv (a : Nat) (outs : List (List UInt8))
  | release (a : Nat)

/-- The step of the clients. -/
def Op.step : Op → Clients.Op
  | .tick now => .tick now
  | .getConnection => .getConnection
  | .resume call made => .resume call made
  | .send a req results _ => .send a (req.dump false) results
  | .recv a outs => .recv a outs
  | .release a => .release a

/-- What has been sent over the connections, after a step: nothing over a new one. -/
def askedAfter (s : Dialogues) : Op → Nat → List (HttpRequest × List (List UInt8))
  | .resume .connecting (some a) => Function.update s.asked a []
  | .send a req _ ins => Function.update s.asked a (s.asked a ++ [(req, ins)])
  | _ => s.asked

/-- What `recvResponse` returns in a step. -/
def answer (client : Http.Connection) (s : Dialogues) : Op → List Answer
  | .recv a outs =>
      let stream := s.clients.stream a
      [⟨(s.asked a).map Prod.fst,
        (client.recvResponse { stream with pending := stream.pending ++ outs }).1⟩]
  | _ => []

/-- One step. -/
def step (client : Http.Connection) : Machine.Step Dialogues Op (List Answer) := fun s op =>
  (s.clients.step client op.step).map fun r =>
    (s.answer client op, ⟨r.2, s.askedAfter op⟩)

/-! ### The surroundings -/

/-- The response of the server to the last of the requests, if it sends one: the others were
answered before. -/
def reply (server : HttpServer) (asked : List (HttpRequest × List (List UInt8))) :
    List HttpResponse :=
  (server.handleClient (.ofPieces (asked.flatMap Prod.snd))).1.drop (asked.length - 1)

/-- A request that can be written and whose servlet makes a response that can be, and the read
results that bring it. -/
structure Proper (server : HttpServer) (req : HttpRequest) (ins : List (List UInt8)) : Prop where
  sendable : Sendable server.session req
  writable : WritableResponse (server.respond req.sent)
  cut : Cut server.session.buffSize req.dumpHead.length (req.dump false) ins

/-- The requests are proper and sent to the end, and what comes back is what the server sends:
nothing when it has closed the connection. -/
def Faithful (server : HttpServer) (client : Http.Connection) (s : Dialogues) : Op → Prop
  | .send a req results ins => Proper server req ins ∧
      ∀ rt ∈ (s.clients.stream a).writeFixSize (req.dump false).length results, 0 < rt
  | .recv a outs =>
      match reply server (s.asked a) with
      | [] => outs = []
      | rsp :: _ => Cut client.buffSize rsp.dumpHead.length (rsp.dump false []) outs
  | _ => True

/-- The invariant. -/
structure InStep (server : HttpServer) (s : Dialogues) : Prop where
  accounted : s.clients.pool.Accounted
  nothing : ∀ a, (s.clients.stream a).pending = []
  proper : ∀ a, ∀ e ∈ s.asked a, Proper server e.1 e.2
  sent : ∀ a, s.clients.stage a = .sent →
    a ∈ s.clients.pool.held ∧ s.clients.connected a = true ∧ s.asked a ≠ []

theorem InStep.new (server : HttpServer) (maxAliveTime maxRequest : UInt32) (now : UInt64) :
    InStep server (new maxAliveTime maxRequest now) where
  accounted := HttpConnectionPool.Accounted.new _ _ _
  nothing := fun _ => rfl
  proper := fun _ => List.forall_mem_nil _
  sent := fun _ h => by cases h

/-! ### What the server sends -/

variable {server : HttpServer} {client : Http.Connection} {s t : Dialogues} {a : Nat}

/-- The last request is answered when no earlier one closes the connection. -/
theorem drop_answered (earlier : List HttpRequest) (req : HttpRequest) :
    (server.answered ((earlier ++ [req]).map HttpRequest.sent)).drop earlier.length =
      if ∀ r ∈ earlier, server.closes r.sent = false then [req.sent] else [] := by
  induction earlier with
  | nil => cases h : server.closes req.sent <;> simp [HttpServer.answered, h]
  | cons r earlier ih =>
      rw [List.cons_append, List.map_cons, HttpServer.answered, List.length_cons,
        List.drop_succ_cons]
      cases hr : server.closes r.sent with
      | true => simp [hr]
      | false => simp only [Bool.false_eq_true, if_false, ih, List.forall_mem_cons, hr, true_and]

theorem brings_of_proper {asked : List (HttpRequest × List (List UInt8))}
    (h : ∀ e ∈ asked, Proper server e.1 e.2) :
    Http.BringsRequests server.session.buffSize (asked.map Prod.fst) (asked.map Prod.snd) := by
  induction asked with
  | nil => exact .nil
  | cons e asked ih =>
      obtain ⟨he, hothers⟩ := List.forall_mem_cons.mp h
      have hcut := he.cut
      rw [he.sendable.writable.dump_eq] at hcut
      exact .cons hcut.brings (ih hothers)

/-- **The reply** to the last request. -/
theorem reply_eq (hserver : server.session.ReadsDecimals) (hin : server.session.buffSize < 2 ^ 31)
    {earlier : List (HttpRequest × List (List UInt8))} {e : HttpRequest × List (List UInt8)}
    (h : ∀ e' ∈ earlier ++ [e], Proper server e'.1 e'.2) :
    reply server (earlier ++ [e]) =
      if ∀ r ∈ earlier.map Prod.fst, server.closes r.sent = false
      then [server.respond e.1.sent] else [] := by
  have hsend : ∀ req ∈ (earlier ++ [e]).map Prod.fst, Sendable server.session req := by
    intro req hreq
    obtain ⟨e', he', rfl⟩ := List.mem_map.mp hreq
    exact (h e' he').sendable
  obtain ⟨msgs, hpieces, hrequests, hall⟩ :=
    Http.messages_of_sendable hserver hsend (brings_of_proper h)
  obtain ⟨hrsps, -⟩ := HttpServer.handleClient_brings hin hall
  have hsplit : (earlier ++ [e]).flatMap Prod.snd = ((earlier ++ [e]).map Prod.snd).flatten :=
    List.flatMap_def ..
  have hlast := @drop_answered server (earlier.map Prod.fst) e.1
  rw [List.length_map] at hlast
  rw [reply, hsplit, ← hpieces, hrsps, hrequests, List.length_append, List.length_singleton,
    Nat.add_sub_cancel, ← List.map_drop, List.map_append, List.map_singleton, hlast]
  split <;> rfl

/-! ### One step -/

/-- A holder keeps its connection while a call of the pool goes on. -/
theorem held_of_resume {p q : HttpConnectionPool} {connected : Nat → Bool} {made : Option Nat}
    {call : Call} {es : List PoolEvent} (h : p.resume connected made call = some (es, q))
    {b : Nat} (hb : b ∈ p.held) : b ∈ q.held := by
  cases call with
  | entered now =>
      simp only [HttpConnectionPool.resume] at h
      split at h
      · cases h
      · cases h
        exact hb
  | popped ptr invalid n =>
      cases invalid with
      | cons a rest =>
          simp only [HttpConnectionPool.resume] at h
          split at h
          · cases h
          · cases h
            exact hb
      | nil =>
          cases ptr with
          | some a =>
              cases h
              exact List.mem_cons_of_mem a hb
          | none =>
              cases h
              exact hb
  | connecting =>
      cases made with
      | none =>
          cases h
          exact hb
      | some a =>
          simp only [HttpConnectionPool.resume] at h
          split at h
          · cases h
            exact hb
          · cases h
  | created a =>
      cases h
      exact List.mem_cons_of_mem a hb
  | deleted =>
      cases h
      exact hb
  | pooling a =>
      cases h
      exact hb

/-- A new connection stands where nothing was. -/
theorem free_of_made {p q : HttpConnectionPool} {connected : Nat → Bool} {b : Nat}
    {es : List PoolEvent} (h : p.resume connected (some b) .connecting = some (es, q)) :
    p.heap b = none := by
  simp only [HttpConnectionPool.resume] at h
  split at h
  · next hnone => exact hnone
  · cases h

/-- Bytes are written on a connected socket only. -/
theorem connected_of_written {stream : SocketStream} {n : Nat} {results : List Int} {rt : Int}
    (hn : 0 < n) (h : stream.writeFixSize n results = some rt) (hrt : 0 < rt) :
    stream.connected = true := by
  obtain ⟨n, rfl⟩ := Nat.exists_eq_succ_of_ne_zero (Nat.ne_of_gt hn)
  by_contra hnot
  rw [SocketStream.writeFixSize, if_neg hnot, SocketStream.writeLoop, if_pos (by decide)] at h
  obtain rfl := Option.some.inj h
  omega

/-- A connection over which nothing comes back is closed. -/
theorem recvResponse_nothing (client : Http.Connection) :
    client.recvResponse (.ofPieces []) = (.null, ⟨[], false⟩) := rfl

/-- Nothing is pending on a new connection, and on the others what was. -/
theorem pending_after {clients : Clients} {call : Call} {made : Option Nat}
    {pool : HttpConnectionPool} (h : ∀ a, (clients.stream a).pending = []) (b : Nat) :
    ((clients.after call made pool).stream b).pending = [] := by
  unfold Clients.after
  dsimp only
  split
  · next a =>
      dsimp only
      by_cases hb : b = a
      · rw [hb, Function.update_self]
      · rw [Function.update_of_ne hb]
        exact h b
  · split
    · exact h b
    · exact h b

/-- A step of the pool leaves what was sent over the connections but a new one. -/
theorem askedAfter_resume {call : Call} {made : Option Nat} {b : Nat}
    (h : ¬ (call = .connecting ∧ made = some b)) :
    s.askedAfter (.resume call made) b = s.asked b := by
  cases call with
  | connecting =>
      cases made with
      | none => rfl
      | some a => exact Function.update_of_ne (fun hb => h ⟨rfl, by rw [hb]⟩) _ _
  | entered now => rfl
  | popped ptr invalid n => rfl
  | created a => rfl
  | deleted => rfl
  | pooling a => rfl

theorem askedAfter_new {b : Nat} : s.askedAfter (.resume .connecting (some b)) b = [] :=
  Function.update_self ..

/-- A connection that is returned has a holder who has sent nothing yet. -/
theorem stage_returned {clients : Clients} {call : Call} {made : Option Nat}
    {pool : HttpConnectionPool} {b : Nat} (h : call.returned = some b) :
    (clients.after call made pool).stage b = .acquired := by
  unfold Clients.after
  dsimp only
  split
  · cases h
  · rw [h]
    exact Function.update_self ..

/-- A step of the pool. -/
theorem InStep.resume {call : Call} {made : Option Nat} {as : List Answer} (h : InStep server s)
    (hstep : step client s (.resume call made) = some (as, t)) : InStep server t ∧ as = [] := by
  obtain ⟨⟨es, clients⟩, hclients, heq⟩ := Option.map_eq_some_iff.mp hstep
  obtain ⟨rfl, rfl⟩ := Prod.mk.inj heq
  obtain ⟨⟨events, pool⟩, hpool, heq⟩ := Option.map_eq_some_iff.mp hclients
  obtain ⟨-, rfl⟩ := Prod.mk.inj heq
  have hacc : pool.Accounted :=
    HttpConnectionPool.Accounted.step _ _ _ _ h.accounted hpool
  simp only [HttpConnectionPool.step] at hpool
  split at hpool
  swap
  · cases hpool
  -- the connection of a request that was sent is not a new one
  have hold (b : Nat) (hb : b ∈ s.clients.pool.held) :
      ¬ (call = .connecting ∧ made = some b) := by
    rintro ⟨rfl, rfl⟩
    have hnone := free_of_made hpool
    dsimp only at hnone
    have hmem : b ∈ s.clients.pool.all := List.mem_append_right _ (List.mem_append_left _ hb)
    obtain ⟨conn, hconn⟩ := h.accounted.owns.exists_of_mem hmem
    rw [hnone] at hconn
    cases hconn
  refine ⟨⟨?_, pending_after h.nothing, ?_, ?_⟩, rfl⟩
  · dsimp only
    rw [Clients.after_pool]
    exact hacc
  · intro b e he
    by_cases hnew : call = .connecting ∧ made = some b
    · obtain ⟨rfl, rfl⟩ := hnew
      dsimp only at he
      rw [askedAfter_new] at he
      cases he
    · dsimp only at he
      rw [askedAfter_resume hnew] at he
      exact h.proper b e he
  · intro b hb
    dsimp only at hb ⊢
    have hnot : call.returned ≠ some b := by
      intro hreturned
      rw [stage_returned hreturned] at hb
      cases hb
    rw [Clients.after_stage hnot] at hb
    obtain ⟨hheld, hconnected, hasked⟩ := h.sent b hb
    rw [Clients.after_pool, Clients.after_connected (hold b hheld),
      askedAfter_resume (hold b hheld)]
    exact ⟨held_of_resume hpool hheld, hconnected, hasked⟩

/-- A request is sent. -/
theorem InStep.send {req : HttpRequest} {results : List Int} {ins : List (List UInt8)}
    {as : List Answer} (h : InStep server s)
    (hfaithful : Faithful server client s (.send a req results ins))
    (hstep : step client s (.send a req results ins) = some (as, t)) :
    InStep server t ∧ as = [] := by
  obtain ⟨⟨es, clients⟩, hclients, heq⟩ := Option.map_eq_some_iff.mp hstep
  obtain ⟨rfl, rfl⟩ := Prod.mk.inj heq
  obtain ⟨hproper, hwritten⟩ := hfaithful
  simp only [Op.step, Clients.step] at hclients
  split at hclients
  swap
  · cases hclients
  next hcond =>
  obtain ⟨rt, hrt, heq⟩ := Option.map_eq_some_iff.mp hclients
  have hpos := hwritten rt hrt
  obtain ⟨-, rfl⟩ := Prod.mk.inj heq
  have hlen : 0 < (req.dump false).length := by
    obtain ⟨piece, hfirst, -, -, -⟩ := hproper.cut.first
    obtain ⟨rest, rfl⟩ := List.head?_eq_some_iff.mp hfirst
    have hne := hproper.cut.nonempty piece List.mem_cons_self
    rw [← hproper.cut.whole, List.flatten_cons, List.length_append]
    have := List.length_pos_iff.mpr hne
    omega
  rw [if_neg hpos.ne', if_neg hpos.not_gt]
  refine ⟨⟨h.accounted, h.nothing, ?_, ?_⟩, rfl⟩
  · intro b e he
    have hasked : s.askedAfter (.send a req results ins) =
        Function.update s.asked a (s.asked a ++ [(req, ins)]) := rfl
    dsimp only at he
    rw [hasked] at he
    by_cases hb : b = a
    · rw [hb, Function.update_self] at he
      rcases List.mem_append.mp he with hold | hnew
      · exact h.proper a e hold
      · rw [List.mem_singleton.mp hnew]
        exact hproper
    · rw [Function.update_of_ne hb] at he
      exact h.proper b e he
  · intro b hb
    have hasked : s.askedAfter (.send a req results ins) =
        Function.update s.asked a (s.asked a ++ [(req, ins)]) := rfl
    dsimp only at hb ⊢
    rw [hasked]
    by_cases hba : b = a
    · rw [hba, Function.update_self]
      refine ⟨hcond.1, connected_of_written hlen hrt hpos, by simp⟩
    · rw [Function.update_of_ne hba] at hb ⊢
      exact h.sent b hb

/-- The holder is done with its exchange. -/
theorem InStep.finish (h : InStep server s) (a : Nat) (connected : Bool) (ending : Ending) :
    InStep server ⟨Clients.finish { s.clients with
      stream := Function.update s.clients.stream a ⟨[], connected⟩ } a ending, s.asked⟩ where
  accounted := h.accounted
  nothing := by
    intro b
    by_cases hba : b = a
    · have hself : Function.update s.clients.stream a ⟨[], connected⟩ a = ⟨[], connected⟩ :=
        Function.update_self ..
      rw [hba]
      exact congrArg SocketStream.pending hself
    · exact (congrArg SocketStream.pending (Function.update_of_ne hba _ _)).trans (h.nothing b)
  proper := h.proper
  sent := by
    intro b hb
    by_cases hba : b = a
    · have hfinished : (Clients.finish { s.clients with
          stream := Function.update s.clients.stream a ⟨[], connected⟩ } a ending).stage b =
          .finished ending := by
        rw [hba]
        exact Function.update_self ..
      rw [hfinished] at hb
      cases hb
    · have hstage : s.clients.stage b = .sent := by
        rw [← hb]
        exact (Function.update_of_ne hba _ _).symm
      obtain ⟨hheld, hconnected, hasked⟩ := h.sent b hstage
      refine ⟨hheld, ?_, hasked⟩
      exact (congrArg SocketStream.connected (Function.update_of_ne hba _ _)).trans hconnected

/-- What the answer to a request is. -/
def Right (server : HttpServer) (x : Answer) : Prop :=
  ∃ earlier req, x.asked = earlier ++ [req] ∧
    x.received = if ∀ r ∈ earlier, server.closes r.sent = false
      then .message (server.respond req.sent).received else .null

/-- A response is received. -/
theorem InStep.recv {outs : List (List UInt8)} {as : List Answer}
    (hserver : server.session.ReadsDecimals) (hclient : client.ReadsDecimals)
    (hin : server.session.buffSize < 2 ^ 31) (hout : client.buffSize < 2 ^ 31)
    (h : InStep server s) (hfaithful : Faithful server client s (.recv a outs))
    (hstep : step client s (.recv a outs) = some (as, t)) :
    InStep server t ∧ ∀ x ∈ as, Right server x := by
  obtain ⟨⟨es, clients⟩, hclients, heq⟩ := Option.map_eq_some_iff.mp hstep
  obtain ⟨rfl, rfl⟩ := Prod.mk.inj heq
  simp only [Op.step, Clients.step] at hclients
  split at hclients
  swap
  · cases hclients
  next hcond =>
  obtain ⟨ha, hstage⟩ := hcond
  obtain ⟨-, hconnected, hasked⟩ := h.sent a hstage
  obtain ⟨earlier, e, hlast⟩ : ∃ earlier e, s.asked a = earlier ++ [e] :=
    ⟨_, _, (List.dropLast_append_getLast hasked).symm⟩
  have hproper := h.proper a
  rw [hlast] at hproper
  have hreply := reply_eq hserver hin hproper
  have hstream : (⟨(s.clients.stream a).pending ++ outs, (s.clients.stream a).connected⟩ :
      SocketStream) = .ofPieces outs := by
    have hopen : (s.clients.stream a).connected = true := hconnected
    rw [h.nothing a, hopen]
    rfl
  -- the server has answered all earlier requests, or it has closed the connection
  obtain ⟨received, connected, hrecv, hreceived⟩ : ∃ received connected,
      client.recvResponse (.ofPieces outs) = (received, ⟨[], connected⟩) ∧
        received = if ∀ r ∈ earlier.map Prod.fst, server.closes r.sent = false
          then .message (server.respond e.1.sent).received else .null := by
    have hcomes : match reply server (s.asked a) with
        | [] => outs = []
        | rsp :: _ => Cut client.buffSize rsp.dumpHead.length (rsp.dump false []) outs := hfaithful
    rw [hlast, hreply] at hcomes
    by_cases hkept : ∀ r ∈ earlier.map Prod.fst, server.closes r.sent = false
    · rw [if_pos hkept] at hcomes ⊢
      dsimp only at hcomes
      rw [HttpResponse.dump_eq] at hcomes
      have hrecv := Http.Connection.recvResponse_dump hclient hout (hproper e (by simp)).writable
        hcomes.brings []
      rw [List.append_nil] at hrecv
      exact ⟨_, true, hrecv, rfl⟩
    · rw [if_neg hkept] at hcomes ⊢
      dsimp only at hcomes
      rw [hcomes]
      exact ⟨_, false, recvResponse_nothing client, rfl⟩
  have hanswer : s.answer client (.recv a outs) = [⟨(s.asked a).map Prod.fst, received⟩] := by
    rw [answer, hstream, hrecv]
  rw [hstream, hrecv] at hclients
  obtain ⟨-, rfl⟩ := Prod.mk.inj (Option.some.inj hclients)
  have hkeeps := h.finish a connected
  refine ⟨?_, ?_⟩
  · cases received with
    | message rsp => exact hkeeps _
    | null => exact hkeeps _
    | raised => exact hkeeps _
  · rw [hanswer]
    intro x hx
    rw [List.mem_singleton.mp hx]
    exact ⟨earlier.map Prod.fst, e.1, by simp [hlast], hreceived⟩

/-- The holder drops its connection. -/
theorem InStep.release {as : List Answer} (h : InStep server s)
    (hstep : step client s (.release a) = some (as, t)) : InStep server t ∧ as = [] := by
  obtain ⟨⟨es, clients⟩, hclients, heq⟩ := Option.map_eq_some_iff.mp hstep
  obtain ⟨rfl, rfl⟩ := Prod.mk.inj heq
  simp only [Op.step, Clients.step] at hclients
  split at hclients
  swap
  · cases hclients
  next e hstage =>
  obtain ⟨⟨events, pool⟩, hpool, heq⟩ := Option.map_eq_some_iff.mp hclients
  obtain ⟨-, rfl⟩ := Prod.mk.inj heq
  have hacc : pool.Accounted :=
    HttpConnectionPool.Accounted.step _ _ _ _ h.accounted hpool
  simp only [HttpConnectionPool.step] at hpool
  split at hpool
  swap
  · cases hpool
  obtain ⟨hheld, -⟩ := HttpConnectionPool.releasePtr_places hpool
  refine ⟨⟨hacc, h.nothing, h.proper, fun b hb => ?_⟩, rfl⟩
  obtain ⟨hmem, hconnected, hasked⟩ := h.sent b hb
  refine ⟨?_, hconnected, hasked⟩
  have hne : b ≠ a := by
    intro hba
    have hsent : s.clients.stage b = .sent := hb
    rw [hba, hstage] at hsent
    cases hsent
  dsimp only
  rw [hheld]
  exact (List.mem_erase_of_ne hne).mpr hmem

section Run

variable (hserver : server.session.ReadsDecimals) (hclient : client.ReadsDecimals)
  (hin : server.session.buffSize < 2 ^ 31) (hout : client.buffSize < 2 ^ 31)
include hserver hclient hin hout

/-- **Step lemma.** -/
theorem InStep.step (s : Dialogues) (op : Op) (as : List Answer) (t : Dialogues)
    (h : InStep server s) (hfaithful : Faithful server client s op)
    (hstep : step client s op = some (as, t)) :
    InStep server t ∧ ∀ x ∈ as, Right server x := by
  have hnone {as : List Answer} (has : as = []) : ∀ x ∈ as, Right server x := by
    rw [has]
    exact List.forall_mem_nil _
  cases op with
  | tick now =>
      obtain ⟨⟨es, clients⟩, hclients, heq⟩ := Option.map_eq_some_iff.mp hstep
      obtain ⟨rfl, rfl⟩ := Prod.mk.inj heq
      obtain ⟨⟨events, pool⟩, hpool, heq⟩ := Option.map_eq_some_iff.mp hclients
      obtain ⟨-, rfl⟩ := Prod.mk.inj heq
      have hacc : pool.Accounted :=
        HttpConnectionPool.Accounted.step _ _ _ _ h.accounted hpool
      simp only [HttpConnectionPool.step] at hpool
      split at hpool
      · obtain ⟨-, rfl⟩ := Prod.mk.inj (Option.some.inj hpool)
        exact ⟨⟨hacc, h.nothing, h.proper, h.sent⟩, hnone rfl⟩
      · cases hpool
  | getConnection =>
      obtain ⟨rfl, rfl⟩ := Prod.mk.inj (Option.some.inj hstep)
      have hacc := HttpConnectionPool.Accounted.step s.clients.pool .getConnection _ _
        h.accounted rfl
      exact ⟨⟨hacc, h.nothing, h.proper, h.sent⟩, hnone rfl⟩
  | resume call made =>
      obtain ⟨ht, has⟩ := h.resume hstep
      exact ⟨ht, hnone has⟩
  | send a req results ins =>
      obtain ⟨ht, has⟩ := h.send hfaithful hstep
      exact ⟨ht, hnone has⟩
  | recv a outs => exact h.recv hserver hclient hin hout hfaithful hstep
  | release a =>
      obtain ⟨ht, has⟩ := h.release hstep
      exact ⟨ht, hnone has⟩

/-- **Every request gets its own answer.**  In every run of any number of fibers over the pool,
with requests that are sent to the end and a network that brings what the server sends, a call of
`recvResponse` returns what the servlet makes of the request that was sent last over its
connection; and it returns nothing when the server has closed the connection behind an earlier
one. -/
theorem run_answers {maxAliveTime maxRequest : UInt32} {now : UInt64} {ops : List Op}
    {outs : List (List Answer)} {s : Dialogues}
    (hfaithful : Machine.Meets (step client) (Faithful server client)
      (new maxAliveTime maxRequest now) ops)
    (hrun : Machine.run (step client) (new maxAliveTime maxRequest now) ops = some (outs, s)) :
    ∀ as ∈ outs, ∀ x ∈ as, Right server x :=
  (Machine.run_invariant_of_meets (InStep.step hserver hclient hin hout)
    (InStep.new server maxAliveTime maxRequest now) hfaithful hrun).2

end Run

/-! ### Three requests over one connection -/

instance (size front : Nat) (data : List UInt8) (pieces : List (List UInt8)) :
    Decidable (Cut size front data pieces) :=
  decidable_of_iff (pieces.flatten = data ∧ (∀ piece ∈ pieces, piece ≠ []) ∧
      ∃ piece ∈ pieces.head?, front ≤ piece.length ∧ piece.length ≤ size ∧ piece.length ≤ maxRead)
    ⟨fun ⟨hwhole, hne, hfirst⟩ => ⟨hwhole, hne, hfirst⟩,
      fun ⟨hwhole, hne, hfirst⟩ => ⟨hwhole, hne, hfirst⟩⟩

instance (server : HttpServer) (req : HttpRequest) (ins : List (List UInt8)) :
    Decidable (Proper server req ins) :=
  decidable_of_iff ((Http.Writable req ∧ req.method ≠ .msearch ∧
      ([47, 47] <+: req.path → Http.takesPath server.session.uriRelaxed req.path = true) ∧
      req.body.length < 2 ^ 31) ∧ WritableResponse (server.respond req.sent) ∧
      Cut server.session.buffSize req.dumpHead.length (req.dump false) ins)
    ⟨fun ⟨⟨hw, hm, hp, hb⟩, hrsp, hcut⟩ => ⟨⟨hw, hm, hp, hb⟩, hrsp, hcut⟩,
      fun ⟨⟨hw, hm, hp, hb⟩, hrsp, hcut⟩ => ⟨⟨hw, hm, hp, hb⟩, hrsp, hcut⟩⟩

instance (server : HttpServer) (client : Http.Connection) (s : Dialogues) :
    ∀ op, Decidable (Faithful server client s op)
  | .send a req results ins => inferInstanceAs (Decidable (Proper server req ins ∧ ∀ rt ∈
      (s.clients.stream a).writeFixSize (req.dump false).length results, 0 < rt))
  | .recv a outs =>
      match h : reply server (s.asked a) with
      | [] => decidable_of_iff (outs = []) (by simp [Faithful, h])
      | rsp :: _ => decidable_of_iff
          (Cut client.buffSize rsp.dumpHead.length (rsp.dump false []) outs) (by simp [Faithful, h])
  | .tick _ | .getConnection | .resume _ _ | .release _ => isTrue trivial

/-- A request that is sent at once, and its answer that comes at once. -/
def sampleExchange (req : HttpRequest) (outs : List (List UInt8)) : List Op :=
  [.send 7 req [((req.dump false).length : Int)] [req.dump false], .recv 7 outs, .release 7,
    .resume (.pooling 7) none]

/-- The connection is handed out again. -/
def sampleReuse : List Op :=
  [.getConnection, .resume (.entered 5) none, .resume (.popped (some 7) [] 0) none]

/-- A connection is made, three requests go over it, and the second asks to close it. -/
def sampleOps : List Op :=
  [.getConnection, .resume (.entered 5) none, .resume (.popped none [] 0) none,
    .resume .connecting (some 7), .resume (.created 7) none] ++
  sampleExchange Http.samplePut [(Http.sampleServer.respond Http.samplePut.sent).dump false []] ++
  sampleReuse ++
  sampleExchange Http.sampleLast [(Http.sampleServer.respond Http.sampleLast.sent).dump false []] ++
  sampleReuse ++
  [.send 7 Http.samplePut [((Http.samplePut.dump false).length : Int)]
    [Http.samplePut.dump false], .recv 7 []]

/-- The third request is not answered, and the client has no way to know. -/
theorem run_answers_closed :
    ∃ outs s, Machine.run (step Http.dumpConnection) (new 1 100 5) sampleOps = some (outs, s) ∧
      outs.flatten.map Answer.received =
        [.message (Http.sampleServer.respond Http.samplePut.sent).received,
          .message (Http.sampleServer.respond Http.sampleLast.sent).received, .null] ∧
      ∀ as ∈ outs, ∀ x ∈ as, Right Http.sampleServer x := by
  have hserver : Http.sampleServer.session.ReadsDecimals := Http.dumpSession_readsDecimals
  have hclient : Http.dumpConnection.ReadsDecimals := Http.dumpSession_readsDecimals
  have hany : (Machine.run (step Http.dumpConnection) (new 1 100 5) sampleOps).any (fun r =>
      decide (r.1.flatten.map Answer.received =
        [.message (Http.sampleServer.respond Http.samplePut.sent).received,
          .message (Http.sampleServer.respond Http.sampleLast.sent).received, .null])) = true := by
    decide +kernel
  obtain ⟨⟨outs, s⟩, hrun, hreceived⟩ := (Option.any_eq_true _ _).mp hany
  refine ⟨outs, s, hrun, of_decide_eq_true hreceived, ?_⟩
  exact run_answers hserver hclient (by decide) (by decide) (by decide +kernel) hrun

end Dialogues

end Mingo
