import Mingo.Http.Closing
import Mingo.Pool.Accounting

/-!
# Requests over pooled connections

`HttpConnectionPool::doRequest` takes a connection from the pool, sends the
request, receives the response, and drops the connection when it returns.
Whether `ReleasePtr` puts it back is up to `isConnected`, and so up to who has
called `close()`: `recvResponse` does so whenever it returns no response,
`sendRequest` never does.

`Clients` is the pool together with the socket of each connection and with how
far its holder has come.  The results of `send`, and the pieces that arrive, are
inputs.  A ghost flag tells the connections over which a request was not
answered; it is not in the source.

* `Unspoiled` -- the invariant: such a connection is with its holder, who is
  about to drop it;
* `failed_never_handedOut` -- it is never handed out, nor read from, in any run
  in which the pool discards what a failed send leaves open.
-/

namespace Mingo

/-- How `doRequest` leaves the connection: with one of its results, or with an exception
of `recvResponse`. -/
inductive Ending
  | ok
  | sendCloseByPeer
  | sendSocketError
  | timeout
  | raised
  deriving DecidableEq, Repr

/-- The exchange may have left the connection open: nobody has called `close()`. -/
def Ending.leavesOpen : Ending → Bool
  | .sendCloseByPeer => true
  | .sendSocketError => true
  | .raised => true
  | _ => false

/-- How far the holder of a connection has come. -/
inductive Stage
  | acquired
  | sent
  | finished (e : Ending)
  deriving DecidableEq, Repr

/-- The pool, the sockets of the connections, the holders, and the connections over which
a request was not answered. -/
structure Clients where
  pool : HttpConnectionPool
  stream : Nat → SocketStream
  stage : Nat → Stage
  failed : Nat → Bool

/-- `getConnection` returns a connection, or bytes are read from one; the flag tells
whether an earlier request over it was not answered. -/
inductive ClientEvent
  | handedOut (a : Nat) (failed : Bool)
  | read (a : Nat) (failed : Bool)
  deriving DecidableEq, Repr

def ClientEvent.failed : ClientEvent → Bool
  | .handedOut _ failed => failed
  | .read _ failed => failed

/-- The connection that a step of `getConnection` returns. -/
def Call.returned : Call → Option Nat
  | .popped (some a) [] _ => some a
  | .created a => some a
  | _ => none

/-- Nobody has called `close()` for the connection. -/
def Stage.leavesOpen : Stage → Bool
  | .finished e => e.leavesOpen
  | _ => false

namespace Clients

/-- No connection, at clock reading `now`. -/
def new (maxAliveTime maxRequest : UInt32) (now : UInt64) : Clients where
  pool := HttpConnectionPool.new maxAliveTime maxRequest now
  stream := fun _ => ⟨[], false⟩
  stage := fun _ => .acquired
  failed := fun _ => false

/-- The holder of a connection is done with it. -/
def finish (s : Clients) (a : Nat) (e : Ending) : Clients :=
  { s with
    stage := Function.update s.stage a (.finished e)
    failed := if e = .ok then s.failed else Function.update s.failed a true }

/-- What a step of a call of the pool means for the connections: a new one has a connected
socket, a returned one has a holder. -/
def after (s : Clients) (call : Call) (made : Option Nat) (pool : HttpConnectionPool) : Clients :=
  let s := { s with pool := pool }
  match call, made with
  | .connecting, some a =>
      { s with
        stream := Function.update s.stream a ⟨[], true⟩
        failed := Function.update s.failed a false }
  | call, _ =>
      match call.returned with
      | some a => { s with stage := Function.update s.stage a .acquired }
      | none => s

/-- The steps: those of the pool, and those of `doRequest` between `getConnection` and
the drop of the connection. -/
inductive Op
  | tick (now : UInt64)
  | getConnection
  | resume (call : Call) (made : Option Nat)
  | send (a : Nat) (data : List UInt8) (results : List Int)
  | recv (a : Nat) (pieces : List (List UInt8))
  | release (a : Nat)

def connected (s : Clients) (a : Nat) : Bool := (s.stream a).connected

/-- One step; `c` are the surroundings of `recvResponse`. -/
def step (c : Http.Connection) : Machine.Step Clients Op (List ClientEvent)
  | s, .tick now => (s.pool.step (.tick now)).map fun r => ([], { s with pool := r.2 })
  | s, .getConnection => (s.pool.step .getConnection).map fun r => ([], { s with pool := r.2 })
  | s, .resume call made =>
      (s.pool.step (.resume call s.connected made)).map fun r =>
        (call.returned.toList.map fun a => .handedOut a (s.failed a), s.after call made r.2)
  | s, .send a data results =>
      if a ∈ s.pool.held ∧ s.stage a = .acquired then
        ((s.stream a).writeFixSize data.length results).map fun rt =>
          ([], if rt = 0 then s.finish a .sendCloseByPeer
            else if rt < 0 then s.finish a .sendSocketError
            else { s with stage := Function.update s.stage a .sent })
      else none
  | s, .recv a pieces =>
      if a ∈ s.pool.held ∧ s.stage a = .sent then
        let (rsp, stream) :=
          c.recvResponse { s.stream a with pending := (s.stream a).pending ++ pieces }
        let t := { s with stream := Function.update s.stream a stream }
        some ([.read a (s.failed a)],
          match rsp with
          | .message _ => t.finish a .ok
          | .null => t.finish a .timeout
          | .raised => t.finish a .raised)
      else none
  | s, .release a =>
      match s.stage a with
      | .finished _ =>
          (s.pool.step (.release a (s.connected a))).map fun r => ([], { s with pool := r.2 })
      | _ => none

end Clients

/-! ### Where the connections are -/

namespace HttpConnectionPool

variable {p q : HttpConnectionPool} {a : Nat} {es : List PoolEvent}

/-- The connections that no holder has: those in the pool and those of the calls. -/
def idle (p : HttpConnectionPool) : List Nat := p.conns ++ p.calls.flatMap Call.owned

/-- `ReleasePtr` deletes the connection at `a` even if it is connected. -/
def retires (p : HttpConnectionPool) (a : Nat) : Bool :=
  match p.heap a with
  | none => true
  | some conn =>
      decide (conn.createTime + p.maxAliveTime.toUInt64 ≥ p.clock) ||
        decide (conn.request + 1 ≥ p.maxRequest.toUInt64)

/-- A held connection is not idle. -/
theorem Accounted.not_mem_idle (h : p.Accounted) (ha : a ∈ p.held) : a ∉ p.idle := by
  have hnodup : (p.conns ++ (p.held ++ p.calls.flatMap Call.owned)).Nodup := h.owns.nodup
  obtain ⟨_, hrest, hconns⟩ := List.nodup_append.mp hnodup
  obtain ⟨_, _, hcalls⟩ := List.nodup_append.mp hrest
  intro hidle
  rcases List.mem_append.mp hidle with hmem | hmem
  · exact hconns a hmem a (List.mem_append_left _ ha) rfl
  · exact hcalls a ha a hmem rfl

/-- **Where a step of a call moves connections**: an idle connection was idle or is new,
and a held one was held or is returned. -/
theorem resume_places {call : Call} {connected : Nat → Bool} {made : Option Nat}
    (hstep : p.resume connected made call = some (es, q)) :
    (∀ b ∈ q.idle, b ∈ p.idle ∨ b ∈ call.owned ∨ (call = .connecting ∧ made = some b)) ∧
      ∀ b ∈ q.held, b ∈ p.held ∨ call.returned = some b := by
  cases call with
  | entered now =>
      simp only [HttpConnectionPool.resume] at hstep
      split at hstep
      · cases hstep
      · next ptr invalid rest hpop =>
          cases hstep
          have hsplit := popLoop_split hpop
          refine ⟨?_, fun b hb => Or.inl hb⟩
          intro b hb
          refine Or.inl ?_
          simp only [idle, hsplit, List.mem_append, List.flatMap_cons, Call.owned] at hb ⊢
          tauto
  | popped ptr invalid n =>
      cases invalid with
      | cons a rest =>
          simp only [HttpConnectionPool.resume] at hstep
          split at hstep
          · cases hstep
          · cases hstep
            refine ⟨?_, fun b hb => Or.inl hb⟩
            intro b hb
            simp only [idle, store, List.mem_append, List.flatMap_cons, Call.owned,
              List.mem_cons] at hb ⊢
            tauto
      | nil =>
          cases ptr with
          | some a =>
              cases hstep
              refine ⟨fun b hb => Or.inl hb, ?_⟩
              intro b hb
              rcases List.mem_cons.mp hb with rfl | hmem
              · exact Or.inr rfl
              · exact Or.inl hmem
          | none =>
              cases hstep
              exact ⟨fun b hb => Or.inl hb, fun b hb => Or.inl hb⟩
  | connecting =>
      cases made with
      | none =>
          cases hstep
          exact ⟨fun b hb => Or.inl hb, fun b hb => Or.inl hb⟩
      | some a =>
          simp only [HttpConnectionPool.resume] at hstep
          split at hstep
          · cases hstep
            refine ⟨?_, fun b hb => Or.inl hb⟩
            intro b hb
            simp only [idle, store, List.mem_append, List.flatMap_cons, Call.owned,
              List.mem_singleton] at hb ⊢
            rcases hb with hb | rfl | hb
            · exact Or.inl (Or.inl hb)
            · exact Or.inr (Or.inr ⟨trivial, rfl⟩)
            · exact Or.inl (Or.inr hb)
          · cases hstep
  | created a =>
      cases hstep
      refine ⟨fun b hb => Or.inl hb, ?_⟩
      intro b hb
      rcases List.mem_cons.mp hb with rfl | hmem
      · exact Or.inr rfl
      · exact Or.inl hmem
  | deleted =>
      cases hstep
      exact ⟨fun b hb => Or.inl hb, fun b hb => Or.inl hb⟩
  | pooling a =>
      cases hstep
      refine ⟨?_, fun b hb => Or.inl hb⟩
      intro b hb
      simp only [idle, List.mem_append, Call.owned, List.mem_singleton] at hb ⊢
      tauto

/-- **Where `ReleasePtr` moves the connection**: into the pool only if it is connected
and does not retire. -/
theorem releasePtr_places {connected : Bool} (hstep : p.releasePtr a connected = some (es, q)) :
    q.held = p.held ∧
      ∀ b ∈ q.idle, b ∈ p.idle ∨ (b = a ∧ connected = true ∧ p.retires a = false) := by
  unfold releasePtr at hstep
  split at hstep
  · cases hstep
  · next conn hconn =>
      dsimp only at hstep
      split at hstep
      · cases hstep
        exact ⟨rfl, fun b hb => Or.inl hb⟩
      · next hkeep =>
          cases hstep
          refine ⟨rfl, ?_⟩
          intro b hb
          have hretires : connected = true ∧ p.retires a = false := by
            unfold retires
            rw [hconn]
            cases connected with
            | true => simpa using hkeep
            | false => simp at hkeep
          simp only [idle, store, List.mem_append, List.flatMap_cons, Call.owned,
            List.mem_singleton] at hb ⊢
          rcases hb with hb | rfl | hb
          · exact Or.inl (Or.inl hb)
          · exact Or.inr ⟨rfl, hretires⟩
          · exact Or.inl (Or.inr hb)

end HttpConnectionPool

/-! ### The invariant -/

namespace Clients

variable {c : Http.Connection} {s t : Clients} {a : Nat} {es : List ClientEvent}

/-- A connection that a failed exchange leaves open is released only when `ReleasePtr`
deletes it for its age or its number of requests. -/
def SafeRelease (s : Clients) : Op → Prop
  | .release a => (s.stage a).leavesOpen = true → s.pool.retires a = true
  | _ => True

instance : ∀ (s : Clients) (op : Op), Decidable (SafeRelease s op)
  | _, .release _ => inferInstanceAs (Decidable (_ → _))
  | _, .tick _ => isTrue trivial
  | _, .getConnection => isTrue trivial
  | _, .resume _ _ => isTrue trivial
  | _, .send _ _ _ => isTrue trivial
  | _, .recv _ _ => isTrue trivial

/-- A connection over which a request was not answered is with its holder, who is done
with it, and was closed if it was the response that failed to arrive. -/
structure Unspoiled (s : Clients) : Prop where
  accounted : s.pool.Accounted
  idle : ∀ b ∈ s.pool.idle, s.failed b = false
  held : ∀ b ∈ s.pool.held, s.failed b = true →
    ∃ e, s.stage b = .finished e ∧ (e.leavesOpen = true ∨ s.connected b = false)

theorem Unspoiled.new (maxAliveTime maxRequest : UInt32) (now : UInt64) :
    (new maxAliveTime maxRequest now).Unspoiled where
  accounted := HttpConnectionPool.Accounted.new _ _ _
  idle := fun _ _ => rfl
  held := fun _ hb => absurd hb List.not_mem_nil

section After

variable {call : Call} {made : Option Nat} {pool : HttpConnectionPool} {b : Nat}

theorem after_pool : (s.after call made pool).pool = pool := by
  unfold after
  dsimp only
  split
  · rfl
  · split <;> rfl

theorem after_failed (h : (s.after call made pool).failed b = true) :
    s.failed b = true ∧ ¬ (call = .connecting ∧ made = some b) := by
  unfold after at h
  dsimp only at h
  split at h
  · next a =>
      dsimp only at h
      by_cases hb : b = a
      · rw [hb, Function.update_self] at h
        cases h
      · rw [Function.update_of_ne hb] at h
        refine ⟨h, ?_⟩
        intro hnew
        exact hb (Option.some.inj hnew.2).symm
  · next hnot =>
      refine ⟨?_, fun hnew => hnot b hnew.1 hnew.2⟩
      split at h
      · exact h
      · exact h

theorem after_stage (h : call.returned ≠ some b) :
    (s.after call made pool).stage b = s.stage b := by
  unfold after
  dsimp only
  split
  · rfl
  · split
    · next a hreturned =>
        have hb : b ≠ a := by
          intro hb
          rw [hb] at h
          exact h hreturned
        exact Function.update_of_ne hb _ _
    · rfl

theorem after_connected (h : ¬ (call = .connecting ∧ made = some b)) :
    (s.after call made pool).connected b = s.connected b := by
  unfold after connected
  dsimp only
  split
  · next a =>
      have hb : b ≠ a := by
        intro hb
        exact h ⟨rfl, by rw [hb]⟩
      dsimp only
      rw [Function.update_of_ne hb]
  · split <;> rfl

end After

/-- The pool moves on and the sockets stay as they are. -/
theorem Unspoiled.move (h : s.Unspoiled) {pool : HttpConnectionPool} (hacc : pool.Accounted)
    (hidle : ∀ b ∈ pool.idle, b ∈ s.pool.idle ∨ s.failed b = false)
    (hheld : ∀ b ∈ pool.held, b ∈ s.pool.held) : { s with pool := pool }.Unspoiled where
  accounted := hacc
  idle := fun b hb => (hidle b hb).elim (h.idle b) id
  held := fun b hb hfailed => h.held b (hheld b hb) hfailed

/-- A step of a call of the pool. -/
theorem Unspoiled.resume {call : Call} {made : Option Nat} (h : s.Unspoiled)
    (hstep : step c s (.resume call made) = some (es, t)) :
    t.Unspoiled ∧ ∀ e ∈ es, e.failed = false := by
  obtain ⟨⟨events, pool⟩, hpool, heq⟩ := Option.map_eq_some_iff.mp hstep
  cases heq
  have hacc : pool.Accounted := HttpConnectionPool.Accounted.step _ _ _ _ h.accounted hpool
  simp only [HttpConnectionPool.step] at hpool
  split at hpool
  swap
  · cases hpool
  next hcall =>
  obtain ⟨hidle, hheld⟩ := HttpConnectionPool.resume_places hpool
  have howned : ∀ b ∈ call.owned, s.failed b = false := by
    intro b hb
    exact h.idle b (List.mem_append_right _ (List.mem_flatMap.mpr ⟨call, hcall, hb⟩))
  have hreturned : ∀ b, call.returned = some b → s.failed b = false := by
    intro b hb
    refine howned b ?_
    unfold Call.returned at hb
    split at hb
    · cases hb
      simp [Call.owned]
    · cases hb
      simp [Call.owned]
    · cases hb
  refine ⟨⟨by rw [after_pool]; exact hacc, ?_, ?_⟩, ?_⟩
  · intro b hb
    rw [after_pool] at hb
    by_contra hne
    obtain ⟨hfailed, hold⟩ := after_failed (Bool.eq_true_of_not_eq_false hne)
    have hclean : s.failed b = false := by
      rcases hidle b hb with hmem | hmem | hnew
      · rcases List.mem_append.mp hmem with hconns | hcalls
        · exact h.idle b (List.mem_append_left _ hconns)
        · obtain ⟨other, hother, howns⟩ := List.mem_flatMap.mp hcalls
          exact h.idle b (List.mem_append_right _
            (List.mem_flatMap.mpr ⟨other, List.mem_of_mem_erase hother, howns⟩))
      · exact howned b hmem
      · exact absurd hnew hold
    rw [hclean] at hfailed
    cases hfailed
  · intro b hb hfailed
    rw [after_pool] at hb
    obtain ⟨hbefore, hold⟩ := after_failed hfailed
    have hnot : call.returned ≠ some b := by
      intro hret
      rw [hreturned b hret] at hbefore
      cases hbefore
    rw [after_stage hnot, after_connected hold]
    exact h.held b ((hheld b hb).resolve_right hnot) hbefore
  · intro e he
    obtain ⟨b, hb, rfl⟩ := List.mem_map.mp he
    exact hreturned b (Option.mem_toList.mp hb)

/-- The holder of a connection gets on with it: its flag and its stage change, and
perhaps its socket. -/
theorem Unspoiled.hold (h : s.Unspoiled) (ha : a ∈ s.pool.held) (hpool : t.pool = s.pool)
    (hother : ∀ b, b ≠ a → t.failed b = s.failed b ∧ t.stage b = s.stage b ∧
      t.connected b = s.connected b)
    (hself : t.failed a = true →
      ∃ e, t.stage a = .finished e ∧ (e.leavesOpen = true ∨ t.connected a = false)) :
    t.Unspoiled where
  accounted := by
    rw [hpool]
    exact h.accounted
  idle := by
    intro b hb
    rw [hpool] at hb
    have hne : b ≠ a := by
      intro hba
      rw [hba] at hb
      exact h.accounted.not_mem_idle ha hb
    rw [(hother b hne).1]
    exact h.idle b hb
  held := by
    intro b hb hfailed
    rw [hpool] at hb
    by_cases hba : b = a
    · rw [hba] at hfailed ⊢
      exact hself hfailed
    · obtain ⟨hflag, hstage, hconn⟩ := hother b hba
      rw [hflag] at hfailed
      rw [hstage, hconn]
      exact h.held b hb hfailed

/-- A connection that its holder is not done with is in order. -/
theorem Unspoiled.clean (h : s.Unspoiled) (ha : a ∈ s.pool.held)
    (hstage : ∀ e, s.stage a ≠ .finished e) : s.failed a = false := by
  by_contra hne
  obtain ⟨e, he, _⟩ := h.held a ha (Bool.eq_true_of_not_eq_false hne)
  exact hstage e he

/-- The holder is done: in order, or with a connection that is closed or left open. -/
theorem Unspoiled.finish {e : Ending} (h : s.Unspoiled) (ha : a ∈ s.pool.held)
    (hpool : t.pool = s.pool) (hfailed : t.failed = s.failed) (hstage : t.stage = s.stage)
    (hclean : s.failed a = false)
    (hconn : ∀ b, b ≠ a → t.connected b = s.connected b)
    (hclosed : e = .ok ∨ e.leavesOpen = true ∨ t.connected a = false) :
    (t.finish a e).Unspoiled := by
  refine h.hold ha hpool ?_ ?_
  · intro b hb
    refine ⟨?_, ?_, hconn b hb⟩
    · unfold Clients.finish
      dsimp only
      split
      · rw [hfailed]
      · rw [Function.update_of_ne hb, hfailed]
    · unfold Clients.finish
      dsimp only
      rw [Function.update_of_ne hb, hstage]
  · intro hflag
    refine ⟨e, Function.update_self .., ?_⟩
    rcases hclosed with rfl | hclosed
    · have hsame : (t.finish a .ok).failed a = s.failed a := congrFun hfailed a
      rw [hsame, hclean] at hflag
      cases hflag
    · exact hclosed

theorem Unspoiled.send {data : List UInt8} {results : List Int} (h : s.Unspoiled)
    (hstep : step c s (.send a data results) = some (es, t)) : t.Unspoiled ∧ es = [] := by
  simp only [step] at hstep
  split at hstep
  swap
  · cases hstep
  next hcond =>
  obtain ⟨ha, hstage⟩ := hcond
  have hclean : s.failed a = false := h.clean ha (by rw [hstage]; simp)
  obtain ⟨rt, _, heq⟩ := Option.map_eq_some_iff.mp hstep
  cases heq
  refine ⟨?_, rfl⟩
  split
  · exact h.finish ha rfl rfl rfl hclean (fun _ _ => rfl) (Or.inr (Or.inl rfl))
  · split
    · exact h.finish ha rfl rfl rfl hclean (fun _ _ => rfl) (Or.inr (Or.inl rfl))
    · refine h.hold ha rfl ?_ ?_
      · intro b hb
        exact ⟨rfl, Function.update_of_ne hb _ _, rfl⟩
      · intro hfailed
        have hflag : s.failed a = true := hfailed
        rw [hclean] at hflag
        cases hflag

/-- A response that does not arrive closes the connection. -/
theorem Unspoiled.recv {pieces : List (List UInt8)} (h : s.Unspoiled)
    (hstep : step c s (.recv a pieces) = some (es, t)) :
    t.Unspoiled ∧ ∀ e ∈ es, e.failed = false := by
  simp only [step] at hstep
  split at hstep
  swap
  · cases hstep
  next hcond =>
  obtain ⟨ha, hstage⟩ := hcond
  have hclean : s.failed a = false := h.clean ha (by rw [hstage]; simp)
  generalize hrsp : c.recvResponse
    { s.stream a with pending := (s.stream a).pending ++ pieces } = r at hstep
  obtain ⟨rsp, stream⟩ := r
  cases hstep
  have hother : ∀ b, b ≠ a →
      { s with stream := Function.update s.stream a stream }.connected b = s.connected b := by
    intro b hb
    unfold connected
    dsimp only
    rw [Function.update_of_ne hb]
  refine ⟨?_, ?_⟩
  · cases rsp with
    | message rsp => exact h.finish ha rfl rfl rfl hclean hother (Or.inl rfl)
    | null =>
        refine h.finish ha rfl rfl rfl hclean hother (Or.inr (Or.inr ?_))
        unfold connected
        dsimp only
        rw [Function.update_self]
        exact Http.Connection.recvResponse_null hrsp
    | raised => exact h.finish ha rfl rfl rfl hclean hother (Or.inr (Or.inl rfl))
  · intro e he
    rw [List.mem_singleton.mp he]
    exact hclean

/-- A connection that goes back to the pool is in order. -/
theorem Unspoiled.release (h : s.Unspoiled) (hsafe : SafeRelease s (.release a))
    (hstep : step c s (.release a) = some (es, t)) : t.Unspoiled ∧ es = [] := by
  simp only [step] at hstep
  split at hstep
  swap
  · cases hstep
  next e hstage =>
  obtain ⟨⟨events, pool⟩, hpool, heq⟩ := Option.map_eq_some_iff.mp hstep
  cases heq
  refine ⟨?_, rfl⟩
  have hacc : pool.Accounted := HttpConnectionPool.Accounted.step _ _ _ _ h.accounted hpool
  simp only [HttpConnectionPool.step] at hpool
  split at hpool
  swap
  · cases hpool
  next ha =>
  obtain ⟨hheld, hidle⟩ := HttpConnectionPool.releasePtr_places hpool
  refine h.move hacc ?_ ?_
  · intro b hb
    rcases hidle b hb with hmem | ⟨rfl, hconn, hkeeps⟩
    · exact Or.inl hmem
    · refine Or.inr ?_
      by_contra hne
      obtain ⟨e', hstage', hopen | hclosed⟩ := h.held b ha (Bool.eq_true_of_not_eq_false hne)
      · have hretires : s.pool.retires b = true := hsafe (by rw [hstage']; exact hopen)
        have hkeeps' : s.pool.retires b = false := hkeeps
        rw [hretires] at hkeeps'
        cases hkeeps'
      · rw [hclosed] at hconn
        cases hconn
  · intro b hb
    rw [hheld] at hb
    exact List.mem_of_mem_erase hb

/-- **Step lemma.** -/
theorem Unspoiled.step (s : Clients) (op : Op) (es : List ClientEvent) (t : Clients)
    (h : s.Unspoiled) (hsafe : SafeRelease s op) (hstep : step c s op = some (es, t)) :
    t.Unspoiled ∧ ∀ e ∈ es, e.failed = false := by
  cases op with
  | tick now =>
      obtain ⟨⟨events, pool⟩, hpool, heq⟩ := Option.map_eq_some_iff.mp hstep
      cases heq
      have hacc : pool.Accounted := HttpConnectionPool.Accounted.step _ _ _ _ h.accounted hpool
      refine ⟨?_, by simp⟩
      simp only [HttpConnectionPool.step] at hpool
      split at hpool
      · cases hpool
        exact h.move hacc (fun b hb => Or.inl hb) fun b hb => hb
      · cases hpool
  | getConnection =>
      cases hstep
      refine ⟨h.move (HttpConnectionPool.Accounted.step s.pool .getConnection _ _ h.accounted rfl)
        (fun b hb => Or.inl ?_) fun b hb => hb, by simp⟩
      simpa [HttpConnectionPool.idle, Call.owned] using hb
  | resume call made => exact h.resume hstep
  | send a data results =>
      obtain ⟨ht, rfl⟩ := h.send hstep
      exact ⟨ht, by simp⟩
  | recv a pieces => exact h.recv hstep
  | release a =>
      obtain ⟨ht, rfl⟩ := h.release hsafe hstep
      exact ⟨ht, by simp⟩

/-- **A failed exchange does not poison the pool** in any run of `doRequest` calls in
which the connections that failed exchanges leave open retire when they are released:
no connection over which an earlier request was not answered is handed out, and no
response is read from one. -/
theorem failed_never_handedOut (c : Http.Connection) (maxAliveTime maxRequest : UInt32)
    (now : UInt64) {ops : List Op} {outs : List (List ClientEvent)} {s : Clients}
    (hsafe : Machine.Meets (Clients.step c) SafeRelease (new maxAliveTime maxRequest now) ops)
    (hrun : Machine.run (Clients.step c) (new maxAliveTime maxRequest now) ops = some (outs, s)) :
    ∀ es ∈ outs, ∀ e ∈ es, e.failed = false :=
  (Machine.run_invariant_of_meets Unspoiled.step (Unspoiled.new maxAliveTime maxRequest now)
    hsafe hrun).2

/-- A connection is dialled and handed out; the request is sent in part, the connection
released, and getConnection called again. -/
def brokenSend : List Op :=
  [.getConnection, .resume (.entered 5) none, .resume (.popped none [] 0) none,
    .resume .connecting (some 7), .resume (.created 7) none, .send 7 [71, 69, 84] [1, -1],
    .release 7]

/-- With one request for each connection the pool deletes it. -/
theorem failed_never_handedOut_once :
    ∃ outs s, Machine.run (Clients.step ⟨fun _ => none, 4096, fun _ => []⟩) (new 1 1 5)
        (brokenSend ++ [.resume .deleted none, .getConnection, .resume (.entered 5) none,
          .resume (.popped none [] 0) none, .resume .connecting (some 8),
          .resume (.created 8) none, .send 8 [71, 69, 84] [3], .recv 8 []]) = some (outs, s) ∧
      s.failed 7 = true ∧ ∀ es ∈ outs, ∀ e ∈ es, e.failed = false := by
  have hrun : (Machine.run (Clients.step ⟨fun _ => none, 4096, fun _ => []⟩) (new 1 1 5)
      (brokenSend ++ [.resume .deleted none, .getConnection, .resume (.entered 5) none,
        .resume (.popped none [] 0) none, .resume .connecting (some 8),
        .resume (.created 8) none, .send 8 [71, 69, 84] [3], .recv 8 []])).any
      (fun r => r.2.failed 7) = true := by
    decide
  obtain ⟨⟨outs, s⟩, hs, hfailed⟩ := (Option.any_eq_true _ _).mp hrun
  exact ⟨outs, s, hs, hfailed, failed_never_handedOut _ 1 1 5 (by decide) hs⟩

/-- With more requests for each connection it goes back to the pool, still connected, and
is handed out to the next caller. -/
theorem brokenSend_handedOut :
    ∃ outs s, Machine.run (Clients.step ⟨fun _ => none, 4096, fun _ => []⟩) (new 1 100 5)
        (brokenSend ++ [.resume (.pooling 7) none, .getConnection, .resume (.entered 5) none,
          .resume (.popped (some 7) [] 0) none]) = some (outs, s) ∧
      ∃ es ∈ outs, ClientEvent.handedOut 7 true ∈ es := by
  have hrun : (Machine.run (Clients.step ⟨fun _ => none, 4096, fun _ => []⟩) (new 1 100 5)
      (brokenSend ++ [.resume (.pooling 7) none, .getConnection, .resume (.entered 5) none,
        .resume (.popped (some 7) [] 0) none])).any
      (fun r => decide (∃ es ∈ r.1, ClientEvent.handedOut 7 true ∈ es)) = true := by
    decide
  obtain ⟨⟨outs, s⟩, hs, hevent⟩ := (Option.any_eq_true _ _).mp hrun
  exact ⟨outs, s, hs, of_decide_eq_true hevent⟩

end Clients

end Mingo
