import Mathlib.Data.List.Basic

/-!
# Binding a server to several addresses

`TcpServer::bind` appends a socket for every address that it binds and listens
on to `m_socks`.  When an address fails it gives up all of `m_socks`, and not
only what it has appended.

* `bind_spec` -- what a call leaves, from the outcomes of its system calls;
* `bind_rollback_iff` -- when a failed call changes nothing;
* `run_socks` -- the sockets after any history of calls.

What `bind` and `listen` of a socket do is a parameter, as is the state of the
system, on which their outcomes may depend.
-/

namespace Mingo

/-- `Socket::CreateTCP`, `Socket::bind` and `Socket::listen`. -/
structure SocketCalls (Addr Sock σ : Type) where
  createTCP : Addr → σ → Sock × σ
  bind : Sock → Addr → σ → Bool × σ
  listen : Sock → σ → Bool × σ

/-- `TcpServer`: the member `m_socks`. -/
structure TcpServer (Sock : Type) where
  socks : List Sock
  deriving DecidableEq, Repr

namespace TcpServer

variable {Addr Sock σ : Type}

/-- A turn of the loop: the socket, unless `bind` or `listen` failed. -/
def tryOpen (calls : SocketCalls Addr Sock σ) (addr : Addr) (s : σ) : Option Sock × σ :=
  let (sock, s) := calls.createTCP addr s
  let (bound, s) := calls.bind sock addr s
  if !bound then (none, s)
  else
    let (listens, s) := calls.listen sock s
    if !listens then (none, s) else (some sock, s)

/-- The loop of `bind` over the addresses. -/
def bindLoop (calls : SocketCalls Addr Sock σ) :
    List Addr → List Sock → List Addr → σ → List Sock × List Addr × σ
  | [], socks, fails, s => (socks, fails, s)
  | addr :: addrs, socks, fails, s =>
      match tryOpen calls addr s with
      | (none, s) => bindLoop calls addrs socks (fails ++ [addr]) s
      | (some sock, s) => bindLoop calls addrs (socks ++ [sock]) fails s

/-- `bind(addrs, fails)`: what it returns, the server, `fails` and the system. -/
def bind (calls : SocketCalls Addr Sock σ) (server : TcpServer Sock) (addrs fails : List Addr)
    (s : σ) : Bool × TcpServer Sock × List Addr × σ :=
  match bindLoop calls addrs server.socks fails s with
  | (socks, fails, s) =>
      if !fails.isEmpty then (false, ⟨[]⟩, fails, s) else (true, ⟨socks⟩, fails, s)

/-- `bind(addr)`. -/
def bindOne (calls : SocketCalls Addr Sock σ) (server : TcpServer Sock) (addr : Addr) (s : σ) :
    Bool × TcpServer Sock × List Addr × σ :=
  server.bind calls [addr] [] s

/-! ### Outcomes -/

/-- The outcome for every address. -/
def outcomes (calls : SocketCalls Addr Sock σ) : List Addr → σ → List (Addr × Option Sock)
  | [], _ => []
  | addr :: addrs, s =>
      let r := tryOpen calls addr s
      (addr, r.1) :: outcomes calls addrs r.2

/-- The addresses that failed. -/
def failed (os : List (Addr × Option Sock)) : List Addr :=
  (os.filter fun o => o.2.isNone).map Prod.fst

/-- The sockets of the other ones. -/
def opened (os : List (Addr × Option Sock)) : List Sock := os.filterMap Prod.snd

theorem failed_eq_nil_iff (os : List (Addr × Option Sock)) :
    failed os = [] ↔ ∀ o ∈ os, o.2.isSome := by
  rw [failed, List.map_eq_nil_iff, List.filter_eq_nil_iff]
  simp [Option.isSome_iff_ne_none]

variable (calls : SocketCalls Addr Sock σ)

/-- **The loop** appends the sockets to one list and the failed addresses to the other. -/
theorem bindLoop_eq (addrs : List Addr) (socks : List Sock) (fails : List Addr) (s : σ) :
    ∃ t, bindLoop calls addrs socks fails s =
      (socks ++ opened (outcomes calls addrs s), fails ++ failed (outcomes calls addrs s), t) := by
  induction addrs generalizing socks fails s with
  | nil => exact ⟨s, by simp [bindLoop, outcomes, opened, failed]⟩
  | cons addr addrs ih =>
      rw [bindLoop, outcomes]
      cases hopen : tryOpen calls addr s with
      | mk sock t =>
          cases sock with
          | none =>
              obtain ⟨u, hu⟩ := ih socks (fails ++ [addr]) t
              exact ⟨u, by simp [hu, opened, failed]⟩
          | some sock =>
              obtain ⟨u, hu⟩ := ih (socks ++ [sock]) fails t
              exact ⟨u, by simp [hu, opened, failed]⟩

/-- **What a call leaves**: nothing at all, if an address failed. -/
theorem bind_spec (server : TcpServer Sock) (addrs : List Addr) (s : σ) :
    ∃ t, server.bind calls addrs [] s =
      if failed (outcomes calls addrs s) = [] then
        (true, ⟨server.socks ++ opened (outcomes calls addrs s)⟩, [], t)
      else (false, ⟨[]⟩, failed (outcomes calls addrs s), t) := by
  obtain ⟨t, hloop⟩ := bindLoop_eq calls addrs server.socks [] s
  refine ⟨t, ?_⟩
  rw [bind, hloop]
  cases hfailed : failed (outcomes calls addrs s) with
  | nil => rfl
  | cons addr addrs' => rfl

/-! ### Rolling back -/

/-- The call binds to all addresses or changes nothing. -/
def RollsBack (server : TcpServer Sock) (addrs : List Addr) (s : σ) : Prop :=
  ∃ returned server' fails t, server.bind calls addrs [] s = (returned, server', fails, t) ∧
    (returned = true ↔ ∀ o ∈ outcomes calls addrs s, o.2.isSome) ∧
    (returned = true → server'.socks = server.socks ++ opened (outcomes calls addrs s)) ∧
    (returned = false →
      fails = failed (outcomes calls addrs s) ∧ server'.socks = server.socks)

/-- **A failed call changes nothing** only where there was nothing. -/
theorem bind_rollback_iff (server : TcpServer Sock) (addrs : List Addr) (s : σ) :
    server.RollsBack calls addrs s ↔
      server.socks = [] ∨ ∀ o ∈ outcomes calls addrs s, o.2.isSome := by
  obtain ⟨t, hbind⟩ := bind_spec calls server addrs s
  rw [← failed_eq_nil_iff]
  by_cases hfailed : failed (outcomes calls addrs s) = []
  · rw [if_pos hfailed] at hbind
    refine iff_of_true ⟨_, _, _, _, hbind, ?_, fun _ => rfl, nofun⟩ (Or.inr hfailed)
    exact iff_of_true rfl ((failed_eq_nil_iff _).mp hfailed)
  · rw [if_neg hfailed] at hbind
    constructor
    · rintro ⟨returned, server', fails, u, hcall, -, -, hsame⟩
      rw [hbind] at hcall
      cases hcall
      exact Or.inl (hsame rfl).2.symm
    · intro hempty
      refine ⟨_, _, _, _, hbind, ?_, nofun, fun _ => ⟨rfl, ?_⟩⟩
      · rw [← failed_eq_nil_iff]
        exact iff_of_false nofun hfailed
      · exact (hempty.resolve_right hfailed).symm

/-- Sockets are addresses; those in the system cannot be bound again. -/
def portCalls : SocketCalls Nat Nat (List Nat) where
  createTCP addr s := (addr, s)
  bind _ addr s := if addr ∈ s then (false, s) else (true, addr :: s)
  listen _ s := (true, s)

/-- **Earlier sockets are given up**: the server listens on port 80, and loses it when a later
call cannot bind to port 22. -/
theorem not_rollsBack_ports :
    (bind portCalls ⟨[]⟩ [80] [] [22]).2.1 = ⟨[80]⟩ ∧
      (bind portCalls ⟨[80]⟩ [22] [] [80, 22]).2.1 = ⟨[]⟩ ∧
      ¬ RollsBack portCalls ⟨[80]⟩ [22] [80, 22] := by
  refine ⟨rfl, rfl, ?_⟩
  rintro ⟨returned, server', fails, t, hbind, -, -, hsame⟩
  cases hbind
  exact absurd (hsame rfl).2 (by decide)

/-! ### Histories -/

/-- The calls one after the other, and the outcomes of each. -/
def run (server : TcpServer Sock) :
    List (List Addr) → σ → TcpServer Sock × List (List (Addr × Option Sock))
  | [], _ => (server, [])
  | addrs :: rest, s =>
      match server.bind calls addrs [] s with
      | (_, server', _, t) =>
          let r := run server' rest t
          (r.1, outcomes calls addrs s :: r.2)

/-- The sockets of the calls behind the last one that failed. -/
def sinceFailure (socks : List Sock) (history : List (List (Addr × Option Sock))) : List Sock :=
  history.foldl (fun socks os => if failed os = [] then socks ++ opened os else []) socks

/-- **Any history**: the server has the sockets of the calls since the last failure. -/
theorem run_socks (server : TcpServer Sock) (history : List (List Addr)) (s : σ) :
    (run calls server history s).1.socks =
      sinceFailure server.socks (run calls server history s).2 := by
  induction history generalizing server s with
  | nil => rfl
  | cons addrs rest ih =>
      obtain ⟨t, hbind⟩ := bind_spec calls server addrs s
      rw [run, hbind]
      by_cases hfailed : failed (outcomes calls addrs s) = []
      · simp only [if_pos hfailed, ih]
        rw [sinceFailure, sinceFailure, List.foldl_cons, if_pos hfailed]
      · simp only [if_neg hfailed, ih]
        rw [sinceFailure, sinceFailure, List.foldl_cons, if_neg hfailed]

end TcpServer

end Mingo
