import Mathlib.Data.List.Basic
import Mathlib.Logic.Function.Basic
import Mingo.Lib.Machine
import Mingo.Server.Bind

/-!
# Starting and stopping a server

`TcpServer::start` schedules a fiber in `startAccept` for every listening socket, and
`TcpServer::stop` sets `m_isStop` and schedules a task that closes the sockets.  The fibers, that
task and the callers of `bind`, `start` and `stop` take turns in any order: a step is what one of
them does between two accesses to what they share, that is `m_isStop`, `m_socks`, the descriptor in
a `Socket`, the descriptors of the system and the `READ` event of a descriptor.

* `turn_of_step` -- what a step can do;
* `run_stopped` -- behind a `stop`, each fiber accepts one more client at most, and none if it
  stands at its test.

Only listening sockets have a number here, and only their descriptors are followed.  `bind` runs on
a thread with hooked calls, as the fibers do.  A closing task is not begun while another one is
under way.
-/

namespace Mingo

/-- Where a fiber stands in `TcpServer::startAccept`. -/
inductive AcceptPhase
  /-- before the test of `m_isStop` -/
  | testing
  /-- in `accept`, before the system call on the descriptor, `none` being -1 -/
  | trying (fd : Option Nat)
  /-- in `accept`, swapped out with a `READ` event on the descriptor -/
  | waiting (fd : Nat)
  /-- `startAccept` has returned -/
  | ended
  deriving DecidableEq, Repr

/-- A fiber in `startAccept`, with its argument. -/
structure AcceptLoop where
  sock : Nat
  phase : AcceptPhase
  deriving DecidableEq, Repr

namespace AcceptLoop

/-- The fiber holds its socket. -/
def live (l : AcceptLoop) : Bool := l.phase != .ended

/-- The test of `m_isStop` is behind the fiber. -/
def inAccept (l : AcceptLoop) : Bool :=
  match l.phase with
  | .trying _ => true
  | .waiting _ => true
  | _ => false

end AcceptLoop

/-- What the task of `TcpServer::stop` does, one access after the other. -/
inductive CloseAct
  /-- `sock->cancelAll()` -/
  | cancelAll (a : Nat)
  /-- `sock->close()`, as far as the `cancelAll` of the hooked `close` -/
  | hookCancel (a : Nat)
  /-- `close_f` -/
  | closeF (a : Nat)
  /-- `m_sock = -1` -/
  | forget (a : Nat)
  /-- `m_socks.clear()` -/
  | clear
  deriving DecidableEq, Repr

/-- The whole task, for the sockets in `m_socks`. -/
def closeActs (socks : List Nat) : List CloseAct :=
  socks.flatMap (fun a => [.cancelAll a, .hookCancel a, .closeF a, .forget a]) ++ [.clear]

/-- A server with its sockets, which are numbers, and all that uses them. -/
structure TcpServer.Life (Client : Type) extends TcpServer Nat where
  isStop : Bool
  /-- how many sockets have been made -/
  made : Nat
  /-- `m_sock` of each -/
  sock : Nat → Option Nat
  /-- the socket that listens at a descriptor -/
  desc : Nat → Option Nat
  /-- the clients at a socket that are not accepted; the system drops them when it is closed -/
  backlog : Nat → List Client
  loops : List AcceptLoop
  /-- the closing tasks that are not begun -/
  closing : Nat
  /-- what is left of the one that is -/
  closer : List CloseAct
  /-- an assertion has failed, or an array was read at -1 -/
  aborted : Bool

namespace TcpServer.Life

variable {Client : Type}

/-- What a step tells. -/
inductive Event (Client : Type)
  | silent
  /-- the client has connected to the socket -/
  | arrived (a : Nat) (c : Client)
  /-- a fiber has accepted the client, and hands it over if `Socket::init` succeeds -/
  | accepted (i a : Nat) (c : Client) (inited : Bool)
  deriving DecidableEq, Repr

/-- The steps. -/
inductive Op (Client : Type)
  /-- `bind`, with the descriptors of the sockets that listen, and whether another one failed -/
  | bind (fds : List Nat) (failed : Bool)
  | start
  | stop
  | connect (fd : Nat) (c : Client)
  /-- a fiber tests `m_isStop` and enters `accept` -/
  | test (i : Nat)
  /-- a fiber makes the system call, `inited` being what `Socket::init` returns -/
  | accept (i : Nat) (inited : Bool)
  /-- the system call, or registering the event, fails for another reason -/
  | fail (i : Nat)
  /-- the `READ` event of a fiber is triggered -/
  | ready (i : Nat)
  | beginClose
  | act
  deriving DecidableEq, Repr

/-- A new server. -/
def new : Life Client where
  socks := []
  isStop := true
  made := 0
  sock := fun _ => none
  desc := fun _ => none
  backlog := fun _ => []
  loops := []
  closing := 0
  closer := []
  aborted := false

/-- The socket has an owner: the server or a fiber. -/
def held (s : Life Client) (a : Nat) : Bool :=
  s.socks.contains a || s.loops.any fun l => l.sock == a && l.live

/-- The fibers that wait for the descriptor go on. -/
def wake (s : Life Client) (p : Nat → Bool) : Life Client :=
  { s with loops := s.loops.map fun l =>
      match l.phase with
      | .waiting fd => if p fd then { l with phase := .trying (some fd) } else l
      | _ => l }

/-- `~Socket` of the sockets without an owner, with the hooked `close`. -/
def collect (s : Life Client) : Life Client :=
  { s.wake fun fd => (s.desc fd).any fun a => !s.held a with
    sock := fun a => if s.held a then s.sock a else none
    desc := fun fd => (s.desc fd).filter s.held
    backlog := fun a => if s.held a then s.backlog a else [] }

def setLoop (s : Life Client) (i : Nat) (l : AcceptLoop) : Life Client :=
  { s with loops := s.loops.set i l }

/-- `bind`. -/
def bind (s : Life Client) (fds : List Nat) (failed : Bool) : Life Client :=
  { s with
    socks := if failed then [] else s.socks ++ List.range' s.made fds.length
    made := s.made + fds.length
    sock := fun a => if a < s.made then s.sock a else fds[a - s.made]?
    desc := fun fd => if fd ∈ fds then some (s.made + fds.idxOf fd) else s.desc fd : Life Client
  }.collect

/-- `start`. -/
def start (s : Life Client) : Life Client :=
  if !s.isStop then s
  else { s with isStop := false, loops := s.loops ++ s.socks.map fun a => ⟨a, .testing⟩ }

/-- `stop`. -/
def stop (s : Life Client) : Life Client :=
  { s with isStop := true, closing := s.closing + 1 }

/-- The test of `startAccept`. -/
def test (s : Life Client) (i a : Nat) : Life Client :=
  if s.isStop then (s.setLoop i ⟨a, .ended⟩).collect else s.setLoop i ⟨a, .trying (s.sock a)⟩

/-- `accept` on a descriptor, in `do_io`, by fiber `i` with socket `a`. -/
def accept (s : Life Client) (i a : Nat) (inited : Bool) :
    Option Nat → Event Client × Life Client
  | none => (.silent, s.setLoop i ⟨a, .testing⟩)
  | some fd =>
      match s.desc fd with
      | none => (.silent, s.setLoop i ⟨a, .testing⟩)
      | some b =>
          match s.backlog b with
          | c :: rest =>
              (.accepted i b c inited,
                { s with backlog := Function.update s.backlog b rest }.setLoop i ⟨a, .testing⟩)
          | [] =>
              -- `addEvent` asserts that the descriptor has no `READ` event
              if s.loops.any fun l => l.phase == .waiting fd then
                (.silent, { s with aborted := true })
              else (.silent, s.setLoop i ⟨a, .waiting fd⟩)

/-- One access of the closing task. -/
def closeAct (s : Life Client) : CloseAct → Life Client
  | .cancelAll a =>
      match s.sock a with
      | none => { s with aborted := true }
      | some fd => s.wake (· == fd)
  | .hookCancel a =>
      match s.sock a with
      | none => s
      | some fd => s.wake (· == fd)
  | .closeF a =>
      match s.sock a with
      | none => s
      | some fd =>
          { s with
            desc := Function.update s.desc fd none
            backlog := (s.desc fd).elim s.backlog fun b => Function.update s.backlog b [] }
  | .forget a => { s with sock := Function.update s.sock a none }
  | .clear => { s with socks := [] : Life Client }.collect

/-- A step. -/
def step (s : Life Client) (op : Op Client) : Option (Event Client × Life Client) :=
  if s.aborted then none
  else
    match op with
    | .bind fds failed =>
        if fds.Nodup ∧ ∀ fd ∈ fds, s.desc fd = none then some (.silent, s.bind fds failed) else none
    | .start => some (.silent, s.start)
    | .stop => some (.silent, s.stop)
    | .connect fd c =>
        (s.desc fd).map fun a =>
          (.arrived a c, { s with backlog := Function.update s.backlog a (s.backlog a ++ [c]) })
    | .test i =>
        match s.loops[i]? with
        | some ⟨a, .testing⟩ => some (.silent, s.test i a)
        | _ => none
    | .accept i inited =>
        match s.loops[i]? with
        | some ⟨a, .trying fd⟩ => some (s.accept i a inited fd)
        | _ => none
    | .fail i =>
        match s.loops[i]? with
        | some ⟨a, .trying _⟩ => some (.silent, s.setLoop i ⟨a, .testing⟩)
        | _ => none
    | .ready i =>
        match s.loops[i]? with
        | some ⟨a, .waiting fd⟩ =>
            if (s.desc fd).any fun b => !(s.backlog b).isEmpty then
              some (.silent, s.setLoop i ⟨a, .trying (some fd)⟩)
            else none
        | _ => none
    | .beginClose =>
        if s.closing = 0 ∨ s.closer ≠ [] then none
        else some (.silent, { s with closing := s.closing - 1, closer := closeActs s.socks })
    | .act =>
        match s.closer with
        | [] => none
        | c :: rest => some (.silent, { s with closer := rest }.closeAct c)

/-- The branches of `step`. -/
inductive Turn (s : Life Client) : Op Client → Event Client → Life Client → Prop
  | bind {fds : List Nat} {failed : Bool} : fds.Nodup → (∀ fd ∈ fds, s.desc fd = none) →
      Turn s (.bind fds failed) .silent (s.bind fds failed)
  | start : Turn s .start .silent s.start
  | stop : Turn s .stop .silent s.stop
  | connect {fd a : Nat} {c : Client} : s.desc fd = some a →
      Turn s (.connect fd c) (.arrived a c)
        { s with backlog := Function.update s.backlog a (s.backlog a ++ [c]) }
  | ends {i a : Nat} : s.loops[i]? = some ⟨a, .testing⟩ → s.isStop = true →
      Turn s (.test i) .silent (s.setLoop i ⟨a, .ended⟩).collect
  | enters {i a : Nat} : s.loops[i]? = some ⟨a, .testing⟩ → s.isStop = false →
      Turn s (.test i) .silent (s.setLoop i ⟨a, .trying (s.sock a)⟩)
  | refused {i a : Nat} {fd : Option Nat} {inited : Bool} :
      s.loops[i]? = some ⟨a, .trying fd⟩ → fd.bind s.desc = none →
      Turn s (.accept i inited) .silent (s.setLoop i ⟨a, .testing⟩)
  | accepts {i a fd b : Nat} {inited : Bool} {c : Client} {rest : List Client} :
      s.loops[i]? = some ⟨a, .trying (some fd)⟩ → s.desc fd = some b → s.backlog b = c :: rest →
      Turn s (.accept i inited) (.accepted i b c inited)
        ({ s with backlog := Function.update s.backlog b rest }.setLoop i ⟨a, .testing⟩)
  | asserts {i a fd b : Nat} {inited : Bool} :
      s.loops[i]? = some ⟨a, .trying (some fd)⟩ → s.desc fd = some b →
      (∃ l ∈ s.loops, l.phase = .waiting fd) →
      Turn s (.accept i inited) .silent { s with aborted := true }
  | waits {i a fd b : Nat} {inited : Bool} :
      s.loops[i]? = some ⟨a, .trying (some fd)⟩ → s.desc fd = some b →
      Turn s (.accept i inited) .silent (s.setLoop i ⟨a, .waiting fd⟩)
  | fails {i a : Nat} {fd : Option Nat} : s.loops[i]? = some ⟨a, .trying fd⟩ →
      Turn s (.fail i) .silent (s.setLoop i ⟨a, .testing⟩)
  | ready {i a fd : Nat} : s.loops[i]? = some ⟨a, .waiting fd⟩ →
      Turn s (.ready i) .silent (s.setLoop i ⟨a, .trying (some fd)⟩)
  | beginClose : s.closing ≠ 0 → s.closer = [] →
      Turn s .beginClose .silent
        { s with closing := s.closing - 1, closer := closeActs s.socks }
  | act {c : CloseAct} {rest : List CloseAct} : s.closer = c :: rest →
      Turn s .act .silent ({ s with closer := rest }.closeAct c)

variable {s t : Life Client} {op : Op Client} {ops : List (Op Client)} {o : Event Client}
  {outs : List (Event Client)} {i j a : Nat} {l : AcceptLoop}

theorem turn_accept {inited : Bool} {fd : Option Nat} (hloop : s.loops[i]? = some ⟨a, .trying fd⟩) :
    Turn s (.accept i inited) (s.accept i a inited fd).1 (s.accept i a inited fd).2 := by
  cases fd with
  | none => exact .refused hloop rfl
  | some fd =>
      rw [accept]
      cases hdesc : s.desc fd with
      | none => exact .refused hloop hdesc
      | some b =>
          cases hback : s.backlog b with
          | cons c rest => simpa [hback] using Turn.accepts (s := s) hloop hdesc hback
          | nil =>
              simp only [hback]
              split
              · next hwaits =>
                  refine .asserts hloop hdesc ?_
                  simpa using hwaits
              · exact .waits hloop hdesc

/-- **What a step can do.** -/
theorem turn_of_step (hstep : step s op = some (o, t)) : s.aborted = false ∧ Turn s op o t := by
  rw [step.eq_def] at hstep
  split at hstep
  · cases hstep
  · next hgoes =>
      refine ⟨by simpa using hgoes, ?_⟩
      cases op with
      | bind fds failed =>
          simp only [Option.ite_none_right_eq_some] at hstep
          obtain ⟨⟨hnodup, hfree⟩, heq⟩ := hstep
          cases heq
          exact .bind hnodup hfree
      | start => cases hstep; exact .start
      | stop => cases hstep; exact .stop
      | connect fd c =>
          obtain ⟨a, hdesc, heq⟩ := Option.map_eq_some_iff.mp hstep
          cases heq
          exact .connect hdesc
      | test i =>
          simp only at hstep
          split at hstep
          · next a hloop =>
              cases hstep
              rw [test]
              cases hstop : s.isStop with
              | true => simpa using Turn.ends hloop hstop
              | false => simpa using Turn.enters hloop hstop
          · cases hstep
      | accept i inited =>
          simp only at hstep
          split at hstep
          · next a fd hloop =>
              have hturn : Turn s (.accept i inited) _ _ := turn_accept hloop
              rw [Option.some.inj hstep] at hturn
              exact hturn
          · cases hstep
      | fail i =>
          simp only at hstep
          split at hstep
          · next a fd hloop => cases hstep; exact .fails hloop
          · cases hstep
      | ready i =>
          simp only at hstep
          split at hstep
          · next a fd hloop =>
              simp only [Option.ite_none_right_eq_some] at hstep
              cases hstep.2
              exact .ready hloop
          · cases hstep
      | beginClose =>
          simp only at hstep
          split at hstep
          · cases hstep
          · next hno =>
              cases hstep
              obtain ⟨hclosing, hcloser⟩ := not_or.mp hno
              exact .beginClose hclosing (not_not.mp hcloser)
      | act =>
          simp only at hstep
          split at hstep
          · cases hstep
          · next c rest hcloser => cases hstep; exact .act hcloser

/-- **The sockets behind a `bind`** are those that `TcpServer.bind` leaves. -/
theorem bind_socks {Addr σ : Type} (calls : SocketCalls Addr Nat σ) (addrs : List Addr) (k : σ)
    (fds : List Nat) (hnew : opened (outcomes calls addrs k) = List.range' s.made fds.length) :
    (s.bind fds !(failed (outcomes calls addrs k)).isEmpty).toTcpServer =
      (TcpServer.bind calls s.toTcpServer addrs [] k).2.1 := by
  obtain ⟨u, hbind⟩ := bind_spec calls s.toTcpServer addrs k
  rw [hbind]
  cases failed (outcomes calls addrs k) with
  | nil => simp [bind, collect, wake, hnew]
  | cons addr rest => simp [bind, collect, wake]

/-! ### Behind a stop -/

/-- Fiber `i` is past its test. -/
def inAccept (s : Life Client) (i : Nat) : Bool := (s.loops[i]?).any AcceptLoop.inAccept

/-- Fiber `i` accepts a client. -/
def Event.isAccept (i : Nat) : Event Client → Bool
  | .accepted j _ _ _ => i == j
  | _ => false

@[simp] theorem wake_inAccept (p : Nat → Bool) (i : Nat) :
    (s.wake p).inAccept i = s.inAccept i := by
  rw [inAccept, inAccept, wake, List.getElem?_map]
  cases s.loops[i]? with
  | none => rfl
  | some l =>
      cases hphase : l.phase with
      | waiting fd => by_cases hp : p fd <;> simp [AcceptLoop.inAccept, hphase, hp]
      | _ => simp [AcceptLoop.inAccept, hphase]

@[simp] theorem collect_inAccept (i : Nat) : s.collect.inAccept i = s.inAccept i :=
  wake_inAccept _ i

@[simp] theorem wake_length (p : Nat → Bool) : (s.wake p).loops.length = s.loops.length :=
  List.length_map _

@[simp] theorem collect_length : s.collect.loops.length = s.loops.length :=
  wake_length _

theorem setLoop_inAccept (h : i < s.loops.length) (j : Nat) :
    (s.setLoop i l).inAccept j = if i = j then l.inAccept else s.inAccept j := by
  rw [inAccept, setLoop, List.getElem?_set]
  by_cases hij : i = j
  · simp [← hij, h]
  · simp [hij, inAccept]

theorem closeAct_inAccept (c : CloseAct) (i : Nat) :
    (s.closeAct c).inAccept i = s.inAccept i := by
  cases c with
  | cancelAll a =>
      rw [closeAct]
      split
      · rfl
      · exact wake_inAccept _ i
  | hookCancel a => cases h : s.sock a <;> simp [closeAct, h]
  | closeF a => cases h : s.sock a <;> simp [closeAct, h, inAccept]
  | forget a => rfl
  | clear => exact collect_inAccept i

theorem closeAct_isStop (c : CloseAct) : (s.closeAct c).isStop = s.isStop := by
  cases c with
  | cancelAll a => cases h : s.sock a <;> simp [closeAct, h, wake]
  | hookCancel a => cases h : s.sock a <;> simp [closeAct, h, wake]
  | closeF a => cases h : s.sock a <;> simp [closeAct, h]
  | forget a => rfl
  | clear => rfl

theorem closeAct_length (c : CloseAct) : (s.closeAct c).loops.length = s.loops.length := by
  cases c with
  | cancelAll a => cases h : s.sock a <;> simp [closeAct, h]
  | hookCancel a => cases h : s.sock a <;> simp [closeAct, h]
  | closeF a => cases h : s.sock a <;> simp [closeAct, h]
  | forget a => rfl
  | clear => exact collect_length

theorem inAccept_of_getElem? (h : s.loops[i]? = some l) : s.inAccept i = l.inAccept := by
  rw [inAccept, h, Option.any_some]

/-- A fiber moves: the others stay, and it enters `accept` only at its test. -/
theorem setLoop_le {k : AcceptLoop} (h : s.loops[j]? = some k)
    (hle : l.inAccept = true → k.inAccept = true) (i : Nat) :
    ((s.setLoop j l).inAccept i).toNat ≤ (s.inAccept i).toNat := by
  obtain ⟨hj, -⟩ := List.getElem?_eq_some_iff.mp h
  rw [setLoop_inAccept hj]
  split
  · next hij =>
      subst hij
      rw [inAccept_of_getElem? h]
      cases hl : l.inAccept with
      | false => exact Nat.zero_le _
      | true => simp [hle hl]
  · exact Nat.le_refl _

/-- **A step behind a `stop`**: a fiber that accepts a client leaves `accept`, and none enters
it. -/
theorem Turn.stopped (h : Turn s op o t) (hstop : s.isStop = true) (hop : op ≠ .start) (i : Nat) :
    t.isStop = true ∧ t.loops.length = s.loops.length ∧
      (o.isAccept i).toNat + (t.inAccept i).toNat ≤ (s.inAccept i).toNat := by
  have hmove {j : Nat} {k l : AcceptLoop} (hk : s.loops[j]? = some k)
      (hle : l.inAccept = true → k.inAccept = true) :
      ((Event.silent : Event Client).isAccept i).toNat + ((s.setLoop j l).inAccept i).toNat ≤
        (s.inAccept i).toNat := by
    have hno : ((Event.silent : Event Client).isAccept i).toNat = 0 := rfl
    rw [hno, Nat.zero_add]
    exact setLoop_le hk hle i
  have hstay {o : Event Client} {u : Life Client} (ho : o.isAccept i = false)
      (hu : u.inAccept i = s.inAccept i) :
      (o.isAccept i).toNat + (u.inAccept i).toNat ≤ (s.inAccept i).toNat := by simp [ho, hu]
  cases h with
  | bind hnodup hfree => exact ⟨hstop, collect_length, hstay rfl (collect_inAccept i)⟩
  | start => exact absurd rfl hop
  | stop => exact ⟨rfl, rfl, hstay rfl rfl⟩
  | connect hdesc => exact ⟨hstop, rfl, hstay rfl rfl⟩
  | ends hloop =>
      refine ⟨hstop, by simp [setLoop], ?_⟩
      rw [collect_inAccept]
      exact hmove hloop nofun
  | enters hloop hgoes => exact absurd (hgoes.symm.trans hstop) Bool.false_ne_true
  | refused hloop hdesc => exact ⟨hstop, by simp [setLoop], hmove hloop nofun⟩
  | @accepts j a fd b inited c rest hloop hdesc hback =>
      refine ⟨hstop, by simp [setLoop], ?_⟩
      obtain ⟨hj, -⟩ := List.getElem?_eq_some_iff.mp hloop
      have hset := setLoop_inAccept
        (s := { s with backlog := Function.update s.backlog b rest }) (l := ⟨a, .testing⟩) hj i
      by_cases hij : j = i
      · rw [hset, if_pos hij, ← hij, inAccept_of_getElem? hloop]
        simp [Event.isAccept, AcceptLoop.inAccept]
      · rw [if_neg hij] at hset
        exact hstay (beq_false_of_ne (Ne.symm hij)) hset
  | asserts hloop hdesc hwaits => exact ⟨hstop, rfl, hstay rfl rfl⟩
  | waits hloop hdesc => exact ⟨hstop, by simp [setLoop], hmove hloop fun _ => rfl⟩
  | fails hloop => exact ⟨hstop, by simp [setLoop], hmove hloop nofun⟩
  | ready hloop => exact ⟨hstop, by simp [setLoop], hmove hloop fun _ => rfl⟩
  | beginClose hclosing hcloser => exact ⟨hstop, rfl, hstay rfl rfl⟩
  | @act c rest hcloser =>
      exact ⟨(closeAct_isStop c).trans hstop, closeAct_length c, hstay rfl (closeAct_inAccept c i)⟩

/-- **Behind a stop**, and until the next `start`: no fiber is added, and each one accepts at most
one more client, if it is past its test. -/
theorem run_stopped (hrun : Machine.run step s ops = some (outs, t)) (hstop : s.isStop = true)
    (hops : Op.start ∉ ops) (i : Nat) :
    t.isStop = true ∧ t.loops.length = s.loops.length ∧
      outs.countP (Event.isAccept i) + (t.inAccept i).toNat ≤ (s.inAccept i).toNat := by
  induction ops generalizing s outs with
  | nil =>
      cases hrun
      exact ⟨hstop, rfl, by simp⟩
  | cons op ops ih =>
      obtain ⟨o, u, os, hfirst, hrest, rfl⟩ := Machine.run_cons_some.mp hrun
      obtain ⟨hop, hops⟩ := not_or.mp (List.mem_cons.not.mp hops)
      obtain ⟨hstop', hlength, hone⟩ := (turn_of_step hfirst).2.stopped hstop (Ne.symm hop) i
      obtain ⟨hstopped, hlengths, hle⟩ := ih hrest hstop' hops
      refine ⟨hstopped, hlengths.trans hlength, ?_⟩
      rw [List.countP_cons]
      cases ho : o.isAccept i with
      | false => simp [ho] at hone ⊢; omega
      | true => simp [ho] at hone ⊢; omega

/-- A fiber waits for a client when the server is stopped. -/
def waitingStopped : Life Nat :=
  ((new.bind [5] false).start.setLoop 0 ⟨0, .waiting 5⟩).stop

/-- It accepts the client that comes next. -/
theorem run_stopped_waiting :
    ∃ outs t, Machine.run step waitingStopped
        [.connect 5 80, .ready 0, .accept 0 true, .test 0] = some (outs, t) ∧
      outs.countP (Event.isAccept 0) = 1 ∧ t.isStop = true ∧ t.loops.length = 1 ∧
      outs.countP (Event.isAccept 0) + (t.inAccept 0).toNat ≤ 1 := by
  have hops : Op.start ∉ ([.connect 5 80, .ready 0, .accept 0 true, .test 0] : List (Op Nat)) := by
    decide
  obtain ⟨outs, t, hrun, hcount⟩ : ∃ outs t, Machine.run step waitingStopped
      [.connect 5 80, .ready 0, .accept 0 true, .test 0] = some (outs, t) ∧
      outs.countP (Event.isAccept 0) = 1 := ⟨_, _, rfl, rfl⟩
  exact ⟨outs, t, hrun, hcount, run_stopped hrun rfl hops 0⟩

end TcpServer.Life

end Mingo
