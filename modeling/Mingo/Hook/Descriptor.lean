import Mathlib.Data.List.Basic
import Mathlib.Logic.Function.Basic
import Mingo.Lib.Machine

/-!
# Descriptors: fd_manager.cpp and the hooked fcntl and ioctl

`FdManager` keeps an `FdCtx` for each descriptor that the hooked calls have
opened.  A socket is switched to non-blocking mode in the kernel when its
`FdCtx` is made, and the mode its user sees is kept apart in `m_userNonblock`.

The kernel's side of a descriptor is its kind and its file status flags.  A
call is undefined when the call underneath fails.

* `setfl_hooked`, `getfl_hooked`, `fionbio_hooked` -- what each call does to a
  socket that has an `FdCtx`;
* `nonblocking_iff` -- the kernel's flag stays set exactly as long as nobody
  asks for `ioctl(FIONBIO, 0)`.
-/

namespace Mingo

/-- `O_NONBLOCK`. -/
def O_NONBLOCK : BitVec 32 := 0x800#32

/-- The file status flags that `F_SETFL` changes: `O_APPEND`, `O_NONBLOCK`,
`O_ASYNC`, `O_DIRECT` and `O_NOATIME`. -/
def SETFL_MASK : BitVec 32 := 0x400#32 ||| O_NONBLOCK ||| 0x2000#32 ||| 0x4000#32 ||| 0x40000#32

/-- What the kernel knows about an open descriptor. -/
structure Descriptor where
  isSocket : Bool
  flags : BitVec 32
  deriving DecidableEq, Repr

namespace Descriptor

/-- `fcntl_f(fd, F_SETFL, arg)`. -/
def setfl (d : Descriptor) (arg : BitVec 32) : Descriptor :=
  { d with flags := (d.flags &&& ~~~SETFL_MASK) ||| (arg &&& SETFL_MASK) }

/-- `ioctl_f(fd, FIONBIO, &value)`. -/
def fionbio (d : Descriptor) (value : BitVec 32) : Descriptor :=
  { d with flags := if value = 0#32 then d.flags &&& ~~~O_NONBLOCK else d.flags ||| O_NONBLOCK }

/-- A call on the descriptor returns `EAGAIN` where it would block. -/
def nonblock (d : Descriptor) : Bool := d.flags &&& O_NONBLOCK ≠ 0#32

end Descriptor

/-- The members of `FdCtx`. -/
structure FdCtx where
  isInit : Bool
  isSocket : Bool
  sysNonblock : Bool
  userNonblock : Bool
  isClosed : Bool
  recvTimeout : UInt64
  sendTimeout : UInt64
  deriving DecidableEq, Repr

/-- The constructor with its call of `init`, on what `fstat` finds: the new
`FdCtx` and the descriptor. -/
def FdCtx.init : Option Descriptor → FdCtx × Option Descriptor
  | none => (⟨false, false, false, false, false, -1, -1⟩, none)
  | some d =>
      if d.isSocket then
        (⟨true, true, true, false, false, -1, -1⟩,
          some (if d.flags &&& O_NONBLOCK = 0#32 then d.setfl (d.flags ||| O_NONBLOCK) else d))
      else (⟨true, false, false, false, false, -1, -1⟩, some d)

/-- `FdManager` and the kernel's table of open descriptors. -/
structure FdManager where
  datas : Nat → Option FdCtx
  kernel : Nat → Option Descriptor

namespace FdManager

def setCtx (m : FdManager) (fd : Nat) (ctx : FdCtx) : FdManager :=
  { m with datas := Function.update m.datas fd (some ctx) }

def setKernel (m : FdManager) (fd : Nat) (d : Descriptor) : FdManager :=
  { m with kernel := Function.update m.kernel fd (some d) }

/-- `get` with `auto_create`. -/
def get (m : FdManager) (fd : Nat) : FdManager :=
  match m.datas fd with
  | some _ => m
  | none =>
      let r := FdCtx.init (m.kernel fd)
      ⟨Function.update m.datas fd (some r.1), Function.update m.kernel fd r.2⟩

/-- The hooked `fcntl(fd, F_SETFL, arg)`. -/
def setfl (m : FdManager) (fd : Nat) (arg : BitVec 32) (d : Descriptor) : FdManager :=
  match m.datas fd with
  | none => m.setKernel fd (d.setfl arg)
  | some ctx =>
      if ctx.isClosed || !ctx.isSocket then m.setKernel fd (d.setfl arg)
      else
        let m := m.setCtx fd { ctx with userNonblock := arg &&& O_NONBLOCK ≠ 0#32 }
        if ctx.sysNonblock then m.setKernel fd (d.setfl (arg ||| O_NONBLOCK))
        else m.setKernel fd (d.setfl (arg &&& ~~~O_NONBLOCK))

/-- The hooked `fcntl(fd, F_GETFL)`. -/
def getfl (m : FdManager) (fd : Nat) (d : Descriptor) : BitVec 32 :=
  match m.datas fd with
  | none => d.flags
  | some ctx =>
      if ctx.isClosed || !ctx.isSocket then d.flags
      else if ctx.userNonblock then d.flags ||| O_NONBLOCK
      else d.flags &&& ~~~O_NONBLOCK

/-- The hooked `ioctl(fd, FIONBIO, &value)`: the call underneath gets the value
of the user. -/
def fionbio (m : FdManager) (fd : Nat) (value : BitVec 32) (d : Descriptor) : FdManager :=
  match m.datas fd with
  | none => m.setKernel fd (d.fionbio value)
  | some ctx =>
      if ctx.isClosed || !ctx.isSocket then m.setKernel fd (d.fionbio value)
      else (m.setCtx fd { ctx with userNonblock := value ≠ 0#32 }).setKernel fd (d.fionbio value)

/-- The calls. -/
inductive Op
  | get (fd : Nat)
  | setfl (fd : Nat) (arg : BitVec 32)
  | getfl (fd : Nat)
  | fionbio (fd : Nat) (value : BitVec 32)
  deriving DecidableEq, Repr

def Op.fd : Op → Nat
  | .get fd => fd
  | .setfl fd _ => fd
  | .getfl fd => fd
  | .fionbio fd _ => fd

/-- One call and its result. -/
def step : Machine.Step FdManager Op (BitVec 32)
  | m, .get fd => some (0, m.get fd)
  | m, .setfl fd arg => (m.kernel fd).map fun d => (0, m.setfl fd arg d)
  | m, .getfl fd => (m.kernel fd).map fun d => (m.getfl fd d, m)
  | m, .fionbio fd value => (m.kernel fd).map fun d => (0, m.fionbio fd value d)

/-- A socket with an `FdCtx` that is non-blocking in the kernel. -/
structure Hooked (m : FdManager) (fd : Nat) (ctx : FdCtx) : Prop where
  data : m.datas fd = some ctx
  isSocket : ctx.isSocket = true
  sysNonblock : ctx.sysNonblock = true
  isOpen : ctx.isClosed = false
  kernel : ∃ d, m.kernel fd = some d ∧ d.nonblock = true

/-- The mode that a call asks for on a descriptor. -/
def asks (fd : Nat) : Op → Option Bool
  | .setfl fd' arg => if fd' = fd then some (arg &&& O_NONBLOCK ≠ 0#32) else none
  | .fionbio fd' value => if fd' = fd then some (value ≠ 0#32) else none
  | _ => none

/-- The kernel's `O_NONBLOCK` flag of a descriptor. -/
def kernelNonblock (m : FdManager) (fd : Nat) : Bool := (m.kernel fd).any Descriptor.nonblock

/-- `getUserNonblock` of the `FdCtx` of a descriptor. -/
def getUserNonblock (m : FdManager) (fd : Nat) : Bool := (m.datas fd).any FdCtx.userNonblock

/-- The mode that was asked for last, `mode` before the calls. -/
def lastAsked (fd : Nat) (mode : Bool) (ops : List Op) : Bool :=
  ops.foldl (fun mode op => (asks fd op).getD mode) mode

end FdManager

namespace Descriptor

@[simp]
theorem O_NONBLOCK_bit : O_NONBLOCK[11] = true := by decide

@[simp]
theorem SETFL_MASK_bit : SETFL_MASK[11] = true := by decide

theorem and_O_NONBLOCK_ne (x : BitVec 32) : x &&& O_NONBLOCK ≠ 0#32 ↔ x[11] = true := by
  have h : O_NONBLOCK = BitVec.twoPow 32 11 := by decide
  rw [h, BitVec.and_twoPow]
  cases hbit : x[11] <;> simp [hbit, ← h, O_NONBLOCK]

theorem nonblock_eq (d : Descriptor) : d.nonblock = d.flags[11] := by
  simp only [nonblock, and_O_NONBLOCK_ne, Bool.decide_coe]

theorem nonblock_setfl (d : Descriptor) (arg : BitVec 32) :
    (d.setfl arg).nonblock = arg[11] := by
  simp [nonblock_eq, setfl]

theorem nonblock_fionbio (d : Descriptor) (value : BitVec 32) :
    (d.fionbio value).nonblock = decide (value ≠ 0#32) := by
  rw [nonblock_eq, fionbio]
  split
  · rename_i hzero
    simp [hzero]
  · rename_i hvalue
    simp [hvalue]

end Descriptor

namespace FdManager

variable {m m' : FdManager} {fd : Nat} {ctx : FdCtx}

/-- The `FdCtx` that is made for an open socket. -/
theorem hooked_get {d : Descriptor} (hdata : m.datas fd = none) (hkernel : m.kernel fd = some d)
    (hsocket : d.isSocket = true) :
    (m.get fd).Hooked fd ⟨true, true, true, false, false, -1, -1⟩ := by
  refine ⟨by simp [get, hdata, hkernel, FdCtx.init, hsocket], rfl, rfl, rfl, ?_⟩
  by_cases hflag : d.flags &&& O_NONBLOCK = 0#32
  · refine ⟨d.setfl (d.flags ||| O_NONBLOCK), ?_, ?_⟩
    · simp [get, hdata, hkernel, FdCtx.init, hsocket, hflag]
    · simp [Descriptor.nonblock_setfl]
  · refine ⟨d, ?_, ?_⟩
    · simp [get, hdata, hkernel, FdCtx.init, hsocket, hflag]
    · simp [Descriptor.nonblock, hflag]

/-- The mode the user sees in the result of `F_GETFL` is the one kept for it. -/
theorem getfl_hooked (h : m.Hooked fd ctx) (d : Descriptor) :
    (m.getfl fd d)[11] = ctx.userNonblock := by
  cases huser : ctx.userNonblock <;>
    simp [getfl, h.data, h.isOpen, h.isSocket, huser]

theorem setfl_hooked (h : m.Hooked fd ctx) (arg : BitVec 32) (d : Descriptor) :
    (m.setfl fd arg d).Hooked fd { ctx with userNonblock := arg &&& O_NONBLOCK ≠ 0#32 } := by
  refine ⟨?_, h.isSocket, h.sysNonblock, h.isOpen, d.setfl (arg ||| O_NONBLOCK), ?_, ?_⟩
  · simp [setfl, h.data, h.isOpen, h.isSocket, h.sysNonblock, setCtx, setKernel]
  · simp [setfl, h.data, h.isOpen, h.isSocket, h.sysNonblock, setKernel]
  · simp [Descriptor.nonblock_setfl]

/-- `ioctl` leaves the socket in the mode that the user asks for. -/
theorem fionbio_hooked (h : m.Hooked fd ctx) {value : BitVec 32} (hvalue : value ≠ 0#32)
    (d : Descriptor) :
    (m.fionbio fd value d).Hooked fd { ctx with userNonblock := value ≠ 0#32 } := by
  refine ⟨?_, h.isSocket, h.sysNonblock, h.isOpen, d.fionbio value, ?_, ?_⟩
  · simp [fionbio, h.data, h.isOpen, h.isSocket, setCtx, setKernel]
  · simp [fionbio, h.data, h.isOpen, h.isSocket, setKernel]
  · simp [Descriptor.nonblock_fionbio, hvalue]

/-- A call on one descriptor leaves the others alone. -/
theorem step_other {op : Op} {o : BitVec 32} (hfd : fd ≠ op.fd)
    (hstep : step m op = some (o, m')) :
    m'.datas fd = m.datas fd ∧ m'.kernel fd = m.kernel fd := by
  cases op with
  | get fd' =>
      cases hstep
      rw [get]
      split
      · exact ⟨rfl, rfl⟩
      · exact ⟨Function.update_of_ne hfd _ _, Function.update_of_ne hfd _ _⟩
  | setfl fd' arg =>
      obtain ⟨d, -, heq⟩ := Option.map_eq_some_iff.mp hstep
      cases heq
      simp only [Op.fd] at hfd
      rw [setfl]
      repeat' split
      all_goals simp [setKernel, setCtx, Function.update_of_ne hfd]
  | getfl fd' =>
      obtain ⟨d, -, heq⟩ := Option.map_eq_some_iff.mp hstep
      cases heq
      exact ⟨rfl, rfl⟩
  | fionbio fd' value =>
      obtain ⟨d, -, heq⟩ := Option.map_eq_some_iff.mp hstep
      cases heq
      simp only [Op.fd] at hfd
      rw [fionbio]
      repeat' split
      all_goals simp [setKernel, setCtx, Function.update_of_ne hfd]

theorem asks_other {op : Op} (hfd : fd ≠ op.fd) : asks fd op = none := by
  cases op with
  | get fd' => rfl
  | setfl fd' arg => exact if_neg (Ne.symm hfd)
  | getfl fd' => rfl
  | fionbio fd' value => exact if_neg (Ne.symm hfd)

/-- **Step lemma.**  Every call but `ioctl(FIONBIO, 0)` keeps the socket
non-blocking in the kernel and remembers the mode that the user asks for. -/
theorem step_hooked {op : Op} {o : BitVec 32} (h : m.Hooked fd ctx)
    (hop : ∀ value, op = .fionbio fd value → value ≠ 0#32) (hstep : step m op = some (o, m')) :
    m'.Hooked fd { ctx with userNonblock := (asks fd op).getD ctx.userNonblock } := by
  by_cases hfd : fd = op.fd
  · subst hfd
    cases op with
    | get fd' =>
        cases hstep
        simp only [Op.fd] at h ⊢
        rw [get, h.data]
        exact h
    | setfl fd' arg =>
        obtain ⟨d, -, heq⟩ := Option.map_eq_some_iff.mp hstep
        cases heq
        simpa [asks, Op.fd] using setfl_hooked h arg d
    | getfl fd' =>
        obtain ⟨d, -, heq⟩ := Option.map_eq_some_iff.mp hstep
        cases heq
        exact h
    | fionbio fd' value =>
        obtain ⟨d, -, heq⟩ := Option.map_eq_some_iff.mp hstep
        cases heq
        simpa [asks, Op.fd] using fionbio_hooked h (hop value rfl) d
  · obtain ⟨hdata, hkernel⟩ := step_other hfd hstep
    rw [asks_other hfd]
    exact ⟨hdata.trans h.data, h.isSocket, h.sysNonblock, h.isOpen, hkernel ▸ h.kernel⟩

/-- **Run lemma.** -/
theorem run_hooked : ∀ {ops : List Op} {m : FdManager} {ctx : FdCtx} {os : List (BitVec 32)},
    m.Hooked fd ctx → (∀ value, .fionbio fd value ∈ ops → value ≠ 0#32) →
      Machine.run step m ops = some (os, m') →
        m'.Hooked fd { ctx with userNonblock := lastAsked fd ctx.userNonblock ops } := by
  intro ops
  induction ops with
  | nil =>
      intro m ctx os h _ hrun
      cases hrun
      exact h
  | cons op ops ih =>
      intro m ctx os h hops hrun
      obtain ⟨o, m₁, os', hfirst, hrest, rfl⟩ := Machine.run_cons_some.mp hrun
      have h₁ := step_hooked h (fun value hop => hops value (hop ▸ List.mem_cons_self)) hfirst
      exact ih h₁ (fun value hop => hops value (List.mem_cons_of_mem op hop)) hrest

theorem Hooked.modes (h : m.Hooked fd ctx) :
    m.kernelNonblock fd = true ∧ m.getUserNonblock fd = ctx.userNonblock := by
  obtain ⟨d, hkernel, hnonblock⟩ := h.kernel
  simp [kernelNonblock, getUserNonblock, hkernel, hnonblock, h.data]

/-- `ioctl(FIONBIO, 0)` makes the descriptor blocking, whoever asks. -/
theorem kernelNonblock_fionbio_zero {o : BitVec 32}
    (hstep : step m (.fionbio fd 0#32) = some (o, m')) : m'.kernelNonblock fd = false := by
  obtain ⟨d, -, heq⟩ := Option.map_eq_some_iff.mp hstep
  cases heq
  rw [fionbio]
  repeat' split
  all_goals simp [kernelNonblock, setKernel, Descriptor.nonblock_fionbio]

/-- **Hooked sockets in the kernel.**  After every part of a sequence of calls
on a socket with an `FdCtx`, the kernel's `O_NONBLOCK` flag is set and
`getUserNonblock` is the mode asked for last -- exactly when none of the calls
is `ioctl(FIONBIO, 0)`. -/
theorem nonblocking_iff (m m' : FdManager) (fd : Nat) (ctx : FdCtx) (h : m.Hooked fd ctx)
    (ops : List Op) (os : List (BitVec 32)) (hrun : Machine.run step m ops = some (os, m')) :
    (∀ pre os' u, pre <+: ops → Machine.run step m pre = some (os', u) →
      u.kernelNonblock fd = true ∧
        u.getUserNonblock fd = lastAsked fd ctx.userNonblock pre) ↔
      ∀ value, .fionbio fd value ∈ ops → value ≠ 0#32 := by
  constructor
  · rintro hall value hmem rfl
    obtain ⟨before, after, rfl⟩ := List.append_of_mem hmem
    obtain ⟨os₁, t, os₂, hbefore, hafter, -⟩ := Machine.run_append_some.mp hrun
    obtain ⟨o, u, -, hcall, -, -⟩ := Machine.run_cons_some.mp hafter
    have hpre : Machine.run step m (before ++ [.fionbio fd 0#32]) = some (os₁ ++ [o], u) :=
      Machine.run_append_some.mpr
        ⟨os₁, t, [o], hbefore, Machine.run_cons_some.mpr ⟨o, u, [], hcall, rfl, rfl⟩, rfl⟩
    have hset := (hall _ _ u (by simp) hpre).1
    rw [kernelNonblock_fionbio_zero hcall] at hset
    exact Bool.false_ne_true hset
  · intro hops pre os' u hpre hrun'
    exact (run_hooked h (fun value hop => hops value (hpre.subset hop)) hrun').modes

/-- Descriptor 3 is a socket. -/
def oneSocket : FdManager :=
  FdManager.get ⟨fun _ => none, fun fd => if fd = 3 then some ⟨true, 2#32⟩ else none⟩ 3

theorem hooked_oneSocket : oneSocket.Hooked 3 ⟨true, true, true, false, false, -1, -1⟩ :=
  hooked_get rfl rfl rfl

theorem nonblocking_oneSocket :
    ∃ os m', Machine.run step oneSocket [.setfl 3 0#32, .fionbio 3 1#32, .getfl 3] =
        some (os, m') ∧
      ∀ pre os' u, pre <+: [.setfl 3 0#32, .fionbio 3 1#32, .getfl 3] →
        Machine.run step oneSocket pre = some (os', u) →
          u.kernelNonblock 3 = true ∧ u.getUserNonblock 3 = lastAsked 3 false pre := by
  have hrun : (Machine.run step oneSocket
      [.setfl 3 0#32, .fionbio 3 1#32, .getfl 3]).isSome := by decide
  obtain ⟨⟨os, m'⟩, hm'⟩ := Option.isSome_iff_exists.mp hrun
  exact ⟨os, m', hm', (nonblocking_iff oneSocket m' 3 _ hooked_oneSocket _ os hm').mpr (by simp)⟩

/-- After `ioctl(3, FIONBIO, 0)` the socket is blocking in the kernel. -/
theorem not_nonblocking_fionbio_zero :
    ¬ ∀ ops os m', Machine.run step oneSocket ops = some (os, m') →
      m'.kernelNonblock 3 = true := by
  intro h
  have hblocking : (Machine.run step oneSocket [.fionbio 3 0#32]).any
      (fun r => r.2.kernelNonblock 3) = false := by decide
  have hrun : (Machine.run step oneSocket [.fionbio 3 0#32]).isSome := by decide
  obtain ⟨⟨os, m'⟩, hm'⟩ := Option.isSome_iff_exists.mp hrun
  rw [hm', Option.any_some, h _ os m' hm'] at hblocking
  cases hblocking

end FdManager

end Mingo
