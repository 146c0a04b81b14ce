import Mathlib.Algebra.Group.Int.Defs
import Mathlib.Algebra.Group.Nat.Defs
import Mingo.Hook.Descriptor

/-!
# One `FdCtx` for each descriptor

`FdManager::get` looks for the `FdCtx` under the read lock and makes a missing
one under the write lock.  In between the lock is free, and the second section
does not look again: two threads that both find nothing make an `FdCtx` each,
and the second one replaces the first.

A step is one of these sections, `del`, or a setting through a context; they are
taken by any threads in any order.  A context is its place in the list of those
made so far.

* `Moved`, `step_moved` -- what one section does;
* `step_stored` -- a context stays until `del`, if every section that makes one
  finds none and does not shrink the array;
* `one_context` -- runs of any number of threads;
* `get_alone` -- the two sections in a row are `FdManager.get`.
-/

namespace Mingo

/-- What the hooks store in a context: `setUserNonblock(v)`, or `setTimeout(type, v)` with
`rcv` when the type is `SO_RCVTIMEO`. -/
inductive Setting
  | userNonblock (v : Bool)
  | timeout (rcv : Bool) (v : UInt64)
  deriving DecidableEq, Repr

namespace Setting

def apply (ctx : FdCtx) : Setting → FdCtx
  | .userNonblock v => { ctx with userNonblock := v }
  | .timeout true v => { ctx with recvTimeout := v }
  | .timeout false v => { ctx with sendTimeout := v }

/-- `getUserNonblock` or `getTimeout` returns the value of the setting. -/
def Holds (ctx : FdCtx) : Setting → Prop
  | .userNonblock v => ctx.userNonblock = v
  | .timeout true v => ctx.recvTimeout = v
  | .timeout false v => ctx.sendTimeout = v

/-- Two settings of the same field. -/
def sameField : Setting → Setting → Bool
  | .userNonblock _, .userNonblock _ => true
  | .timeout rcv _, .timeout rcv' _ => rcv == rcv'
  | _, _ => false

theorem holds_apply (ctx : FdCtx) (x : Setting) : x.Holds (x.apply ctx) := by
  cases x with
  | userNonblock v => exact rfl
  | timeout rcv v => cases rcv <;> exact rfl

/-- A setting of another field keeps the value. -/
theorem Holds.apply {ctx : FdCtx} {x y : Setting} (h : x.Holds ctx)
    (hfield : y.sameField x = false) : x.Holds (y.apply ctx) := by
  cases x with
  | userNonblock v =>
      cases y with
      | userNonblock v' => cases hfield
      | timeout rcv v' => cases rcv <;> exact h
  | timeout rcv v =>
      cases y with
      | userNonblock v' => cases rcv <;> exact h
      | timeout rcv' v' =>
          cases rcv <;> cases rcv' <;> first | exact h | cases hfield

end Setting

/-- `(int)size`. -/
def intSize (size : Nat) : Int := (BitVec.ofNat 32 size).toInt

/-- `vector::resize(n)`: new elements are null pointers. -/
def resize (datas : List (Option Nat)) (n : Nat) : List (Option Nat) :=
  datas.take n ++ List.replicate (n - datas.length) none

/-- `m_datas`, the contexts made so far, the threads between the two sections of `get`, and
the kernel's descriptors. -/
structure FdContexts where
  datas : List (Option Nat)
  contexts : List FdCtx
  creating : Nat → Option Int32
  kernel : Nat → Option Descriptor

namespace FdContexts

/-- The constructor of `FdManager`. -/
def new (kernel : Nat → Option Descriptor) : FdContexts where
  datas := List.replicate 64 none
  contexts := []
  creating := fun _ => none
  kernel := kernel

/-- A descriptor as an index. -/
def slot (fd : Int32) : Nat := fd.toInt.toNat

/-- `m_datas[fd]`; undefined outside the array. -/
def at? (m : FdContexts) (fd : Int32) : Option (Option Nat) :=
  if fd.toInt < 0 then none else m.datas[slot fd]?

/-- The context of a descriptor. -/
def stored (m : FdContexts) (fd : Int32) : Option Nat := (m.at? fd).join

inductive Op
  /-- `get(fd, auto_create)` up to `lock.unlock()` -/
  | get (thread : Nat) (fd : Int32) (autoCreate : Bool)
  /-- the rest of `get`, under the write lock -/
  | create (thread : Nat)
  | del (fd : Int32)
  | set (ctx : Nat) (x : Setting)
  /-- a descriptor is opened, closed or changed -/
  | kernel (fd : Nat) (d : Option Descriptor)

/-- What a section says; `got` when its `get` returns. -/
inductive Out
  | got (fd : Int32) (ctx : Option Nat)
  | missing
  | deleted (fd : Int32)
  | set (ctx : Nat) (x : Setting)
  | done
  deriving DecidableEq

def setCreating (m : FdContexts) (thread : Nat) (fd : Option Int32) : FdContexts :=
  { m with creating := Function.update m.creating thread fd }

/-- The section of `get` under the read lock. -/
def find (m : FdContexts) (thread : Nat) (fd : Int32) (autoCreate : Bool) :
    Option (Out × FdContexts) :=
  if fd = -1 then some (.got fd none, m)
  else if intSize m.datas.length ≤ fd.toInt then
    if autoCreate = false then some (.got fd none, m)
    else some (.missing, m.setCreating thread (some fd))
  else
    (m.at? fd).map fun p =>
      if p.isSome || !autoCreate then (.got fd p, m)
      else (.missing, m.setCreating thread (some fd))

/-- `m_datas` with a place for the descriptor. -/
def grown (m : FdContexts) (fd : Int32) : List (Option Nat) :=
  if intSize m.datas.length ≤ fd.toInt then resize m.datas (slot fd * 3 / 2) else m.datas

/-- The section of `get` under the write lock. -/
def create (m : FdContexts) (fd : Int32) : Option (Out × FdContexts) :=
  let made := FdCtx.init (m.kernel (slot fd))
  if 0 ≤ fd.toInt ∧ slot fd < (m.grown fd).length then
    some (.got fd (some m.contexts.length),
      { m with
        datas := (m.grown fd).set (slot fd) (some m.contexts.length)
        contexts := m.contexts ++ [made.1]
        kernel := Function.update m.kernel (slot fd) made.2 })
  else none

def del (m : FdContexts) (fd : Int32) : Option (Out × FdContexts) :=
  if intSize m.datas.length ≤ fd.toInt then some (.deleted fd, m)
  else (m.at? fd).map fun _ => (.deleted fd, { m with datas := m.datas.set (slot fd) none })

/-- One section of one thread. -/
def step : Machine.Step FdContexts Op Out
  | m, .get thread fd autoCreate =>
      if (m.creating thread).isSome then none else m.find thread fd autoCreate
  | m, .create thread => do
      let fd ← m.creating thread
      let r ← m.create fd
      return (r.1, r.2.setCreating thread none)
  | m, .del fd => m.del fd
  | m, .set p x =>
      (m.contexts[p]?).map fun ctx =>
        (.set p x, { m with contexts := m.contexts.set p (x.apply ctx) })
  | m, .kernel fd d => some (.done, { m with kernel := Function.update m.kernel fd d })

/-- A section that makes a context finds none, and does not shrink the array. -/
def CreatesOnce (m : FdContexts) : Op → Prop
  | .create thread => ∀ fd ∈ m.creating thread, m.stored fd = none ∧
      (intSize m.datas.length ≤ fd.toInt → m.datas.length ≤ slot fd * 3 / 2)
  | _ => True

instance (m : FdContexts) : DecidablePred m.CreatesOnce
  -- named, so that no enumeration of the descriptors decides it
  | .create thread => Option.decidableForallMem (m.creating thread)
  | .get _ _ _ | .del _ | .set _ _ | .kernel _ _ => isTrue trivial

/-- Between two calls of `del`, all calls of `get` return one context, the one that is
stored, and the settings made through it stay. -/
structure OneContext (outs : List Out) (m : FdContexts) : Prop where
  same : ∀ (fd : Int32) (p q : Nat) (before between after : List Out),
    outs = before ++ .got fd (some p) :: (between ++ .got fd (some q) :: after) →
      Out.deleted fd ∉ between → p = q
  stored : ∀ (fd : Int32) (p : Nat) (before after : List Out),
    outs = before ++ .got fd (some p) :: after → Out.deleted fd ∉ after → m.stored fd = some p
  kept : ∀ (fd : Int32) (p : Nat) (x : Setting) (before between after : List Out),
    outs = before ++ .got fd (some p) :: (between ++ .set p x :: after) →
      Out.deleted fd ∉ between → Out.deleted fd ∉ after →
        (∀ y, Out.set p y ∈ after → y.sameField x = false) →
          ∃ ctx, m.stored fd = some p ∧ m.contexts[p]? = some ctx ∧ x.Holds ctx

/-- What a section does. -/
inductive Moved (m : FdContexts) : Op → Out → FdContexts → Prop
  /-- no context is made, changed or taken away -/
  | look {op : Op} {o : Out} (creating : Nat → Option Int32) (kernel : Nat → Option Descriptor)
      (hop : ∀ thread, op ≠ .create thread)
      (hgot : ∀ fd p, o = .got fd (some p) → m.stored fd = some p) (hset : ∀ p x, o ≠ .set p x) :
      Moved m op o { m with creating := creating, kernel := kernel }
  | create {thread : Nat} {fd : Int32} (creating : Nat → Option Int32)
      (kernel : Nat → Option Descriptor) (hcreating : m.creating thread = some fd)
      (hfd : 0 ≤ fd.toInt) (hroom : slot fd < (m.grown fd).length) (ctx : FdCtx) :
      Moved m (.create thread) (.got fd (some m.contexts.length))
        ⟨(m.grown fd).set (slot fd) (some m.contexts.length), m.contexts ++ [ctx], creating,
          kernel⟩
  | del {fd : Int32} (hfd : 0 ≤ fd.toInt) :
      Moved m (.del fd) (.deleted fd) { m with datas := m.datas.set (slot fd) none }
  | set {p : Nat} {x : Setting} {ctx : FdCtx} (hctx : m.contexts[p]? = some ctx) :
      Moved m (.set p x) (.set p x) { m with contexts := m.contexts.set p (x.apply ctx) }

variable {m m' : FdContexts} {fd fd' : Int32} {thread p : Nat} {op : Op} {o : Out}

theorem nonneg_of_at? {r : Option Nat} (h : m.at? fd = some r) : 0 ≤ fd.toInt := by
  by_contra hneg
  rw [at?, if_pos (by omega)] at h
  cases h

theorem find_moved {autoCreate : Bool} (hfind : m.find thread fd autoCreate = some (o, m')) :
    Moved m (.get thread fd autoCreate) o m' := by
  have hnone : ∀ {fd' q}, Out.got fd none = .got fd' (some q) → m.stored fd' = some q := by
    intro fd' q heq
    cases heq
  unfold find at hfind
  split at hfind
  · cases hfind
    exact .look m.creating m.kernel nofun (fun _ _ => hnone) nofun
  · split at hfind
    · split at hfind
      · cases hfind
        exact .look m.creating m.kernel nofun (fun _ _ => hnone) nofun
      · cases hfind
        exact .look _ m.kernel nofun nofun nofun
    · obtain ⟨r, hat, heq⟩ := Option.map_eq_some_iff.mp hfind
      split at heq
      · cases heq
        refine .look m.creating m.kernel nofun ?_ nofun
        rintro fd' q heq
        cases heq
        rw [stored, hat]
        rfl
      · cases heq
        exact .look _ m.kernel nofun nofun nofun

/-- **One section.** -/
theorem step_moved (hstep : step m op = some (o, m')) : Moved m op o m' := by
  cases op with
  | get thread fd autoCreate =>
      simp only [step] at hstep
      split at hstep
      · cases hstep
      · exact find_moved hstep
  | create thread =>
      simp only [step, Option.bind_eq_bind, Option.bind_eq_some_iff] at hstep
      obtain ⟨fd, hcreating, ⟨o₁, m₁⟩, hcreate, heq⟩ := hstep
      simp only [create] at hcreate
      split at hcreate
      · next hroom =>
          cases hcreate
          cases heq
          exact .create _ _ hcreating hroom.1 hroom.2 _
      · cases hcreate
  | del fd =>
      simp only [step, del] at hstep
      split at hstep
      · cases hstep
        exact .look m.creating m.kernel nofun nofun nofun
      · obtain ⟨r, hat, heq⟩ := Option.map_eq_some_iff.mp hstep
        cases heq
        exact .del (nonneg_of_at? hat)
  | set p x =>
      obtain ⟨ctx, hctx, heq⟩ := Option.map_eq_some_iff.mp hstep
      cases heq
      exact .set hctx
  | kernel fd d =>
      cases hstep
      exact .look m.creating _ nofun nofun nofun

/-! ### The array -/

theorem slot_ne (h : 0 ≤ fd.toInt) (h' : 0 ≤ fd'.toInt) (hne : fd ≠ fd') : slot fd ≠ slot fd' := by
  intro hslot
  have hint : fd.toInt = fd'.toInt := by
    unfold slot at hslot
    omega
  exact hne (Int32.toInt_inj.mp hint)

theorem stored_eq_some :
    m.stored fd = some p ↔ 0 ≤ fd.toInt ∧ m.datas[slot fd]? = some (some p) := by
  unfold stored at?
  by_cases hneg : fd.toInt < 0
  · rw [if_pos hneg]
    exact ⟨nofun, fun h => absurd h.1 (by omega)⟩
  · rw [if_neg hneg, Option.join_eq_some_iff]
    exact ⟨fun h => ⟨by omega, h⟩, And.right⟩

theorem getElem?_grown (h : m.datas[slot fd]? = some (some p))
    (hgrows : intSize m.datas.length ≤ fd'.toInt → m.datas.length ≤ slot fd' * 3 / 2) :
    (m.grown fd')[slot fd]? = some (some p) := by
  obtain ⟨hlt, -⟩ := List.getElem?_eq_some_iff.mp h
  unfold grown
  split
  · next hsize =>
      rw [resize, List.take_of_length_le (hgrows hsize), List.getElem?_append_left hlt, h]
  · exact h

/-- The context that `get` returns is the one that is stored. -/
theorem step_got (hstep : step m op = some (.got fd (some p), m')) : m'.stored fd = some p := by
  generalize hout : Out.got fd (some p) = o at hstep
  cases step_moved hstep with
  | look creating kernel hop hgot hset => exact hgot fd p hout.symm
  | create creating kernel hcreating hfd hroom ctx =>
      cases hout
      exact stored_eq_some.mpr ⟨hfd, List.getElem?_set_self hroom⟩
  | del hfd => cases hout
  | set hctx => cases hout

/-- **A context stays** until it is taken away. -/
theorem step_stored (h : m.stored fd = some p) (honce : m.CreatesOnce op)
    (hstep : step m op = some (o, m')) (hdel : o ≠ .deleted fd) : m'.stored fd = some p := by
  obtain ⟨hfd, hdata⟩ := stored_eq_some.mp h
  cases step_moved hstep with
  | look creating kernel hop hgot hset => exact h
  | @create thread fd' creating kernel hcreating hfd' hroom ctx =>
      obtain ⟨hnone, hgrows⟩ := honce fd' hcreating
      have hne : fd' ≠ fd := by
        rintro rfl
        rw [h] at hnone
        cases hnone
      refine stored_eq_some.mpr ⟨hfd, ?_⟩
      rw [List.getElem?_set_ne (slot_ne hfd' hfd hne)]
      exact getElem?_grown hdata hgrows
  | @del fd' hfd' =>
      have hne : fd' ≠ fd := by
        rintro rfl
        exact hdel rfl
      refine stored_eq_some.mpr ⟨hfd, ?_⟩
      rw [List.getElem?_set_ne (slot_ne hfd' hfd hne)]
      exact hdata
  | set hctx => exact h

/-- A setting stays until the next one of the same field. -/
theorem step_holds {x : Setting} (h : ∃ ctx, m.contexts[p]? = some ctx ∧ x.Holds ctx)
    (hstep : step m op = some (o, m')) (hfield : ¬ ∃ y, o = .set p y ∧ y.sameField x = true) :
    ∃ ctx, m'.contexts[p]? = some ctx ∧ x.Holds ctx := by
  obtain ⟨ctx, hctx, hholds⟩ := h
  cases step_moved hstep with
  | look creating kernel hop hgot hset => exact ⟨ctx, hctx, hholds⟩
  | create creating kernel hcreating hfd hroom made =>
      have hlt := (List.getElem?_eq_some_iff.mp hctx).1
      exact ⟨ctx, (List.getElem?_append_left hlt).trans hctx, hholds⟩
  | del hfd => exact ⟨ctx, hctx, hholds⟩
  | @set q y ctx' hctx' =>
      by_cases hq : q = p
      · subst hq
        have hlt := (List.getElem?_eq_some_iff.mp hctx).1
        rw [hctx] at hctx'
        cases hctx'
        refine ⟨y.apply ctx, List.getElem?_set_self hlt, hholds.apply ?_⟩
        exact Bool.eq_false_iff.mpr fun hsame => hfield ⟨y, rfl, hsame⟩
      · exact ⟨ctx, (List.getElem?_set_ne hq).trans hctx, hholds⟩

/-- The value of a setting is there after it is made. -/
theorem step_set {x : Setting} (hstep : step m op = some (.set p x, m')) :
    ∃ ctx, m'.contexts[p]? = some ctx ∧ x.Holds ctx := by
  generalize hout : Out.set p x = o at hstep
  cases step_moved hstep with
  | look creating kernel hop hgot hset => exact absurd hout.symm (hset p x)
  | create creating kernel hcreating hfd hroom ctx => cases hout
  | del hfd => cases hout
  | @set q y ctx hctx =>
      cases hout
      have hlt := (List.getElem?_eq_some_iff.mp hctx).1
      exact ⟨x.apply ctx, List.getElem?_set_self hlt, x.holds_apply ctx⟩

/-! ### One thread alone -/

/-- The contexts behind the descriptors. -/
def view (m : FdContexts) : FdManager where
  datas := fun fd => (m.datas[fd]?).join.bind (m.contexts[·]?)
  kernel := m.kernel

/-- The pointers of the array point to contexts, and no element has been dropped. -/
structure Sound (m : FdContexts) : Prop where
  size : 64 ≤ m.datas.length
  made : ∀ i p : Nat, m.datas[i]? = some (some p) → p < m.contexts.length

theorem intSize_of_lt {n : Nat} (h : n < 2 ^ 31) : intSize n = n := by
  rw [intSize, BitVec.toInt_eq_toNat_of_lt]
  · rw [BitVec.toNat_ofNat, Nat.mod_eq_of_lt (by omega)]
  · rw [BitVec.toNat_ofNat]
    omega

theorem join_getElem?_grown
    (hgrows : intSize m.datas.length ≤ fd.toInt → m.datas.length ≤ slot fd * 3 / 2) (i : Nat) :
    ((m.grown fd)[i]?).join = (m.datas[i]?).join := by
  unfold grown
  split
  · next hsize =>
      rw [resize, List.take_of_length_le (hgrows hsize)]
      by_cases hlt : i < m.datas.length
      · rw [List.getElem?_append_left hlt]
      · rw [List.getElem?_append_right (by omega), List.getElem?_replicate,
          List.getElem?_eq_none (by omega)]
        split
        · rfl
        · rfl
  · rfl

theorem length_le_grown
    (hgrows : intSize m.datas.length ≤ fd.toInt → m.datas.length ≤ slot fd * 3 / 2) :
    m.datas.length ≤ (m.grown fd).length := by
  unfold grown
  split
  · simp only [resize, List.length_append, List.length_take, List.length_replicate]
    omega
  · exact Nat.le_refl _

theorem step_sound (h : m.Sound) (honce : m.CreatesOnce op) (hstep : step m op = some (o, m')) :
    m'.Sound := by
  cases step_moved hstep with
  | look creating kernel hop hgot hset => exact ⟨h.size, h.made⟩
  | @create thread fd creating kernel hcreating hfd hroom ctx =>
      have hgrows := (honce fd hcreating).2
      refine ⟨?_, ?_⟩
      · rw [List.length_set]
        exact Nat.le_trans h.size (length_le_grown hgrows)
      · intro i p hp
        rw [List.length_append, List.length_singleton]
        by_cases hi : slot fd = i
        · subst hi
          rw [List.getElem?_set_self hroom] at hp
          cases hp
          exact Nat.lt_succ_self _
        · rw [List.getElem?_set_ne hi] at hp
          have hold := join_getElem?_grown hgrows i
          rw [hp] at hold
          have hmade := h.made i p (Option.join_eq_some_iff.mp hold.symm)
          omega
  | @del fd hfd =>
      refine ⟨by rw [List.length_set]; exact h.size, fun i p hp => ?_⟩
      rw [List.getElem?_set] at hp
      split at hp
      · split at hp
        · cases hp
        · cases hp
      · exact h.made i p hp
  | set hctx =>
      refine ⟨h.size, fun i p hp => ?_⟩
      rw [List.length_set]
      exact h.made i p hp

theorem new_sound (kernel : Nat → Option Descriptor) : (new kernel).Sound := by
  refine ⟨by simp [new], fun i p hp => ?_⟩
  simp only [new, List.getElem?_replicate] at hp
  split at hp
  · cases hp
  · cases hp

theorem run_sound (kernel : Nat → Option Descriptor) {ops : List Op} {outs : List Out}
    (honce : Machine.Meets step CreatesOnce (new kernel) ops)
    (hrun : Machine.run step (new kernel) ops = some (outs, m)) : m.Sound := by
  have hstep : ∀ (m : FdContexts) op o m', m.Sound → m.CreatesOnce op →
      step m op = some (o, m') → m'.Sound ∧ True :=
    fun m op o m' h hok hcall => ⟨step_sound h hok hcall, trivial⟩
  exact (Machine.run_invariant_of_meets hstep (new_sound kernel) honce hrun).1

/-- What the second section makes is what `FdManager.get` makes. -/
theorem view_create (h : m.Sound) (hfd : 0 ≤ fd.toInt) (hnone : m.stored fd = none)
    (hgrows : intSize m.datas.length ≤ fd.toInt → m.datas.length ≤ slot fd * 3 / 2)
    (hroom : slot fd < (m.grown fd).length) :
    ∃ o m', m.create fd = some (o, m') ∧ m'.view = m.view.get (slot fd) := by
  refine ⟨_, _, if_pos ⟨hfd, hroom⟩, ?_⟩
  have hempty : m.view.datas (slot fd) = none := by
    have hjoin : (m.datas[slot fd]?).join = none := by
      rwa [stored, at?, if_neg (by omega)] at hnone
    show (m.datas[slot fd]?).join.bind _ = none
    rw [hjoin]
    rfl
  unfold FdManager.get
  rw [hempty]
  have hdatas : ∀ i, ((((m.grown fd).set (slot fd) (some m.contexts.length))[i]?).join.bind
        fun p => (m.contexts ++ [(FdCtx.init (m.kernel (slot fd))).1])[p]?) =
      Function.update m.view.datas (slot fd) (some (FdCtx.init (m.kernel (slot fd))).1) i := by
    intro i
    by_cases hi : i = slot fd
    · subst hi
      rw [List.getElem?_set_self hroom, Function.update_self]
      exact List.getElem?_concat_length
    · rw [List.getElem?_set_ne (Ne.symm hi), Function.update_of_ne hi, join_getElem?_grown hgrows]
      show _ = (m.datas[i]?).join.bind _
      cases hp : (m.datas[i]?).join with
      | none => rfl
      | some p =>
          exact List.getElem?_append_left (h.made i p (Option.join_eq_some_iff.mp hp))
  exact congrArg (FdManager.mk · _) (funext hdatas)

/-- **A thread alone**: the two sections of `get` in a row, or the first if there is a
context, are the `get` of one thread. -/
theorem get_alone (h : m.Sound) (hsize : m.datas.length < 2 ^ 31) (hfd : 0 ≤ fd.toInt)
    (hidle : m.creating thread = none) :
    ∃ ops outs m', ops <+: [.get thread fd true, .create thread] ∧
      Machine.run step m ops = some (outs, m') ∧ m'.view = m.view.get (slot fd) := by
  have hint := intSize_of_lt hsize
  have hslot : (slot fd : Int) = fd.toInt := Int.toNat_of_nonneg hfd
  have hgrows : intSize m.datas.length ≤ fd.toInt → m.datas.length ≤ slot fd * 3 / 2 := by
    omega
  have hroom : slot fd < (m.grown fd).length := by
    have hlen := length_le_grown hgrows
    have hmin := h.size
    unfold grown at hlen ⊢
    split
    · simp only [resize, List.length_append, List.length_take, List.length_replicate]
      omega
    · omega
  have hfirst : step m (.get thread fd true) = m.find thread fd true :=
    if_neg (by simp [hidle])
  have hminus : fd ≠ -1 := by
    rintro rfl
    exact absurd hfd (by decide)
  cases hstored : m.stored fd with
  | some p =>
      obtain ⟨-, hdata⟩ := stored_eq_some.mp hstored
      have hlt := (List.getElem?_eq_some_iff.mp hdata).1
      have hat : m.at? fd = some (some p) := by rw [at?, if_neg (by omega), hdata]
      have hfind : m.find thread fd true = some (.got fd (some p), m) := by
        rw [find, if_neg hminus, if_neg (by omega), hat]
        rfl
      refine ⟨[.get thread fd true], [.got fd (some p)], m, ⟨_, rfl⟩, ?_, ?_⟩
      · exact Machine.run_cons_some.mpr ⟨_, m, [], hfirst.trans hfind, rfl, rfl⟩
      · obtain ⟨ctx, hctx⟩ : ∃ ctx, m.contexts[p]? = some ctx :=
          ⟨_, List.getElem?_eq_getElem (h.made _ p hdata)⟩
        have hview : m.view.datas (slot fd) = some ctx := by
          simp [view, hdata, hctx]
        rw [FdManager.get, hview]
  | none =>
      have hfind : m.find thread fd true = some (.missing, m.setCreating thread (some fd)) := by
        rw [find, if_neg hminus]
        split
        · rfl
        · next hin =>
            have hlt : slot fd < m.datas.length := by omega
            rw [stored, at?, if_neg (by omega), List.getElem?_eq_getElem hlt] at hstored
            rw [at?, if_neg (by omega), List.getElem?_eq_getElem hlt]
            have hnull : m.datas[slot fd] = none := hstored
            rw [hnull]
            rfl
      have hsound : (m.setCreating thread (some fd)).Sound := ⟨h.size, h.made⟩
      obtain ⟨o, m', hcreate, hview⟩ := view_create hsound hfd hstored hgrows hroom
      refine ⟨_, [.missing, o], m'.setCreating thread none, List.prefix_refl _, ?_, hview⟩
      refine Machine.run_cons_some.mpr ⟨_, _, [o], hfirst.trans hfind, ?_, rfl⟩
      refine Machine.run_cons_some.mpr ⟨o, _, [], ?_, rfl, rfl⟩
      have hcreating : (m.setCreating thread (some fd)).creating thread = some fd := by
        simp [setCreating]
      simp only [step, hcreating, hcreate, Option.bind_eq_bind, Option.bind_some]
      rfl

/-- **One context for each descriptor** in every run of any number of threads, as long as
no thread makes a context where there is one, or shrinks the array. -/
theorem one_context (kernel : Nat → Option Descriptor) {ops : List Op} {outs : List Out}
    (honce : Machine.Meets step CreatesOnce (new kernel) ops)
    (hrun : Machine.run step (new kernel) ops = some (outs, m)) : OneContext outs m := by
  have hstored : ∀ {ops : List Op} {m : FdContexts} {before after : List Out} {fd p},
      Machine.Meets step CreatesOnce (new kernel) ops →
        Machine.run step (new kernel) ops = some (before ++ .got fd (some p) :: after, m) →
          .deleted fd ∉ after → m.stored fd = some p := by
    intro ops m before after fd p honce hrun hdel
    refine Machine.run_since (fun m => m.stored fd = some p) (fun o => o = Out.deleted fd)
      ?_ ?_ honce hrun ?_
    · exact fun s a t _ hstep => step_got hstep
    · exact fun s a o t h hok hstep hend => step_stored h hok hstep hend
    · rintro o ho rfl
      exact hdel ho
  refine ⟨?_, ?_, ?_⟩
  · intro fd p q before between after houts hdel
    subst houts
    rw [← List.cons_append, ← List.append_assoc] at hrun
    obtain ⟨ops₁, op, ops₂, t, t', rfl, hbefore, hstep, -⟩ := Machine.run_split hrun
    obtain ⟨honce₁, honce₂⟩ := honce.append hbefore
    have hp := step_stored (hstored honce₁ hbefore hdel) honce₂.1 hstep nofun
    rw [step_got hstep] at hp
    exact (Option.some.inj hp).symm
  · intro fd p before after houts hdel
    subst houts
    exact hstored honce hrun hdel
  · intro fd p x before between after houts hbetween hafter hlast
    subst houts
    have hp : m.stored fd = some p := by
      refine hstored honce hrun ?_
      rw [List.mem_append, List.mem_cons]
      rintro (hdel | hdel | hdel)
      · exact hbetween hdel
      · cases hdel
      · exact hafter hdel
    rw [← List.cons_append, ← List.append_assoc] at hrun
    have hset : ∃ ctx, m.contexts[p]? = some ctx ∧ x.Holds ctx := by
      refine Machine.run_since (fun m => ∃ ctx, m.contexts[p]? = some ctx ∧ x.Holds ctx)
        (fun o => ∃ y, o = Out.set p y ∧ y.sameField x = true) ?_ ?_
        (Machine.meets_true _ ops) hrun ?_
      · exact fun s a t _ hstep => step_set hstep
      · exact fun s a o t h _ hstep hend => step_holds h hstep hend
      · rintro o ho ⟨y, rfl, hsame⟩
        rw [hlast y ho] at hsame
        cases hsame
    obtain ⟨ctx, hctx, hholds⟩ := hset
    exact ⟨ctx, hp, hctx, hholds⟩

/-- Two threads, a setting, and `del`. -/
theorem one_context_two_threads :
    let ops : List Op := [.get 0 5 true, .get 1 70 true, .create 0, .set 0 (.timeout true 300),
      .create 1, .get 1 5 true, .del 70, .get 0 5 false]
    ∃ outs m, Machine.run step (new fun _ => none) ops = some (outs, m) ∧ OneContext outs m ∧
      outs = [.missing, .missing, .got 5 (some 0), .set 0 (.timeout true 300), .got 70 (some 1),
        .got 5 (some 0), .deleted 70, .got 5 (some 0)] := by
  intro ops
  have honce : Machine.Meets step CreatesOnce (new fun _ => none) ops := by decide
  have hend : (Machine.run step (new fun _ => none) ops).map Prod.fst =
      some [.missing, .missing, .got 5 (some 0), .set 0 (.timeout true 300), .got 70 (some 1),
        .got 5 (some 0), .deleted 70, .got 5 (some 0)] := by decide
  obtain ⟨⟨outs, m⟩, hrun, houts⟩ := Option.map_eq_some_iff.mp hend
  exact ⟨outs, m, hrun, one_context _ honce hrun, houts⟩

/-- Two threads find nothing for the descriptor 5.  Each makes a context, and the mode that
is stored through the first one is not in the second one. -/
theorem not_one_context :
    let ops : List Op := [.get 0 5 true, .get 1 5 true, .create 0, .set 0 (.userNonblock true),
      .create 1]
    ∃ outs m, Machine.run step (new fun _ => none) ops = some (outs, m) ∧
      .got 5 (some 0) ∈ outs ∧ .got 5 (some 1) ∈ outs ∧ (∀ fd, .deleted fd ∉ outs) ∧
      m.stored 5 = some 1 ∧ (m.contexts[1]?).map FdCtx.userNonblock = some false ∧
      ¬ OneContext outs m := by
  intro ops
  have hend : (Machine.run step (new fun _ => none) ops).any (fun r =>
      decide (r.1 = [.missing, .missing, .got 5 (some 0), .set 0 (.userNonblock true),
          .got 5 (some 1)] ∧ r.2.stored 5 = some 1 ∧
        (r.2.contexts[1]?).map FdCtx.userNonblock = some false)) = true := by
    decide
  obtain ⟨⟨outs, m⟩, hrun, hcond⟩ := (Option.any_eq_true _ _).mp hend
  obtain ⟨houts, hstored, hmode⟩ := of_decide_eq_true hcond
  dsimp only at houts
  subst houts
  refine ⟨_, m, hrun, by simp, by simp, by simp, hstored, hmode, fun h => ?_⟩
  have hsame := h.same 5 0 1 [.missing, .missing] [.set 0 (.userNonblock true)] [] rfl (by simp)
  cases hsame

end FdContexts

end Mingo
