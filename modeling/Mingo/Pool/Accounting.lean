import Mathlib.Data.BitVec
import Mathlib.Data.List.Perm.Lattice
import Mathlib.Algebra.BigOperators.Group.List.Basic
import Mingo.Lib.Ownership
import Mingo.Pool.Basic

/-!
# Every connection has one owner, and the pool counts them

A live connection is in `m_conns`, handed out, or held by a call under way, and
in one of these places only.  The counter `m_total` lags behind by what the
calls under way still have to add to it (`due`).

* `Accounted` and `Accounted.step` -- the invariant and one step;
* `accounting` -- the same for every run, with `m_total` as the signed number
  it is.
-/

namespace Mingo

namespace Call

/-- The connections that a call has taken or made and not passed on. -/
def owned : Call → List Nat
  | .entered _ => []
  | .popped ptr invalid _ => ptr.toList ++ invalid
  | .connecting => []
  | .created a => [a]
  | .deleted => []
  | .pooling a => [a]

/-- What a call still has to add to `m_total`. -/
def due : Call → Int
  | .entered _ => 0
  | .popped _ _ n => -n
  | .connecting => 0
  | .created _ => 1
  | .deleted => -1
  | .pooling _ => 0

end Call

namespace HttpConnectionPool

/-- The connections of the pool, of the holders and of the calls. -/
def all (p : HttpConnectionPool) : List Nat :=
  p.conns ++ (p.held ++ p.calls.flatMap Call.owned)

/-- What the calls under way still have to add to `m_total`. -/
def due (p : HttpConnectionPool) : Int := (p.calls.map Call.due).sum

/-- The connection at an address has not reached the request limit. -/
def BelowLimit (p : HttpConnectionPool) (a : Nat) : Prop :=
  ∀ c, p.heap a = some c → c.request < p.maxRequest.toUInt64

/-- A connection is in the pool or on its way back. -/
def Pooled (p : HttpConnectionPool) (a : Nat) : Prop := a ∈ p.conns ∨ .pooling a ∈ p.calls

/-- The accounting invariant. -/
structure Accounted (p : HttpConnectionPool) : Prop where
  owns : Owns p.heap p.all
  total : p.total = BitVec.ofInt 32 (p.all.length - p.due)
  limit : ∀ a, p.Pooled a → p.BelowLimit a

theorem Accounted.new (maxAliveTime maxRequest : UInt32) (now : UInt64) :
    (new maxAliveTime maxRequest now).Accounted where
  owns := ⟨by simp [all, HttpConnectionPool.new], by simp [all, HttpConnectionPool.new]⟩
  total := by simp [all, due, HttpConnectionPool.new]
  limit := by simp [Pooled, HttpConnectionPool.new]

variable {p q : HttpConnectionPool} {c : Call} {connected : Nat → Bool} {made : Option Nat}

/-- The order of the calls under way does not matter. -/
theorem Accounted.perm {cs : List Call} (h : p.Accounted) (hperm : p.calls.Perm cs) :
    { p with calls := cs }.Accounted where
  owns := h.owns.perm (((hperm.flatMap_right _).append_left _).append_left _)
  total := by
    have hall : p.all.length = { p with calls := cs }.all.length :=
      (((hperm.flatMap_right _).append_left _).append_left _).length_eq
    have hdue : p.due = { p with calls := cs }.due := (hperm.map _).sum_eq
    rw [← hall, ← hdue]
    exact h.total
  limit a ha := h.limit a (ha.imp_right hperm.mem_iff.mpr)

theorem Pooled.mem_all {a : Nat} (ha : p.Pooled a) : a ∈ p.all := by
  rcases ha with ha | ha
  · exact List.mem_append_left _ ha
  · exact List.mem_append_right _ (List.mem_append_right _
      (List.mem_flatMap.mpr ⟨.pooling a, ha, List.mem_singleton_self a⟩))

/-- `m_total` follows the number of live connections. -/
theorem Accounted.counts {d : Int} (h : p.Accounted)
    (htotal : q.total = p.total + BitVec.ofInt 32 d)
    (hd : d = (q.all.length - q.due) - (p.all.length - p.due)) :
    q.total = BitVec.ofInt 32 (q.all.length - q.due) := by
  rw [htotal, h.total, ← BitVec.ofInt_add, hd]
  congr 1
  omega

/-- Connections change hands. -/
theorem Accounted.move (h : p.Accounted) (hheap : q.heap = p.heap)
    (hmax : q.maxRequest = p.maxRequest) (hall : p.all.Perm q.all)
    (htotal : q.total = p.total + BitVec.ofInt 32 (p.due - q.due))
    (hlimit : ∀ a, q.Pooled a → p.Pooled a) : q.Accounted := by
  refine ⟨?_, h.counts htotal ?_, fun a ha c hc => ?_⟩
  · rw [hheap]
    exact h.owns.perm hall
  · rw [hall.length_eq]
    omega
  · rw [hmax]
    exact h.limit a (hlimit a ha) c (hheap ▸ hc)

/-- A connection is deleted by its owner. -/
theorem Accounted.free {a : Nat} (h : p.Accounted) (hheap : q.heap = Function.update p.heap a none)
    (hmax : q.maxRequest = p.maxRequest) (hall : p.all.Perm (a :: q.all))
    (htotal : q.total = p.total) (hdue : q.due = p.due - 1)
    (hlimit : ∀ b, q.Pooled b → p.Pooled b) : q.Accounted := by
  have htotal' : q.total = p.total + BitVec.ofInt 32 0 := by simp [htotal]
  refine ⟨?_, h.counts htotal' ?_, fun b hb c hc => ?_⟩
  · rw [hheap]
    exact (h.owns.perm hall).free
  · rw [hall.length_eq, hdue]
    simp only [List.length_cons]
    omega
  · rw [hheap] at hc
    rw [hmax]
    by_cases hba : b = a
    · subst hba
      simp at hc
    · exact h.limit b (hlimit b hb) c (by simpa [hba] using hc)

/-- A connection is constructed at a free address. -/
theorem Accounted.alloc {a : Nat} {conn : HttpConnection} (h : p.Accounted) (ha : p.heap a = none)
    (hheap : q.heap = Function.update p.heap a (some conn)) (hmax : q.maxRequest = p.maxRequest)
    (hall : (a :: p.all).Perm q.all) (htotal : q.total = p.total) (hdue : q.due = p.due + 1)
    (hlimit : ∀ b, q.Pooled b → p.Pooled b) : q.Accounted := by
  have htotal' : q.total = p.total + BitVec.ofInt 32 0 := by simp [htotal]
  refine ⟨?_, h.counts htotal' ?_, fun b hb c hc => ?_⟩
  · rw [hheap]
    exact (h.owns.alloc ha conn).perm hall
  · rw [← hall.length_eq, hdue]
    simp only [List.length_cons]
    omega
  · have hba : b ≠ a := by
      rintro rfl
      have hlive := (h.owns.live b).mpr (hlimit b hb).mem_all
      simp [ha] at hlive
    rw [hheap, Function.update_of_ne hba] at hc
    rw [hmax]
    exact h.limit b (hlimit b hb) c hc

/-- A connection whose holder drops it below the request limit is on its way
back to the pool. -/
theorem Accounted.drop {a : Nat} {conn : HttpConnection} (h : p.Accounted) (ha : a ∈ p.held)
    (hheap : q.heap = Function.update p.heap a (some conn)) (hmax : q.maxRequest = p.maxRequest)
    (hall : p.all.Perm q.all) (htotal : q.total = p.total) (hdue : q.due = p.due)
    (hconn : conn.request < p.maxRequest.toUInt64)
    (hlimit : ∀ b, q.Pooled b → b = a ∨ p.Pooled b) : q.Accounted := by
  have hmem : a ∈ p.all := List.mem_append_right _ (List.mem_append_left _ ha)
  have htotal' : q.total = p.total + BitVec.ofInt 32 0 := by simp [htotal]
  refine ⟨?_, h.counts htotal' ?_, fun b hb c hc => ?_⟩
  · rw [hheap]
    exact (h.owns.write hmem conn).perm hall
  · rw [hall.length_eq, hdue]
    omega
  · rw [hheap] at hc
    rw [hmax]
    by_cases hba : b = a
    · subst hba
      simp only [Function.update_self, Option.some.injEq] at hc
      rw [← hc]
      exact hconn
    · rw [Function.update_of_ne hba] at hc
      exact h.limit b ((hlimit b hb).resolve_left hba) c hc

/-- What the loop takes from the pool and what it leaves there. -/
theorem popLoop_split {now : UInt64} :
    ∀ {l : List Nat} {ptr : Option Nat} {invalid rest : List Nat},
      p.popLoop now connected l = some (ptr, invalid, rest) →
        l = invalid ++ (ptr.toList ++ rest) := by
  intro l
  induction l with
  | nil =>
      intro ptr invalid rest h
      cases h
      rfl
  | cons a l ih =>
      intro ptr invalid rest h
      cases hconn : p.heap a with
      | none => simp [popLoop, hconn] at h
      | some conn =>
          simp only [popLoop, hconn] at h
          split at h
          · obtain ⟨⟨ptr', invalid', rest'⟩, htail, heq⟩ := Option.map_eq_some_iff.mp h
            cases heq
            rw [ih htail]
            rfl
          · cases h
            rfl

theorem all_perm_iff {l : List Nat} :
    p.all.Perm l ↔
      ∀ b, p.conns.count b + (p.held.count b + (p.calls.flatMap Call.owned).count b) =
        l.count b := by
  simp only [all, List.perm_iff_count, List.count_append]

theorem Accounted.entered {now : UInt64} {es : List PoolEvent}
    (h : { p with calls := .entered now :: p.calls }.Accounted)
    (hstep : p.resume connected made (.entered now) = some (es, q)) : q.Accounted := by
  cases hpop : p.popLoop now connected p.conns with
  | none => simp [HttpConnectionPool.resume, hpop] at hstep
  | some r =>
      obtain ⟨ptr, invalid, rest⟩ := r
      have hsplit := popLoop_split hpop
      simp only [HttpConnectionPool.resume, hpop, Option.some.injEq, Prod.mk.injEq] at hstep
      obtain ⟨-, rfl⟩ := hstep
      refine h.move rfl rfl (all_perm_iff.mpr fun b => ?_) (by simp [due, Call.due])
        fun a ha => ?_
      · simp only [all, hsplit, List.count_append, List.flatMap_cons, Call.owned, List.nil_append]
        omega
      · refine ha.imp (fun hconns => ?_) (fun hcalls => by simpa using hcalls)
        rw [hsplit]
        exact List.mem_append_right _ (List.mem_append_right _ hconns)

theorem Accounted.popped {ptr : Option Nat} {invalid : List Nat} {n : Nat} {es : List PoolEvent}
    (h : { p with calls := .popped ptr invalid n :: p.calls }.Accounted)
    (hstep : p.resume connected made (.popped ptr invalid n) = some (es, q)) : q.Accounted := by
  have hsub : p.total - BitVec.ofNat 32 n = p.total + BitVec.ofInt 32 (-n) := by
    rw [BitVec.ofInt_neg, BitVec.ofInt_natCast]
    exact BitVec.sub_eq_add_neg _ _
  cases invalid with
  | cons a rest =>
      cases hconn : p.heap a with
      | none => simp [HttpConnectionPool.resume, hconn] at hstep
      | some conn =>
          simp only [HttpConnectionPool.resume, hconn, Option.some.injEq, Prod.mk.injEq] at hstep
          obtain ⟨-, rfl⟩ := hstep
          refine h.free rfl rfl (all_perm_iff.mpr fun b => ?_) rfl ?_
            fun b hb => by simpa [Pooled, store] using hb
          · simp only [all, store, List.count_append, List.count_cons, List.flatMap_cons,
              Call.owned]
            omega
          · simp only [due, List.map_cons, List.sum_cons, Call.due]
            omega
  | nil =>
      cases ptr with
      | some a =>
          simp only [HttpConnectionPool.resume, Option.some.injEq, Prod.mk.injEq] at hstep
          obtain ⟨-, rfl⟩ := hstep
          refine h.move rfl rfl (all_perm_iff.mpr fun b => ?_) ?_
            fun b hb => by simpa [Pooled] using hb
          · simp only [all, List.count_append, List.flatMap_cons, List.count_cons, Call.owned,
              Option.toList_some, List.append_nil, List.count_nil]
            omega
          · simp only [due, List.map_cons, List.sum_cons, Call.due, add_sub_cancel_right, hsub]
      | none =>
          simp only [HttpConnectionPool.resume, Option.some.injEq, Prod.mk.injEq] at hstep
          obtain ⟨-, rfl⟩ := hstep
          refine h.move rfl rfl (all_perm_iff.mpr fun b => by simp [all, Call.owned]) ?_
            fun b hb => by simpa [Pooled] using hb
          simp only [due, List.map_cons, List.sum_cons, Call.due, zero_add, add_sub_cancel_right,
            hsub]

theorem Accounted.connecting {es : List PoolEvent}
    (h : { p with calls := .connecting :: p.calls }.Accounted)
    (hstep : p.resume connected made .connecting = some (es, q)) : q.Accounted := by
  cases made with
  | none =>
      simp only [HttpConnectionPool.resume, Option.some.injEq, Prod.mk.injEq] at hstep
      obtain ⟨-, rfl⟩ := hstep
      exact h.move rfl rfl (all_perm_iff.mpr fun b => by simp [all, Call.owned])
        (by simp [due, Call.due]) fun b hb => by simpa [Pooled] using hb
  | some a =>
      simp only [HttpConnectionPool.resume] at hstep
      split at hstep
      · rename_i ha
        simp only [Option.some.injEq, Prod.mk.injEq] at hstep
        obtain ⟨-, rfl⟩ := hstep
        refine h.alloc ha rfl rfl (List.perm_iff_count.mpr fun b => ?_) rfl ?_
          fun b hb => by simpa [Pooled, store] using hb
        · simp only [all, store, List.count_append, List.count_cons, List.flatMap_cons,
            Call.owned, List.nil_append, List.count_nil]
          omega
        · simp only [due, List.map_cons, List.sum_cons, Call.due]
          omega
      · cases hstep

/-- The next step of a call keeps the invariant. -/
theorem Accounted.resume {es : List PoolEvent}
    (h : { p with calls := c :: p.calls }.Accounted)
    (hstep : p.resume connected made c = some (es, q)) : q.Accounted := by
  cases c with
  | entered now => exact h.entered hstep
  | popped ptr invalid n => exact h.popped hstep
  | connecting => exact h.connecting hstep
  | created a =>
      simp only [HttpConnectionPool.resume, Option.some.injEq, Prod.mk.injEq] at hstep
      obtain ⟨-, rfl⟩ := hstep
      refine h.move rfl rfl (all_perm_iff.mpr fun b => ?_) ?_
        fun b hb => by simpa [Pooled] using hb
      · simp only [all, List.count_append, List.count_cons, List.flatMap_cons, Call.owned,
          List.count_nil]
        omega
      · simp only [due, List.map_cons, List.sum_cons, Call.due, add_sub_cancel_right]
        rfl
  | deleted =>
      simp only [HttpConnectionPool.resume, Option.some.injEq, Prod.mk.injEq] at hstep
      obtain ⟨-, rfl⟩ := hstep
      refine h.move rfl rfl (all_perm_iff.mpr fun b => by simp [all, Call.owned]) ?_
        fun b hb => by simpa [Pooled] using hb
      simp only [due, List.map_cons, List.sum_cons, Call.due, add_sub_cancel_right]
      exact BitVec.sub_eq_add_neg _ _
  | pooling a =>
      simp only [HttpConnectionPool.resume, Option.some.injEq, Prod.mk.injEq] at hstep
      obtain ⟨-, rfl⟩ := hstep
      refine h.move rfl rfl (all_perm_iff.mpr fun b => ?_) (by simp [due, Call.due])
        fun b hb => ?_
      · simp only [all, List.count_append, List.count_cons, List.flatMap_cons, Call.owned,
          List.count_nil]
        omega
      · simp only [Pooled, List.mem_append, List.mem_cons, Call.pooling.injEq] at hb ⊢
        tauto

/-- `ReleasePtr` keeps the invariant. -/
theorem Accounted.release {a : Nat} {alive : Bool} {es : List PoolEvent} (h : p.Accounted)
    (ha : a ∈ p.held)
    (hstep : { p with held := p.held.erase a }.releasePtr a alive = some (es, q)) :
    q.Accounted := by
  have hcount : ∀ b, p.held.count b = (a :: p.held.erase a).count b :=
    List.perm_iff_count.mp (List.perm_cons_erase ha)
  cases hconn : p.heap a with
  | none => simp [releasePtr, hconn] at hstep
  | some conn =>
      simp only [releasePtr, hconn] at hstep
      split at hstep
      · simp only [Option.some.injEq, Prod.mk.injEq] at hstep
        obtain ⟨-, rfl⟩ := hstep
        refine h.free rfl rfl (all_perm_iff.mpr fun b => ?_) rfl ?_
          fun b hb => by simpa [Pooled, store] using hb
        · rw [hcount b]
          simp only [all, store, List.count_append, List.count_cons, List.flatMap_cons,
            Call.owned, List.nil_append]
          omega
        · simp only [due, List.map_cons, List.sum_cons, Call.due]
          omega
      · rename_i hkeep
        simp only [Option.some.injEq, Prod.mk.injEq] at hstep
        obtain ⟨-, rfl⟩ := hstep
        refine h.drop ha rfl rfl (all_perm_iff.mpr fun b => ?_) rfl ?_ ?_ fun b hb => ?_
        · rw [hcount b]
          simp only [all, store, List.count_append, List.count_cons, List.flatMap_cons,
            Call.owned, List.count_nil]
          omega
        · simp only [due, List.map_cons, List.sum_cons, Call.due]
          omega
        · simp only [Bool.or_eq_true, decide_eq_true_eq, not_or] at hkeep
          exact UInt64.not_le.mp hkeep.2
        · simp only [Pooled, store, List.mem_cons, Call.pooling.injEq] at hb ⊢
          tauto

/-- **Step lemma.**  Every step keeps the accounting invariant. -/
theorem Accounted.step (p : HttpConnectionPool) (op : Op) (es : List PoolEvent)
    (q : HttpConnectionPool) (h : p.Accounted) (hstep : step p op = some (es, q)) :
    q.Accounted := by
  cases op with
  | tick now =>
      simp only [HttpConnectionPool.step] at hstep
      split at hstep
      · cases hstep
        exact ⟨h.owns, h.total, h.limit⟩
      · cases hstep
  | getConnection =>
      cases hstep
      exact h.move rfl rfl (all_perm_iff.mpr fun b => by simp [all, Call.owned])
        (by simp [due, Call.due]) fun b hb => by simpa [Pooled] using hb
  | release a alive =>
      simp only [HttpConnectionPool.step] at hstep
      split at hstep
      · rename_i ha
        exact h.release ha hstep
      · cases hstep
  | resume c connected made =>
      simp only [HttpConnectionPool.step] at hstep
      split at hstep
      · rename_i hc
        exact (h.perm (List.perm_cons_erase hc)).resume hstep
      · cases hstep

/-- The number of live connections. -/
noncomputable def live (p : HttpConnectionPool) : Nat := Set.ncard {a | (p.heap a).isSome}

/-- What the calls under way still have to add is at most what they own. -/
theorem due_le : p.due ≤ p.all.length := by
  have hcalls : (p.calls.map Call.due).sum ≤ ((p.calls.flatMap Call.owned).length : Int) := by
    induction p.calls with
    | nil => simp
    | cons c cs ih =>
        have hc : c.due ≤ c.owned.length := by
          cases c <;> simp [Call.due, Call.owned]
          omega
        simp only [List.map_cons, List.sum_cons, List.flatMap_cons, List.length_append,
          Nat.cast_add]
        omega
  simp only [due, all, List.length_append, Nat.cast_add]
  omega

/-- `m_total` as a signed number. -/
theorem Accounted.toInt_total (h : p.Accounted) (hlive : (p.live : Int) - p.due < 2 ^ 31) :
    p.total.toInt = p.live - p.due ∧ 0 ≤ p.total.toInt := by
  have hcard : p.live = p.all.length := h.owns.ncard
  have hdue := p.due_le
  rw [hcard] at hlive ⊢
  rw [h.total, BitVec.toInt_ofInt_eq_self (by decide) (by omega) (by simpa using hlive)]
  omega

/-- **Connection-pool accounting.**  In every run, a live connection is in
`m_conns` exactly once, handed out to exactly one holder, or owned by exactly
one call under way, and nothing else is in these places; when no call is under
way it is in one of the first two.  `m_total` is the number of live connections
up to what the calls under way still have to add, as long as that is below
`2 ^ 31`, and is not negative then.  Every pooled connection is below the
request limit. -/
theorem accounting (maxAliveTime maxRequest : UInt32) (now : UInt64) (ops : List Op)
    (es : List (List PoolEvent)) (p : HttpConnectionPool)
    (hrun : Machine.run step (new maxAliveTime maxRequest now) ops = some (es, p)) :
    (∀ a, p.conns.count a + p.held.count a + (p.calls.flatMap Call.owned).count a =
      if (p.heap a).isSome then 1 else 0) ∧
    ((p.live : Int) - p.due < 2 ^ 31 →
      p.total.toInt = p.live - p.due ∧ 0 ≤ p.total.toInt) ∧
    (p.calls = [] →
      (∀ a, (p.heap a).isSome →
        (p.conns.count a = 1 ∧ a ∉ p.held) ∨ (a ∉ p.conns ∧ p.held.count a = 1)) ∧
      (p.live < 2 ^ 31 → p.total.toInt = p.live)) ∧
    ∀ a ∈ p.conns, ∃ c, p.heap a = some c ∧ c.request < p.maxRequest.toUInt64 := by
  have h : p.Accounted := Machine.run_invariant Accounted.step (Accounted.new _ _ now) hrun
  have hplace : ∀ a, p.conns.count a + p.held.count a + (p.calls.flatMap Call.owned).count a =
      if (p.heap a).isSome then 1 else 0 := by
    intro a
    have hcount : p.all.count a = if a ∈ p.all then 1 else 0 := h.owns.nodup.count
    rw [if_congr (h.owns.live a) rfl rfl, ← hcount]
    simp only [all, List.count_append]
    omega
  refine ⟨hplace, h.toInt_total, fun hcalls => ⟨fun a ha => ?_, fun hlive => ?_⟩, fun a ha => ?_⟩
  · have ha' := hplace a
    rw [if_pos ha, hcalls] at ha'
    simp only [List.flatMap_nil, List.count_nil, add_zero] at ha'
    rw [← List.count_eq_zero, ← List.count_eq_zero]
    omega
  · have hdue : p.due = 0 := by simp [due, hcalls]
    have htotal := h.toInt_total (by omega)
    omega
  · obtain ⟨c, hc⟩ := h.owns.exists_of_mem (List.mem_append_left _ ha)
    exact ⟨c, hc, h.limit a (.inl ha) c hc⟩

/-- One connection, handed out, returned and handed out again. -/
def handedOutAgain : List Op :=
  [.getConnection, .resume (.entered 5) (fun _ => true) none,
    .resume (.popped none [] 0) (fun _ => true) none,
    .resume .connecting (fun _ => true) (some 7), .resume (.created 7) (fun _ => true) none,
    .release 7 true, .resume (.pooling 7) (fun _ => true) none, .getConnection,
    .resume (.entered 5) (fun _ => true) none,
    .resume (.popped (some 7) [] 0) (fun _ => true) none]

theorem accounting_handedOutAgain :
    ∃ es p, Machine.run step (new 1 2 5) handedOutAgain = some (es, p) ∧
      ∀ a, p.conns.count a + p.held.count a + (p.calls.flatMap Call.owned).count a =
        if (p.heap a).isSome then 1 else 0 := by
  have hrun : (Machine.run step (new 1 2 5) handedOutAgain).isSome := by decide
  obtain ⟨⟨es, p⟩, hp⟩ := Option.isSome_iff_exists.mp hrun
  exact ⟨es, p, hp, (accounting 1 2 5 handedOutAgain es p hp).1⟩

/-- A call of `getConnection` that finds an empty pool and makes a connection
at the address `a`. -/
def dial (a : Nat) : List Op :=
  [.getConnection, .resume (.entered 0) (fun _ => false) none,
    .resume (.popped none [] 0) (fun _ => false) none,
    .resume .connecting (fun _ => false) (some a), .resume (.created a) (fun _ => false) none]

def dials (a : Nat) : Nat → List Op
  | 0 => []
  | n + 1 => dial a ++ dials (a + 1) n

/-- One such call. -/
theorem run_dial {a : Nat} {ops : List Op} {es : List (List PoolEvent)}
    (hconns : p.conns = []) (hcalls : p.calls = []) (hclock : p.clock = 0) (ha : p.heap a = none)
    (hrest : Machine.run step { p.store a (some {}) with
      total := p.total + 1, held := a :: p.held, born := Function.update p.born a p.clock } ops =
        some (es, q)) :
    Machine.run step p (dial a ++ ops) = some ([] :: [] :: [] :: [] :: [] :: es, q) := by
  obtain ⟨_, _, conns, total, heap, held, calls, clock, _⟩ := p
  subst hconns hcalls hclock
  have hfree : heap a = none := ha
  simpa [dial, Machine.run, step, HttpConnectionPool.resume, popLoop, popEvents, store, hfree]
    using hrest

theorem run_dials : ∀ (n a : Nat) (p : HttpConnectionPool), p.conns = [] → p.calls = [] →
    p.clock = 0 → (∀ b, a ≤ b → p.heap b = none) →
    ∃ es q, Machine.run step p (dials a n) = some (es, q) ∧ q.calls = [] ∧
      q.total = p.total + BitVec.ofNat 32 n := by
  intro n
  induction n with
  | zero =>
      intro a p _ hcalls _ _
      exact ⟨_, p, rfl, hcalls, by simp⟩
  | succ n ih =>
      intro a p hconns hcalls hclock hheap
      have hfree : ∀ b, a + 1 ≤ b → Function.update p.heap a (some {}) b = none := by
        intro b hb
        rw [Function.update_of_ne (by omega)]
        exact hheap b (by omega)
      obtain ⟨es, r, hrest, hr, htotal⟩ := ih (a + 1)
        { p.store a (some {}) with
          total := p.total + 1, held := a :: p.held, born := Function.update p.born a p.clock }
        hconns hcalls hclock hfree
      refine ⟨_, r, run_dial hconns hcalls hclock (hheap a le_rfl) hrest, hr, ?_⟩
      rw [htotal, Nat.add_comm n, BitVec.ofNat_add, ← BitVec.add_assoc]
      rfl

/-- With `2 ^ 31` connections handed out, the counter has overflowed. -/
theorem not_total_nonneg :
    ¬ ∀ (ops : List Op) (es : List (List PoolEvent)) (p : HttpConnectionPool),
      Machine.run step (new 60000 100 0) ops = some (es, p) → p.calls = [] →
        0 ≤ p.total.toInt := by
  intro h
  obtain ⟨es, q, hrun, hcalls, htotal⟩ :=
    run_dials (2 ^ 31) 0 (new 60000 100 0) rfl rfl rfl fun _ _ => rfl
  have hneg : q.total.toInt = -2 ^ 31 := by
    rw [htotal]
    decide
  have hnonneg := h (dials 0 (2 ^ 31)) es q hrun hcalls
  omega

end HttpConnectionPool

end Mingo
