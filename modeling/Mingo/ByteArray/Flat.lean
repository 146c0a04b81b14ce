import Mingo.Lib.Machine
import Mingo.ByteArray.Spec

/-!
# The chain of blocks is a flat array with a cursor

`Flat` is what a `ByteArray` is for: one stretch of storage, a cursor and a
size.  `Flat.Spec` says what each call does to it and returns; it knows of no
blocks.  Any run of calls on a fresh `ByteArray` in which every call completes
is a run of the flat array with the same results (`run_refines_flat`).
-/

namespace Mingo

/-- A flat byte array: the storage, the cursor and the number of valid bytes. -/
structure Flat where
  bytes : List UInt8
  position : Nat
  size : Nat

namespace ByteArray

/-- The calls of a run. -/
inductive Op
  | write (buf : List UInt8)
  | read (n : Nat)
  | setPosition (v : Nat)
  | clear
  | toString
  | getReadBuffers (len : Nat)
  deriving DecidableEq, Repr

/-- What a call hands back: nothing, bytes, the segments of an `iovec` array
with their announced total, or an exception. -/
inductive Out
  | done
  | bytes (bs : List UInt8)
  | buffers (segments : List (List UInt8)) (total : Nat)
  | outOfRange (what : String)
  | lengthError
  deriving DecidableEq, Repr

/-- The result of a call, given how to present its value. -/
def outcome {α : Type} (present : α → Out) :
    Except Thrown α × ByteArray → Out × ByteArray
  | (.ok a, ba) => (present a, ba)
  | (.error (.outOfRange what), ba) => (.outOfRange what, ba)
  | (.error .lengthError, ba) => (.lengthError, ba)

/-- One call. -/
def step : Machine.Step ByteArray Op Out
  | ba, .write buf => (ByteArray.write buf ba).map (outcome fun _ => .done)
  | ba, .read n => (ByteArray.read n ba).map (outcome .bytes)
  | ba, .setPosition v => (ByteArray.setPosition v ba).map (outcome fun _ => .done)
  | ba, .clear => (ByteArray.clear ba).map (outcome fun _ => .done)
  | ba, .toString => (ByteArray.toString ba).map (outcome .bytes)
  | ba, .getReadBuffers len =>
      (ByteArray.getReadBuffers len ba).map
        (outcome fun r => .buffers (r.1.map ba.bytesOf) r.2)

/-- The calls that never change anything. -/
def Op.isConst : Op → Bool
  | .toString => true
  | .getReadBuffers _ => true
  | _ => false

/-- An exception was thrown. -/
def Out.isThrow : Out → Bool
  | .outOfRange _ => true
  | .lengthError => true
  | _ => false

end ByteArray

namespace Flat

open Mingo.ByteArray

/-- The first `n` bytes behind the cursor. -/
def ahead (f : Flat) (n : Nat) : List UInt8 := (f.bytes.drop f.position).take n

/-- What each call does on a flat array whose storage is handed out in pieces
of `base` bytes. -/
def Spec (base : Nat) (f : Flat) : Op → Out → Flat → Prop
  | .write buf, out, g =>
      out = .done ∧ ∃ fresh,
        f.position + buf.length ≤ (f.bytes ++ fresh).length ∧
        g = { bytes := (f.bytes ++ fresh).splice f.position buf
              position := f.position + buf.length
              size := max f.size (f.position + buf.length) }
  | .read n, out, g =>
      if n > f.size - f.position then out = .outOfRange "not enough len" ∧ g = f
      else out = .bytes (f.ahead n) ∧ g = { f with position := f.position + n }
  | .setPosition v, out, g =>
      if v > f.bytes.length then out = .outOfRange "set_position out of range" ∧ g = f
      else out = .done ∧ g = { f with position := v, size := max f.size v }
  | .clear, out, g => out = .done ∧ g = { bytes := f.bytes.take base, position := 0, size := 0 }
  | .toString, out, g => out = .bytes (f.ahead (f.size - f.position)) ∧ g = f
  | .getReadBuffers len, out, g =>
      g = f ∧ ∃ segments,
        out = .buffers segments (min len (f.size - f.position)) ∧
        segments.flatten = f.ahead (min len (f.size - f.position))

end Flat

namespace ByteArray

/-- The flat view of a state. -/
def flat (ba : ByteArray) : Flat := ⟨ba.storage, ba.position, ba.size⟩

@[simp]
theorem ahead_flat (ba : ByteArray) (n : Nat) :
    ba.flat.ahead n = (ba.storage.drop ba.position).take n := rfl

/-- The simulation relation: the invariant, and the flat view. -/
structure Related (base : Nat) (ba : ByteArray) (f : Flat) : Prop where
  wf : ba.Wf
  base_eq : ba.baseSize = base
  flat_eq : ba.flat = f

/-- Two flat arrays agree if storage, cursor and size do. -/
theorem flat_eq_mk {ba : ByteArray} {bytes : List UInt8} {position size : Nat}
    (hb : ba.storage = bytes) (hp : ba.position = position) (hs : ba.size = size) :
    ba.flat = ⟨bytes, position, size⟩ := by
  subst hb hp hs
  rfl

/-- **One call is one step of the flat array.** -/
theorem step_simulates_flat {base : Nat} {ba ba' : ByteArray} {f : Flat} {op : Op} {out : Out}
    (h : Related base ba f) (hstep : step ba op = some (out, ba')) :
    ∃ g, Flat.Spec base f op out g ∧ Related base ba' g := by
  obtain ⟨hwf, rfl, rfl⟩ := h
  cases op with
  | write buf =>
      obtain ⟨⟨r, mid⟩, hcall, hout⟩ := Option.map_eq_some_iff.mp hstep
      obtain ⟨rfl, hwf', hbase, _, hpos, hsize, fresh, hroom, hstore⟩ := write_spec hwf hcall
      obtain ⟨rfl, rfl⟩ := Prod.mk.inj hout
      exact ⟨_, ⟨rfl, fresh, hroom, rfl⟩, hwf', hbase, flat_eq_mk hstore hpos hsize⟩
  | read n =>
      obtain ⟨⟨r, mid⟩, hcall, hout⟩ := Option.map_eq_some_iff.mp hstep
      rcases read_spec hwf hcall with ⟨hgt, rfl, rfl⟩ | ⟨hle, rfl, hwf', hst, hb, _, hp, hs⟩
      · obtain ⟨rfl, rfl⟩ := Prod.mk.inj hout
        exact ⟨mid.flat, by simp [Flat.Spec, flat, hgt], hwf, rfl, rfl⟩
      · obtain ⟨rfl, rfl⟩ := Prod.mk.inj hout
        refine ⟨_, ?_, hwf', hb, flat_eq_mk hst hp hs⟩
        have hnot : ¬ n > ba.flat.size - ba.flat.position := Nat.not_lt.mpr hle
        rw [Flat.Spec, if_neg hnot]
        exact ⟨rfl, rfl⟩
  | setPosition v =>
      obtain ⟨⟨r, mid⟩, hcall, hout⟩ := Option.map_eq_some_iff.mp hstep
      rcases setPosition_spec hwf v with ⟨hgt, heq⟩ | ⟨hle, mid', heq, hwf', hst, hb, _, hp, hs⟩
      · obtain ⟨rfl, rfl⟩ := Prod.mk.inj (Option.some.inj (heq.symm.trans hcall))
        obtain ⟨rfl, rfl⟩ := Prod.mk.inj hout
        refine ⟨ba.flat, ?_, hwf, rfl, rfl⟩
        have hlen : v > ba.flat.bytes.length := by
          rw [flat, hwf.length_storage]; exact hgt
        rw [Flat.Spec, if_pos hlen]
        exact ⟨rfl, rfl⟩
      · obtain ⟨rfl, rfl⟩ := Prod.mk.inj (Option.some.inj (heq.symm.trans hcall))
        obtain ⟨rfl, rfl⟩ := Prod.mk.inj hout
        refine ⟨_, ?_, hwf', hb, flat_eq_mk hst hp hs⟩
        have hlen : ¬ v > ba.flat.bytes.length := by
          rw [flat, hwf.length_storage]; exact Nat.not_lt.mpr hle
        rw [Flat.Spec, if_neg hlen]
        exact ⟨rfl, rfl⟩
  | clear =>
      have hmap : (ByteArray.clear ba).map (outcome fun _ => .done) = some (out, ba') := hstep
      obtain ⟨⟨r, mid⟩, hcall, hout⟩ := Option.map_eq_some_iff.mp hmap
      obtain ⟨mid', heq, hwf', hst, hb, hp, hs⟩ := clear_spec hwf
      obtain ⟨rfl, rfl⟩ := Prod.mk.inj (Option.some.inj (heq.symm.trans hcall))
      obtain ⟨rfl, rfl⟩ := Prod.mk.inj hout
      exact ⟨_, ⟨rfl, rfl⟩, hwf', hb, flat_eq_mk hst hp hs⟩
  | toString =>
      obtain ⟨⟨r, mid⟩, hcall, hout⟩ := Option.map_eq_some_iff.mp hstep
      obtain ⟨rfl, rfl⟩ := toString_spec hwf hcall
      obtain ⟨rfl, rfl⟩ := Prod.mk.inj hout
      exact ⟨mid.flat, ⟨rfl, rfl⟩, hwf, rfl, rfl⟩
  | getReadBuffers len =>
      obtain ⟨⟨r, mid⟩, hcall, hout⟩ := Option.map_eq_some_iff.mp hstep
      obtain ⟨rfl, iovs, rfl, hbytes⟩ := getReadBuffers_spec hwf hcall
      obtain ⟨rfl, rfl⟩ := Prod.mk.inj hout
      exact ⟨mid.flat, ⟨rfl, _, rfl, hbytes⟩, hwf, rfl, rfl⟩

/-- A call that throws, and a call of a `const` member, leaves the whole state
as it is. -/
theorem step_unchanged {ba ba' : ByteArray} {op : Op} {out : Out} (hwf : ba.Wf)
    (hstep : step ba op = some (out, ba')) (hquiet : op.isConst ∨ out.isThrow) : ba' = ba := by
  cases op with
  | write buf =>
      obtain ⟨⟨r, mid⟩, hcall, hout⟩ := Option.map_eq_some_iff.mp hstep
      obtain ⟨rfl, _⟩ := write_spec hwf hcall
      obtain ⟨rfl, rfl⟩ := Prod.mk.inj hout
      simp [Op.isConst, Out.isThrow] at hquiet
  | read n =>
      obtain ⟨⟨r, mid⟩, hcall, hout⟩ := Option.map_eq_some_iff.mp hstep
      rcases read_spec hwf hcall with ⟨_, rfl, rfl⟩ | ⟨_, rfl, _⟩
      · exact (Prod.mk.inj hout).2.symm
      · obtain ⟨rfl, rfl⟩ := Prod.mk.inj hout
        simp [Op.isConst, Out.isThrow] at hquiet
  | setPosition v =>
      obtain ⟨⟨r, mid⟩, hcall, hout⟩ := Option.map_eq_some_iff.mp hstep
      rcases setPosition_spec hwf v with ⟨_, heq⟩ | ⟨_, mid', heq, _⟩
      · obtain ⟨rfl, rfl⟩ := Prod.mk.inj (Option.some.inj (heq.symm.trans hcall))
        exact (Prod.mk.inj hout).2.symm
      · obtain ⟨rfl, rfl⟩ := Prod.mk.inj (Option.some.inj (heq.symm.trans hcall))
        obtain ⟨rfl, rfl⟩ := Prod.mk.inj hout
        simp [Op.isConst, Out.isThrow] at hquiet
  | clear =>
      have hmap : (ByteArray.clear ba).map (outcome fun _ => .done) = some (out, ba') := hstep
      obtain ⟨⟨r, mid⟩, hcall, hout⟩ := Option.map_eq_some_iff.mp hmap
      obtain ⟨rfl, rfl⟩ := Prod.mk.inj (Option.some.inj hcall)
      obtain ⟨rfl, rfl⟩ := Prod.mk.inj hout
      simp [Op.isConst, Out.isThrow] at hquiet
  | toString =>
      obtain ⟨⟨r, mid⟩, hcall, hout⟩ := Option.map_eq_some_iff.mp hstep
      obtain ⟨rfl, rfl⟩ := toString_spec hwf hcall
      exact (Prod.mk.inj hout).2.symm
  | getReadBuffers len =>
      obtain ⟨⟨r, mid⟩, hcall, hout⟩ := Option.map_eq_some_iff.mp hstep
      obtain ⟨rfl, iovs, rfl, _⟩ := getReadBuffers_spec hwf hcall
      exact (Prod.mk.inj hout).2.symm

/-- The current block is missing exactly when the cursor stands at the end of
the storage. -/
theorem Wf.cur_eq_ite {ba : ByteArray} (h : ba.Wf) :
    ba.cur = if ba.position = ba.capacity then none
      else some (ba.position / ba.baseSize) := by
  have hle := Nat.le_trans h.position_le h.size_le
  rw [h.cur_eq, nodeAt]
  by_cases heq : ba.position = ba.capacity
  · have hdiv : ba.position / ba.baseSize = ba.nodes.length := by
      rw [heq, h.capacity_eq, Nat.mul_div_cancel_left _ h.base_pos]
    rw [if_pos heq, hdiv, if_neg (Nat.lt_irrefl _)]
  · have hlt : ba.position / ba.baseSize < ba.nodes.length := by
      apply Nat.div_lt_of_lt_mul
      rw [← h.capacity_eq]
      omega
    rw [if_neg heq, if_pos hlt]

/-- **The chain of blocks refines the flat array.**  For every block size and
every run of calls that all complete, the calls return what the flat array
returns; the state keeps the flat storage, cursor and size, the capacity is
the block size times the number of blocks, `m_position ≤ m_size ≤ m_capacity`,
and `m_cur` is the block of the cursor, null exactly at the end of the
storage.  From every state so reached, a throwing call and a call of a `const`
member change nothing. -/
theorem run_refines_flat {base : Nat} (hbase : 0 < base) (heap : Nat → UInt8)
    {ops : List Op} {outs : List Out} {ba : ByteArray}
    (hrun : Machine.run step (new base heap) ops = some (outs, ba)) :
    Machine.SpecRun (Flat.Spec base) (new base heap).flat ops outs ba.flat ∧
    ba.storage.length = ba.capacity ∧
    ba.capacity = base * ba.nodes.length ∧
    ba.position ≤ ba.size ∧ ba.size ≤ ba.capacity ∧
    ba.cur = (if ba.position = ba.capacity then none else some (ba.position / base)) ∧
    ∀ op out ba', step ba op = some (out, ba') →
      op.isConst ∨ out.isThrow → ba' = ba := by
  have hsim : ∀ s f op out t, Related base s f → step s op = some (out, t) →
      ∃ g, Flat.Spec base f op out g ∧ Related base t g :=
    fun s f op out t hrel hstep => step_simulates_flat hrel hstep
  have hnew : Related base (new base heap) (new base heap).flat :=
    ⟨new_wf hbase heap, rfl, rfl⟩
  obtain ⟨f, hspec, hwf, rfl, rfl⟩ := Machine.run_simulates hsim hnew hrun
  exact ⟨hspec, hwf.length_storage, hwf.capacity_eq, hwf.position_le, hwf.size_le,
    hwf.cur_eq_ite, fun op out ba' hstep hquiet => step_unchanged hwf hstep hquiet⟩

/-- Blocks of two bytes: a write that crosses a block end, a seek, a read
that stops exactly at a block end, and a read that throws. -/
theorem run_refines_flat_blocks_of_two :
    ∃ ba, Machine.run step (new 2 fun _ => 0)
        [.write [1, 2], .write [3, 4, 5], .setPosition 1, .read 3, .toString, .read 2] =
      some ([.done, .done, .done, .bytes [2, 3, 4], .bytes [5], .outOfRange "not enough len"], ba) ∧
      ba.cur = (if ba.position = ba.capacity then none else some (ba.position / 2)) := by
  have houts : (Machine.run step (new 2 fun _ => 0)
      [.write [1, 2], .write [3, 4, 5], .setPosition 1, .read 3, .toString, .read 2]).map Prod.fst =
      some [.done, .done, .done, .bytes [2, 3, 4], .bytes [5], .outOfRange "not enough len"] := by
    decide
  obtain ⟨⟨outs, ba⟩, hrun, rfl⟩ := Option.map_eq_some_iff.mp houts
  exact ⟨ba, hrun, (run_refines_flat (by decide) (fun _ => 0) hrun).2.2.2.2.2.1⟩

end ByteArray

end Mingo
