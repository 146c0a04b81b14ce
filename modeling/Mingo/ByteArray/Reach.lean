import Mingo.Lib.Machine
import Mingo.ByteArray.Spec

/-!
# The states a byte array can be in

Every public member that changes a `ByteArray` is one of the calls below or a
sequence of them: the typed writers and `readFromFile` call `write`, the typed
readers call `read`.  Whoever holds the segments of `getWriteBuffers` may also
store bytes through them (`Call.fill`).

* `Reachable.wf` -- the invariant holds in every state a run of calls reaches;
* `readLoop_isSome_iff`, `writeLoop_isSome`, `buffersLoop_isSome` -- a loop
  follows no null pointer when there is a block to start from and the bytes it
  walks over are there.
-/

namespace Mingo

namespace ByteArray

/-! ### When a loop completes -/

variable {b npos n : Nat} {chain : List Node}

/-- Reading ends inside the chain exactly when the bytes are there. -/
theorem readLoop_isSome_iff (hb : 0 < b) (hu : Uniform b chain) (hnpos : npos < b) :
    (readLoop chain npos n).isSome ↔ chain ≠ [] ∧ npos + n ≤ b * chain.length := by
  constructor
  · intro h
    obtain ⟨⟨bytes, k⟩, hloop⟩ := Option.isSome_iff_exists.mp h
    refine ⟨?_, (readLoop_spec hb hu hnpos hloop).1⟩
    intro hnil
    rw [hnil] at hloop
    cases hloop
  · intro h
    obtain ⟨hne, hfit⟩ := h
    induction chain generalizing npos n with
    | nil => exact absurd rfl hne
    | cons node rest ih =>
        have hsize : node.size = b := hu node List.mem_cons_self
        rw [mul_length_cons] at hfit
        simp only [readLoop, hsize]
        split
        · rfl
        · split
          · rfl
          · have hrest : rest ≠ [] := by
              rintro rfl
              simp at hfit
              omega
            obtain ⟨r, hr⟩ := Option.isSome_iff_exists.mp
              (ih (n := n - (b - npos)) hu.tail hb hrest (by omega))
            rw [hr]
            rfl

/-- Writing ends inside a chain with room for the bytes. -/
theorem writeLoop_isSome {buf : List UInt8} (hb : 0 < b) (hu : Uniform b chain) (hnpos : npos < b)
    (hne : chain ≠ []) (hfit : npos + buf.length ≤ b * chain.length) :
    (writeLoop chain npos buf).isSome := by
  induction chain generalizing npos buf with
  | nil => exact absurd rfl hne
  | cons node rest ih =>
      have hsize : node.size = b := hu node List.mem_cons_self
      rw [mul_length_cons] at hfit
      simp only [writeLoop, hsize]
      split
      · rfl
      · split
        · rfl
        · have hrest : rest ≠ [] := by
            rintro rfl
            simp at hfit
            omega
          have hfit' : 0 + (buf.drop (b - npos)).length ≤ b * rest.length := by
            rw [List.length_drop]
            omega
          obtain ⟨r, hr⟩ := Option.isSome_iff_exists.mp (ih hu.tail hb hrest hfit')
          rw [hr]
          rfl

/-- The buffers end inside a chain with room for the bytes. -/
theorem buffersLoop_isSome {i : Nat} (hb : 0 < b) (hu : Uniform b chain) (hnpos : npos < b)
    (hne : chain ≠ []) (hfit : npos + n ≤ b * chain.length) :
    (buffersLoop chain i npos n).isSome := by
  induction chain generalizing i npos n with
  | nil => exact absurd rfl hne
  | cons node rest ih =>
      have hsize : node.size = b := hu node List.mem_cons_self
      rw [mul_length_cons] at hfit
      simp only [buffersLoop, hsize]
      split
      · rfl
      · split
        · rfl
        · have hrest : rest ≠ [] := by
            rintro rfl
            simp at hfit
            omega
          rw [Option.isSome_map]
          exact ih (n := n - (b - npos)) hu.tail hb hrest (by omega)

/-! ### Calls -/

/-- The calls that change a byte array. -/
inductive Call
  | write (buf : List UInt8)
  | read (n : Nat)
  | setPosition (v : Nat)
  | clear
  | setIsLittleEndian (val : Bool)
  | getWriteBuffers (len : Nat)
  | fill (iov : IoVec) (bytes : List UInt8)
  deriving DecidableEq, Repr

/-- Store bytes through a segment; it has to lie in its block. -/
def fill (iov : IoVec) (bytes : List UInt8) (ba : ByteArray) : Option ByteArray :=
  match ba.nodes[iov.node]? with
  | none => none
  | some node =>
      if bytes.length ≤ iov.len ∧ iov.offset + iov.len ≤ node.size then
        some { ba with nodes := ba.nodes.set iov.node (node.store iov.offset bytes) }
      else none

/-- One call, whatever it returns. -/
def change : Machine.Step ByteArray Call Unit
  | ba, .write buf => (ByteArray.write buf ba).map fun r => ((), r.2)
  | ba, .read n => (ByteArray.read n ba).map fun r => ((), r.2)
  | ba, .setPosition v => (ByteArray.setPosition v ba).map fun r => ((), r.2)
  | ba, .clear => (ByteArray.clear ba).map fun r => ((), r.2)
  | ba, .setIsLittleEndian val => some ((), ba.setIsLittleEndian val)
  | ba, .getWriteBuffers len => (ByteArray.getWriteBuffers len ba).map fun r => ((), r.2)
  | ba, .fill iov bytes => (ByteArray.fill iov bytes ba).map fun ba => ((), ba)

/-- A run of calls on a fresh array ends in this state. -/
def Reachable (ba : ByteArray) : Prop :=
  ∃ base heap calls outs, 0 < base ∧
    Machine.run change (new base heap) calls = some (outs, ba)

variable {ba ba' : ByteArray}

/-- Filling the buffers keeps the array well formed. -/
theorem Wf.fill {iov : IoVec} {bytes : List UInt8} (h : ba.Wf)
    (hfill : ByteArray.fill iov bytes ba = some ba') : ba'.Wf := by
  unfold ByteArray.fill at hfill
  split at hfill
  · cases hfill
  · next node hnode =>
      split at hfill
      · next hroom =>
          cases hfill
          have hsize : (node.store iov.offset bytes).size = ba.baseSize := by
            have hfit : iov.offset + bytes.length ≤ node.ptr.length := by
              have hroom₂ : iov.offset + iov.len ≤ node.ptr.length := hroom.2
              omega
            exact (List.length_splice hfit).trans (h.uniform node (List.mem_of_getElem? hnode))
          refine ⟨h.base_pos, ?_, ?_, ?_, h.position_le, h.size_le, ?_⟩
          · intro node' hnode'
            rcases List.mem_or_eq_of_mem_set hnode' with hmem | rfl
            · exact h.uniform node' hmem
            · exact hsize
          · have hroot := h.root
            simpa [List.set_eq_nil_iff] using hroot
          · simpa using h.capacity_eq
          · rw [h.cur_eq, nodeAt, nodeAt, List.length_set]
      · cases hfill

/-- **Every call keeps the invariant.** -/
theorem Wf.change {call : Call} {out : Unit} (h : ba.Wf)
    (hcall : ByteArray.change ba call = some (out, ba')) : ba'.Wf := by
  cases call with
  | write buf =>
      obtain ⟨⟨r, mid⟩, hwrite, heq⟩ := Option.map_eq_some_iff.mp hcall
      cases heq
      exact (write_spec h hwrite).2.1
  | read n =>
      obtain ⟨⟨r, mid⟩, hread, heq⟩ := Option.map_eq_some_iff.mp hcall
      cases heq
      rcases read_spec h hread with ⟨_, _, rfl⟩ | ⟨_, _, hwf, _⟩
      · exact h
      · exact hwf
  | setPosition v =>
      obtain ⟨⟨r, mid⟩, hset, heq⟩ := Option.map_eq_some_iff.mp hcall
      cases heq
      rcases setPosition_spec h v with ⟨_, hres⟩ | ⟨_, mid', hres, hwf, _⟩
      · rw [hset] at hres
        cases hres
        exact h
      · rw [hset] at hres
        cases hres
        exact hwf
  | clear =>
      have hmap : (ByteArray.clear ba).map (fun r => ((), r.2)) = some (out, ba') := hcall
      obtain ⟨⟨r, mid⟩, hclear, heq⟩ := Option.map_eq_some_iff.mp hmap
      cases heq
      obtain ⟨mid', hres, hwf, _⟩ := clear_spec h
      rw [hclear] at hres
      cases hres
      exact hwf
  | setIsLittleEndian val =>
      cases hcall
      exact ⟨h.base_pos, h.uniform, h.root, h.capacity_eq, h.position_le, h.size_le, h.cur_eq⟩
  | getWriteBuffers len =>
      obtain ⟨⟨r, mid⟩, hbuffers, heq⟩ := Option.map_eq_some_iff.mp hcall
      cases heq
      unfold ByteArray.getWriteBuffers at hbuffers
      split at hbuffers
      · cases hbuffers
        exact h
      · dsimp only at hbuffers
        split at hbuffers
        · cases hbuffers
        · cases hbuffers
          exact (addCapacity_spec h len).1
  | fill iov bytes =>
      obtain ⟨mid, hfill, heq⟩ := Option.map_eq_some_iff.mp hcall
      cases heq
      exact h.fill hfill

/-- **Every reachable state satisfies the invariant.** -/
theorem Reachable.wf (h : Reachable ba) : ba.Wf := by
  obtain ⟨base, heap, calls, outs, hbase, hrun⟩ := h
  have hstep : ∀ (s : ByteArray) (call : Call) (out : Unit) (t : ByteArray), s.Wf →
      ByteArray.change s call = some (out, t) → t.Wf :=
    fun s call out t hs hcall => hs.change hcall
  exact Machine.run_invariant hstep (new_wf hbase heap) hrun

end ByteArray

end Mingo
