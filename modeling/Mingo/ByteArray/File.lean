import Mingo.ByteArray.Bounds
import Mingo.Stream.Basic

/-!
# Writing the readable bytes to a file

`writeToFile` passes the readable bytes to the output stream, one call of
`ofs.write` for each block.  The length of a call is the smaller one of the
remaining size and the block size, less the offset in the block; this is the
rest of the block only if the remaining bytes reach its end.  The offset is an
`int`.

* `fileLoop_aligned` -- from the start of a block on, the loop writes what is
  left;
* `fileLoop_stuck` -- with as many bytes left as the offset, it never ends;
* `writesReadable_iff` -- when `writeToFile` writes the readable bytes.
-/

namespace Mingo

namespace ByteArray

/-- One call `ofs.write(ptr, len)`: the bytes behind `ptr` and the length it is given. -/
structure FileWrite where
  bytes : List UInt8
  len : Int
  deriving DecidableEq, Repr

/-- The loop of `writeToFile`.  An address before the block, or a length that goes beyond
it, is undefined. -/
def fileLoop (baseSize : Nat) : List Node → Int → Int → Option (List FileWrite)
  | [], _, readSize => if readSize > 0 then none else some []
  | node :: rest, pos, readSize =>
      if readSize > 0 then
        -- `pos` is converted to `size_t`; it never gets negative
        let diff := toInt32 (pos.toNat % baseSize)
        let len := (if readSize > baseSize then (baseSize : Int) else readSize) - diff
        if diff < 0 ∨ node.size < diff + len then none
        else (fileLoop baseSize rest (pos + len) (readSize - len)).map
          (⟨node.load diff.toNat len.toNat, len⟩ :: ·)
      else some []

/-- The calls of `ofs.write` for a file that could be opened. -/
def writeToFile (ba : ByteArray) : Option (List FileWrite) :=
  fileLoop ba.baseSize ba.chain ba.position ba.getReadSize

/-- What `writeToFile` is for: it completes, the calls write the readable bytes, which
are those of `toString`, and no length is negative. -/
def WritesReadable (ba : ByteArray) : Prop :=
  ∃ calls, ba.writeToFile = some calls ∧
    (calls.map FileWrite.bytes).flatten = ba.unread ∧
    toString ba = some (.ok ba.unread, ba) ∧ ∀ call ∈ calls, 0 ≤ call.len

/-- The condition under which the first length is right: there is nothing to write, or
the offset fits an `int` and the readable bytes start or end their block. -/
def FillsBlock (ba : ByteArray) : Prop :=
  ba.size = ba.position ∨
    (ba.position % ba.baseSize < 2 ^ 31 ∧
      (ba.position % ba.baseSize = 0 ∨ ba.baseSize ≤ ba.size - ba.position))

instance (ba : ByteArray) : Decidable (FillsBlock ba) := by
  unfold FillsBlock
  infer_instance

variable {ba : ByteArray} {b : Nat}

/-! ### The loop -/

theorem fileLoop_zero (chain : List Node) (pos : Int) : fileLoop b chain pos 0 = some [] := by
  cases chain <;> rfl

/-- One turn whose offset fits an `int`. -/
theorem fileLoop_turn {node : Node} (rest : List Node) {pos r : Nat} (hsize : node.size = b)
    (hr : 0 < r) (hdiff : pos % b < 2 ^ 31) :
    fileLoop b (node :: rest) pos r =
      (fileLoop b rest (pos + ((min r b : Nat) - (pos % b : Nat) : Int))
        (r - ((min r b : Nat) - (pos % b : Nat) : Int))).map
          (⟨node.load (pos % b) (min r b - pos % b), (min r b : Nat) - (pos % b : Nat)⟩ :: ·) := by
  have hint : toInt32 (pos % b) = (pos % b : Nat) := toInt32_of_lt hdiff
  have hmin : (if (r : Int) > (b : Int) then (b : Int) else (r : Int)) = (min r b : Nat) := by
    split <;> omega
  have hlen : ((min r b : Nat) - (pos % b : Nat) : Int).toNat = min r b - pos % b := by omega
  rw [fileLoop]
  simp only [Int.toNat_natCast, hint, hmin, hlen, hsize]
  rw [if_pos (by omega), if_neg (by omega)]

/-- **From the start of a block on** the loop writes what is left. -/
theorem fileLoop_aligned (hb : 0 < b) :
    ∀ {chain : List Node} {pos r : Nat}, Uniform b chain → pos % b = 0 →
      r ≤ b * chain.length →
      ∃ calls, fileLoop b chain pos r = some calls ∧
        (calls.map FileWrite.bytes).flatten = (contents chain).take r ∧
        ∀ call ∈ calls, 0 ≤ call.len := by
  intro chain
  induction chain with
  | nil =>
      intro pos r _ _ hfit
      have hzero : r = 0 := by simpa using hfit
      subst hzero
      exact ⟨[], fileLoop_zero [] pos, rfl, by simp⟩
  | cons node rest ih =>
      intro pos r hu hpos hfit
      have hsize : node.size = b := hu node List.mem_cons_self
      have hlen : node.ptr.length = b := hsize
      rw [mul_length_cons] at hfit
      by_cases hr : r = 0
      · subst hr
        exact ⟨[], fileLoop_zero _ pos, by simp, by simp⟩
      · have hint : pos % b < 2 ^ 31 := by
          rw [hpos]
          decide
        have hturn := fileLoop_turn rest hsize (Nat.pos_of_ne_zero hr) hint
        have hpos' : (pos + ((min r b : Nat) - (pos % b : Nat)) : Int) = (pos + min r b : Nat) := by
          omega
        have hrest' : (r - ((min r b : Nat) - (pos % b : Nat)) : Int) = (r - min r b : Nat) := by
          omega
        rw [hpos', hrest'] at hturn
        have htail : ∃ calls, fileLoop b rest (pos + min r b : Nat) (r - min r b : Nat) =
            some calls ∧
            (calls.map FileWrite.bytes).flatten = (contents rest).take (r - min r b) ∧
            ∀ call ∈ calls, 0 ≤ call.len := by
          by_cases hlast : r ≤ b
          · have hzero : r - min r b = 0 := by omega
            rw [hzero]
            exact ⟨[], fileLoop_zero _ _, by simp, by simp⟩
          · have hmod : (pos + min r b) % b = 0 := by
              rw [Nat.min_eq_right (by omega), Nat.add_mod_right, hpos]
            exact ih hu.tail hmod (by omega)
        obtain ⟨calls, hcalls, hbytes, hpositive⟩ := htail
        refine ⟨_, by rw [hturn, hcalls]; rfl, ?_, ?_⟩
        · rw [List.map_cons, List.flatten_cons, hbytes, contents_cons, List.take_append, hpos,
            Nat.sub_zero, hlen]
          have hload : node.load 0 (min r b) = node.ptr.take r := by
            rw [Node.load, List.drop_zero, ← hlen, List.take_eq_take_iff]
            omega
          have hsub : r - min r b = r - b := by omega
          rw [hload, hsub]
        · intro call hmem
          rcases List.mem_cons.mp hmem with rfl | hmem
          · dsimp only
            omega
          · exact hpositive call hmem

/-- **With as many bytes left as the offset** every length is 0 and the loop runs off
the chain. -/
theorem fileLoop_stuck (hb : 0 < b) :
    ∀ {chain : List Node} {pos r : Nat}, Uniform b chain → 0 < r → pos % b = r → r < 2 ^ 31 →
      fileLoop b chain pos r = none := by
  intro chain
  induction chain with
  | nil =>
      intro pos r _ hr _ _
      exact if_pos (by omega)
  | cons node rest ih =>
      intro pos r hu hr hpos hlt
      have hmod := Nat.mod_lt pos hb
      have hpos' : (pos + ((min r b : Nat) - (pos % b : Nat)) : Int) = (pos : Nat) := by omega
      have hrest' : (r - ((min r b : Nat) - (pos % b : Nat)) : Int) = (r : Nat) := by omega
      rw [fileLoop_turn rest (hu node List.mem_cons_self) hr (by omega), hpos', hrest',
        ih hu.tail hr hpos hlt]
      rfl

theorem toInt32_neg {n : Nat} (hlow : 2 ^ 31 ≤ n) (hhigh : n < 2 ^ 32) : toInt32 n < 0 := by
  unfold toInt32 toSigned
  rw [Nat.mod_eq_of_lt hhigh, if_neg (by omega)]
  omega

/-- An offset that does not fit an `int` is an address before the block. -/
theorem fileLoop_wide {chain : List Node} {pos r : Nat} (hr : 0 < r)
    (hlow : 2 ^ 31 ≤ pos % b) (hhigh : pos % b < 2 ^ 32) : fileLoop b chain pos r = none := by
  cases chain with
  | nil => exact if_pos (by omega)
  | cons node rest =>
      rw [fileLoop, if_pos (by omega)]
      exact if_pos (Or.inl (toInt32_neg hlow hhigh))

/-- **Bytes that neither start nor end their block** are never written: the loop follows
a null pointer or passes a negative length in one of its first two turns. -/
theorem fileLoop_wrong (hb : 0 < b) (hsmall : b ≤ 2 ^ 32) {chain : List Node} {pos r : Nat}
    {calls : List FileWrite} (hu : Uniform b chain) (hr : 0 < r)
    (hnot : ¬ (pos % b < 2 ^ 31 ∧ (pos % b = 0 ∨ b ≤ r)))
    (hcalls : fileLoop b chain pos r = some calls) : ∃ call ∈ calls, call.len < 0 := by
  have hmod := Nat.mod_lt pos hb
  by_cases hint : pos % b < 2 ^ 31
  swap
  · rw [fileLoop_wide hr (by omega) (by omega)] at hcalls
    cases hcalls
  by_cases hequal : pos % b = r
  · rw [fileLoop_stuck hb hu hr hequal (by omega)] at hcalls
    cases hcalls
  cases chain with
  | nil =>
      rw [fileLoop, if_pos (by omega)] at hcalls
      cases hcalls
  | cons node rest =>
      rw [fileLoop_turn rest (hu node List.mem_cons_self) hr hint] at hcalls
      obtain ⟨tail, htail, heq⟩ := Option.map_eq_some_iff.mp hcalls
      subst heq
      by_cases hless : r < pos % b
      · exact ⟨_, List.mem_cons_self, by dsimp only; omega⟩
      · -- the second turn: the offset is now `r`, and only `pos % b` bytes are left
        have hnext : (pos + ((min r b : Nat) - (pos % b : Nat)) : Int) =
            (pos + (r - pos % b) : Nat) := by
          omega
        have hleft : (r - ((min r b : Nat) - (pos % b : Nat)) : Int) = (pos % b : Nat) := by
          omega
        have hoff : (pos + (r - pos % b)) % b = r := by
          have hdm := Nat.div_add_mod pos b
          have hsum : pos + (r - pos % b) = r + b * (pos / b) := by omega
          rw [hsum, Nat.add_mul_mod_self_left, Nat.mod_eq_of_lt (by omega)]
        rw [hnext, hleft] at htail
        by_cases hint' : r < 2 ^ 31
        · cases rest with
          | nil =>
              rw [fileLoop, if_pos (by omega)] at htail
              cases htail
          | cons node' rest' =>
              rw [fileLoop_turn rest' (hu.tail node' List.mem_cons_self) (by omega)
                (by rw [hoff]; exact hint'), hoff] at htail
              obtain ⟨tail', _, heq'⟩ := Option.map_eq_some_iff.mp htail
              subst heq'
              exact ⟨_, List.mem_cons_of_mem _ List.mem_cons_self, by dsimp only; omega⟩
        · rw [fileLoop_wide (by omega) (by omega) (by omega)] at htail
          cases htail

/-! ### The readable bytes -/

/-- `toString` completes in every state. -/
theorem Wf.toString_eq (h : ba.Wf) : toString ba = some (.ok ba.unread, ba) := by
  have hpos := h.position_le
  have hsize := h.size_le
  have hsome : (toString ba).isSome := by
    unfold toString
    rw [h.getReadSize_eq]
    split
    · rfl
    · unfold readAt
      rw [subSize_of_le hpos, if_neg (Nat.lt_irrefl _)]
      obtain ⟨r, hr⟩ := Option.isSome_iff_exists.mp
        ((h.readLoop_isSome_iff (ba.size - ba.position)).mpr ⟨by omega, by omega⟩)
      rw [hr]
      rfl
  obtain ⟨⟨r, u⟩, heq⟩ := Option.isSome_iff_exists.mp hsome
  obtain ⟨rfl, rfl⟩ := toString_spec h heq
  rw [heq, unread, written, List.drop_take]

/-- The readable bytes, block by block. -/
theorem Wf.unread_eq (h : ba.Wf) :
    ba.unread = ((contents ba.chain).drop (ba.position % ba.baseSize)).take
      (ba.size - ba.position) := by
  rw [unread, written, List.drop_take, h.drop_storage]

/-- The first block to its end, the others from their starts. -/
theorem Wf.writesReadable_of_fillsBlock (h : ba.Wf) (hfills : FillsBlock ba) :
    WritesReadable ba := by
  have hpos := h.position_le
  have hfit := (h.fits_chain_iff (ba.size - ba.position)).mpr (by have := h.size_le; omega)
  have hmod := Nat.mod_lt ba.position h.base_pos
  unfold WritesReadable writeToFile
  rw [h.getReadSize_eq, h.toString_eq, h.unread_eq]
  rcases hfills with hnone | ⟨hint, haligned | hlong⟩
  · rw [hnone, Nat.sub_self]
    exact ⟨[], fileLoop_zero _ _, by simp, rfl, by simp⟩
  · obtain ⟨calls, hcalls, hbytes, hpositive⟩ := fileLoop_aligned h.base_pos h.chain_uniform
      haligned (r := ba.size - ba.position) (by omega)
    exact ⟨calls, hcalls, by rw [hbytes, haligned, List.drop_zero], rfl, hpositive⟩
  · have huniform := h.chain_uniform
    cases hchain : ba.chain with
    | nil =>
        rw [hchain] at hfit
        simp only [List.length_nil, Nat.mul_zero] at hfit
        have hbase := h.base_pos
        omega
    | cons node rest =>
        rw [hchain, mul_length_cons] at hfit
        rw [hchain] at huniform
        have hsize : node.size = ba.baseSize := huniform node List.mem_cons_self
        have hlen : node.ptr.length = ba.baseSize := hsize
        have hturn := fileLoop_turn (r := ba.size - ba.position) rest hsize
          (by have := h.base_pos; omega) hint
        have hnext : (ba.position + ((min (ba.size - ba.position) ba.baseSize : Nat) -
            (ba.position % ba.baseSize : Nat)) : Int) =
            (ba.position + (ba.baseSize - ba.position % ba.baseSize) : Nat) := by
          omega
        have hleft : ((ba.size - ba.position : Nat) -
            ((min (ba.size - ba.position) ba.baseSize : Nat) -
              (ba.position % ba.baseSize : Nat)) : Int) =
            (ba.size - ba.position - (ba.baseSize - ba.position % ba.baseSize) : Nat) := by
          omega
        have hstart : (ba.position + (ba.baseSize - ba.position % ba.baseSize)) % ba.baseSize =
            0 := by
          have hdm := Nat.div_add_mod ba.position ba.baseSize
          have hmul : ba.position + (ba.baseSize - ba.position % ba.baseSize) =
              ba.baseSize * (ba.position / ba.baseSize + 1) := by
            rw [Nat.mul_succ]
            omega
          rw [hmul, Nat.mul_mod_right]
        rw [hnext, hleft] at hturn
        obtain ⟨calls, hcalls, hbytes, hpositive⟩ := fileLoop_aligned h.base_pos
          huniform.tail hstart
          (r := ba.size - ba.position - (ba.baseSize - ba.position % ba.baseSize)) (by omega)
        refine ⟨_, by rw [hturn, hcalls]; rfl, ?_, rfl, ?_⟩
        · rw [slice_across_first rest (by omega) (by omega), List.map_cons, List.flatten_cons,
            hbytes, hlen, Nat.min_eq_right hlong]
        · intro call hmem
          rcases List.mem_cons.mp hmem with rfl | hmem
          · dsimp only
            omega
          · exact hpositive call hmem

/-- **`writeToFile`** of a reachable state writes the readable bytes if they start or end
their block; with blocks of at most 4 GiB it does so only then. -/
theorem writesReadable_iff (h : Reachable ba) :
    (FillsBlock ba → WritesReadable ba) ∧
      (ba.baseSize ≤ 2 ^ 32 → WritesReadable ba → FillsBlock ba) := by
  refine ⟨h.wf.writesReadable_of_fillsBlock, ?_⟩
  intro hsmall hwrites
  obtain ⟨calls, hcalls, _, _, hpositive⟩ := hwrites
  have hpos := h.wf.position_le
  unfold writeToFile at hcalls
  rw [h.wf.getReadSize_eq] at hcalls
  by_contra hnot
  unfold FillsBlock at hnot
  obtain ⟨call, hmem, hneg⟩ := fileLoop_wrong h.wf.base_pos hsmall h.wf.chain_uniform (by omega)
    (fun hcond => hnot (Or.inr hcond)) hcalls
  have hnonneg := hpositive call hmem
  omega

/-- Blocks of two bytes, five bytes written, the cursor at 1: the readable bytes fill the
first block. -/
theorem writesReadable_iff_two :
    ∃ ba outs, Machine.run change (new 2 fun _ => 0)
        [.write [1, 2], .write [3, 4, 5], .setPosition 1] = some (outs, ba) ∧
      ba.unread = [2, 3, 4, 5] ∧ WritesReadable ba := by
  have hrun : (Machine.run change (new 2 fun _ => 0)
      [.write [1, 2], .write [3, 4, 5], .setPosition 1]).any
      (fun r => decide (r.2.unread = [2, 3, 4, 5] ∧ FillsBlock r.2)) = true := by
    decide
  obtain ⟨⟨outs, ba⟩, hba, hcond⟩ := (Option.any_eq_true _ _).mp hrun
  obtain ⟨hunread, hfills⟩ := of_decide_eq_true hcond
  exact ⟨ba, outs, hba, hunread, (writesReadable_iff ⟨2, _, _, _, by decide, hba⟩).1 hfills⟩

/-- One block of four bytes, three bytes written, the cursor at 1: the first call writes
one of the two readable bytes, and the second one would start in the next block. -/
theorem not_writesReadable_inside :
    ∃ ba outs, Machine.run change (new 4 fun _ => 0) [.write [1, 2, 3], .setPosition 1] =
        some (outs, ba) ∧
      ba.unread = [2, 3] ∧ ba.writeToFile.isNone ∧ ¬ WritesReadable ba := by
  have hrun : (Machine.run change (new 4 fun _ => 0) [.write [1, 2, 3], .setPosition 1]).any
      (fun r => decide (r.2.unread = [2, 3] ∧ r.2.writeToFile.isNone)) = true := by
    decide
  obtain ⟨⟨outs, ba⟩, hba, hcond⟩ := (Option.any_eq_true _ _).mp hrun
  obtain ⟨hunread, hnone⟩ := of_decide_eq_true hcond
  refine ⟨ba, outs, hba, hunread, hnone, ?_⟩
  intro hwrites
  obtain ⟨calls, hcalls, _⟩ := hwrites
  rw [Option.isNone_iff_eq_none.mp hnone] at hcalls
  cases hcalls

end ByteArray

end Mingo
