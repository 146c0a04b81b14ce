import Mingo.ByteArray.Bounds

/-!
# The members that are given a position

`read(buf, size, position)` and `getReadBuffers(buffers, len, position)` take a
position of their own, and each of them uses the cursor for one half of its work:
the first starts in the cursor's block and walks from the offset that `position`
has in its own block, the second cuts the length down to what is readable behind
the cursor and walks from the right place.

* `readsSlice_iff` -- when the positional `read` is a read at `position`;
* `viewsSlice_iff` -- when the positional `getReadBuffers` is a view from
  `position` on.
-/

namespace Mingo

namespace ByteArray

variable {ba : ByteArray} {n position : Nat}

/-! ### Reading at a position -/

/-- What the positional `read` is for: it throws exactly when the bytes are not all
there, otherwise it returns them; the array stays as it is. -/
def ReadsSlice (n position : Nat) (ba : ByteArray) : Prop :=
  if position > ba.size ∨ n > ba.size - position then
    ∃ e, readAt n position ba = some (.error e, ba)
  else readAt n position ba = some (.ok ((ba.storage.drop position).take n), ba)

/-- Where the positional `read` starts: at the offset of `position`, but in the block of
the cursor. -/
def readStart (position : Nat) (ba : ByteArray) : Nat :=
  ba.baseSize * (ba.position / ba.baseSize) + position % ba.baseSize

/-- The condition under which the start does not matter: the wrapped difference is
still too small for a position behind the end, and for a position inside there is a
block at the cursor and the bytes from the start on are those at the position. -/
def SameBytes (n position : Nat) (ba : ByteArray) : Prop :=
  if position > ba.size then n > subSize ba.size position
  else n ≤ ba.size - position →
    ba.position < ba.capacity ∧ ba.readStart position + n ≤ ba.capacity ∧
      (ba.storage.drop (ba.readStart position)).take n = (ba.storage.drop position).take n

instance (n position : Nat) (ba : ByteArray) : Decidable (SameBytes n position ba) := by
  unfold SameBytes
  infer_instance

/-- The chain from the cursor on, read at any offset of a block. -/
theorem Wf.drop_readStart (h : ba.Wf) (position : Nat) :
    ba.storage.drop (ba.readStart position) =
      (contents ba.chain).drop (position % ba.baseSize) := by
  rw [h.chain_eq]
  exact h.drop_block h.index_le _

theorem Wf.fits_readStart_iff (h : ba.Wf) (n position : Nat) :
    position % ba.baseSize + n ≤ ba.baseSize * ba.chain.length ↔
      ba.readStart position + n ≤ ba.capacity := by
  have hcapacity := h.capacity_split
  unfold readStart
  omega

/-- The loop of the positional `read` returns the bytes from its start on. -/
theorem Wf.readLoop_at_iff (h : ba.Wf) (n position : Nat) (bytes : List UInt8) :
    (∃ k, readLoop ba.chain (position % ba.baseSize) n = some (bytes, k)) ↔
      ba.position < ba.capacity ∧ ba.readStart position + n ≤ ba.capacity ∧
        (ba.storage.drop (ba.readStart position)).take n = bytes := by
  have hmod := Nat.mod_lt position h.base_pos
  have hsome := ByteArray.readLoop_isSome_iff (n := n) h.base_pos h.chain_uniform hmod
  rw [h.chain_ne_nil_iff, h.fits_readStart_iff] at hsome
  constructor
  · intro hex
    obtain ⟨k, hloop⟩ := hex
    obtain ⟨_, hbytes, _⟩ := readLoop_spec h.base_pos h.chain_uniform hmod hloop
    obtain ⟨hcur, hfit⟩ := hsome.mp (by rw [hloop]; rfl)
    exact ⟨hcur, hfit, by rw [hbytes, h.drop_readStart]⟩
  · intro hcond
    obtain ⟨hcur, hfit, hbytes⟩ := hcond
    obtain ⟨⟨found, k⟩, hloop⟩ := Option.isSome_iff_exists.mp (hsome.mpr ⟨hcur, hfit⟩)
    obtain ⟨_, hfound, _⟩ := readLoop_spec h.base_pos h.chain_uniform hmod hloop
    rw [← h.drop_readStart, hbytes] at hfound
    exact ⟨k, by rw [hloop, hfound]⟩

/-- **The positional `read`** of a reachable state reads at its position exactly if the
block of the cursor holds the same bytes. -/
theorem readsSlice_iff (h : Reachable ba) (n position : Nat) :
    ReadsSlice n position ba ↔ SameBytes n position ba := by
  have hwf := h.wf
  unfold ReadsSlice SameBytes
  by_cases hbehind : position > ba.size
  · rw [if_pos (Or.inl hbehind), if_pos hbehind]
    unfold readAt
    constructor
    · intro hthrow
      obtain ⟨e, hread⟩ := hthrow
      split at hread
      · assumption
      · split at hread <;> cases hread
    · intro hlarge
      exact ⟨_, if_pos hlarge⟩
  · rw [if_neg hbehind]
    have hsub : subSize ba.size position = ba.size - position := subSize_of_le (by omega)
    unfold readAt
    rw [hsub]
    by_cases hlong : n > ba.size - position
    · rw [if_pos (Or.inr hlong), if_pos hlong]
      constructor
      · intro _ hle
        omega
      · intro _
        exact ⟨_, rfl⟩
    · rw [if_neg (by omega), if_neg hlong]
      have hloop := hwf.readLoop_at_iff n position ((ba.storage.drop position).take n)
      constructor
      · intro hread _
        refine hloop.mp ?_
        split at hread
        · cases hread
        · next bytes k heq =>
            cases hread
            exact ⟨k, heq⟩
      · intro hsame
        obtain ⟨k, heq⟩ := hloop.mpr (hsame (by omega))
        rw [heq]

/-- Inside the block of the cursor the positional `read` is right. -/
theorem sameBytes_of_same_block (hwf : ba.Wf) (hcur : ba.position < ba.capacity)
    (hblock : position / ba.baseSize = ba.position / ba.baseSize) (hle : position ≤ ba.size) :
    SameBytes n position ba := by
  have hstart : ba.readStart position = position := by
    rw [readStart, ← hblock, Nat.div_add_mod]
  have hsize := hwf.size_le
  unfold SameBytes
  rw [if_neg (by omega), hstart]
  intro hn
  exact ⟨hcur, by omega, rfl⟩

/-- Blocks of two bytes, five bytes written and the cursor moved back to offset 2: the
positional `read` of offset 3 stays in the block of the cursor. -/
theorem readsSlice_iff_same_block :
    ∃ ba outs, Machine.run change (new 2 fun _ => 0)
        [.write [1, 2], .write [3, 4, 5], .setPosition 2] = some (outs, ba) ∧
      ReadsSlice 2 3 ba := by
  have hrun : (Machine.run change (new 2 fun _ => 0)
      [.write [1, 2], .write [3, 4, 5], .setPosition 2]).any
      (fun r => decide (r.2.position < r.2.capacity ∧
        3 / r.2.baseSize = r.2.position / r.2.baseSize ∧ 3 ≤ r.2.size)) = true := by
    decide
  obtain ⟨⟨outs, ba⟩, hba, hcond⟩ := (Option.any_eq_true _ _).mp hrun
  obtain ⟨hcur, hblock, hle⟩ := of_decide_eq_true hcond
  have hreach : Reachable ba := ⟨2, _, _, _, by decide, hba⟩
  exact ⟨ba, outs, hba, (readsSlice_iff hreach 2 3).mpr
    (sameBytes_of_same_block hreach.wf hcur hblock hle)⟩

/-- The same bytes with the cursor at the start: reading one byte at offset 2 returns the
first byte, and at offset 6, behind the end, nothing is thrown. -/
theorem not_readsSlice_other_block :
    ∃ ba outs, Machine.run change (new 2 fun _ => 0)
        [.write [1, 2], .write [3, 4, 5], .setPosition 0] = some (outs, ba) ∧
      ba.written = [1, 2, 3, 4, 5] ∧
      readAt 1 2 ba = some (.ok [1], ba) ∧ ¬ ReadsSlice 1 2 ba ∧
      readAt 1 6 ba = some (.ok [1], ba) ∧ ¬ ReadsSlice 1 6 ba := by
  have hrun : (Machine.run change (new 2 fun _ => 0)
      [.write [1, 2], .write [3, 4, 5], .setPosition 0]).any
      (fun r => decide (r.2.size = 5 ∧ r.2.written = [1, 2, 3, 4, 5] ∧
        (r.2.storage.drop 2).take 1 = [3] ∧
        readLoop r.2.chain (2 % r.2.baseSize) 1 = some ([1], 0) ∧
        readLoop r.2.chain (6 % r.2.baseSize) 1 = some ([1], 0))) = true := by
    decide
  obtain ⟨⟨outs, ba⟩, hba, hcond⟩ := (Option.any_eq_true _ _).mp hrun
  obtain ⟨hsize, hwritten, hslice, hloop, hloop'⟩ := of_decide_eq_true hcond
  dsimp only at hsize hslice hloop hloop'
  have hat : readAt 1 2 ba = some (.ok [1], ba) := by
    unfold readAt
    rw [hsize, if_neg (by decide), hloop]
  have hbehind : readAt 1 6 ba = some (.ok [1], ba) := by
    unfold readAt
    rw [hsize, if_neg (by decide), hloop']
  refine ⟨ba, outs, hba, hwritten, hat, ?_, hbehind, ?_⟩
  · unfold ReadsSlice
    rw [hsize, if_neg (by decide), hat, hslice]
    intro h
    cases h
  · unfold ReadsSlice
    rw [hsize, if_pos (by decide), hbehind]
    intro h
    obtain ⟨e, he⟩ := h
    cases he

/-! ### Segments from a position on -/

/-- What the positional `getReadBuffers` is for: it completes, and its segments are the
bytes from `position` on, no more than are valid and as many as it says. -/
def ViewsSlice (len position : Nat) (ba : ByteArray) : Prop :=
  ∃ iovs total, getReadBuffersAt len position ba = some (.ok (iovs, total), ba) ∧
    (iovs.map ba.bytesOf).flatten = (ba.storage.drop position).take total ∧
    position + total ≤ ba.size ∧ (iovs.map IoVec.len).sum = total

/-- The length that is walked over, cut down behind the cursor, fits behind the position
as well. -/
def FitsBehind (len position : Nat) (ba : ByteArray) : Prop :=
  min len (ba.size - ba.position) = 0 ∨
    position + min len (ba.size - ba.position) ≤ ba.size

instance (len position : Nat) (ba : ByteArray) : Decidable (FitsBehind len position ba) := by
  unfold FitsBehind
  infer_instance

/-- The segments have the announced total length. -/
theorem buffersLoop_sum {b : Nat} {chain : List Node} (hu : Uniform b chain) :
    ∀ {i npos n : Nat} {iovs : List IoVec}, buffersLoop chain i npos n = some iovs →
      (iovs.map IoVec.len).sum = n := by
  induction chain with
  | nil =>
      intro i npos n iovs h
      cases h
  | cons node rest ih =>
      intro i npos n iovs h
      unfold buffersLoop at h
      dsimp only at h
      split at h
      · next hzero =>
          cases h
          exact hzero.symm
      · split at h
        · cases h
          simp
        · obtain ⟨tail, htail, heq⟩ := Option.map_eq_some_iff.mp h
          subst heq
          have hsum := ih hu.tail htail
          rw [List.map_cons, List.sum_cons, hsum]
          dsimp only
          omega

/-- The positional `getReadBuffers` by cases on the length it walks over. -/
theorem Wf.getReadBuffersAt_eq (h : ba.Wf) (len position : Nat) :
    getReadBuffersAt len position ba =
      if min len (ba.size - ba.position) = 0 then some (.ok ([], 0), ba)
      else (buffersLoop (ba.nodes.drop (position / ba.baseSize)) (position / ba.baseSize)
        (position % ba.baseSize) (min len (ba.size - ba.position))).map
          fun iovs => (.ok (iovs, min len (ba.size - ba.position)), ba) := by
  have hmin : (if len > ba.size - ba.position then ba.size - ba.position else len) =
      min len (ba.size - ba.position) := by
    rw [Nat.min_def]
    split <;> split <;> omega
  unfold getReadBuffersAt
  simp only [h.getReadSize_eq, hmin]
  split
  · rfl
  · split
    · next hnone => rw [hnone]; rfl
    · next hsome => rw [hsome]; rfl

/-- **The positional `getReadBuffers`** of a reachable state shows the bytes from a valid
position on exactly if the length it takes from the cursor fits there. -/
theorem viewsSlice_iff (h : Reachable ba) (len : Nat) (hle : position ≤ ba.size) :
    ViewsSlice len position ba ↔ FitsBehind len position ba := by
  have hwf := h.wf
  have hcap : position ≤ ba.capacity := Nat.le_trans hle hwf.size_le
  unfold ViewsSlice FitsBehind
  rw [hwf.getReadBuffersAt_eq]
  by_cases hzero : min len (ba.size - ba.position) = 0
  · rw [if_pos hzero]
    constructor
    · intro _
      exact Or.inl hzero
    · intro _
      exact ⟨[], 0, rfl, by simp, hle, rfl⟩
  · rw [if_neg hzero]
    constructor
    · intro hview
      obtain ⟨iovs, total, hbuffers, _, hfit, _⟩ := hview
      obtain ⟨found, _, heq⟩ := Option.map_eq_some_iff.mp hbuffers
      cases heq
      exact Or.inr hfit
    · intro hfits
      have hfit := hfits.resolve_left hzero
      have hmod := Nat.mod_lt position hwf.base_pos
      have hdm := Nat.div_add_mod position ba.baseSize
      have hindex : position / ba.baseSize < ba.nodes.length := by
        apply Nat.div_lt_of_lt_mul
        rw [← hwf.capacity_eq]
        have hsize := hwf.size_le
        omega
      have hne : ba.nodes.drop (position / ba.baseSize) ≠ [] := by
        rw [Ne, List.drop_eq_nil_iff]
        omega
      have hroom : position % ba.baseSize + min len (ba.size - ba.position) ≤
          ba.baseSize * (ba.nodes.drop (position / ba.baseSize)).length := by
        have hsize := hwf.size_le
        rw [hwf.capacity_eq] at hsize
        rw [List.length_drop, Nat.mul_sub]
        omega
      obtain ⟨iovs, hloop⟩ := Option.isSome_iff_exists.mp
        (buffersLoop_isSome (i := position / ba.baseSize) hwf.base_pos
          (hwf.uniform.drop _) hmod hne hroom)
      have htake : (ba.nodes.take (position / ba.baseSize)).length = position / ba.baseSize := by
        rw [List.length_take, Nat.min_eq_left (Nat.le_of_lt hindex)]
      refine ⟨iovs, _, by rw [hloop]; rfl, ?_, hfit, buffersLoop_sum (hwf.uniform.drop _) hloop⟩
      rw [hwf.drop_storage_at hcap]
      exact buffersLoop_spec hwf.base_pos (List.take_append_drop _ _).symm (hwf.uniform.drop _)
        hmod (by rw [htake]; exact hloop)

/-- Blocks of two bytes, five bytes written, the cursor at 3: two bytes are readable
behind it, and two bytes are there at offset 1. -/
theorem viewsSlice_iff_before_cursor :
    ∃ ba outs, Machine.run change (new 2 fun _ => 0)
        [.write [1, 2], .write [3, 4, 5], .setPosition 3] = some (outs, ba) ∧
      ViewsSlice 9 1 ba := by
  have hrun : (Machine.run change (new 2 fun _ => 0)
      [.write [1, 2], .write [3, 4, 5], .setPosition 3]).any
      (fun r => decide (1 ≤ r.2.size ∧ FitsBehind 9 1 r.2)) = true := by
    decide
  obtain ⟨⟨outs, ba⟩, hba, hcond⟩ := (Option.any_eq_true _ _).mp hrun
  obtain ⟨hle, hfits⟩ := of_decide_eq_true hcond
  exact ⟨ba, outs, hba, (viewsSlice_iff ⟨2, _, _, _, by decide, hba⟩ 9 hle).mpr hfits⟩

/-- With the cursor at the start five bytes are readable, and the view from offset 4 on
walks behind the last block. -/
theorem not_viewsSlice_behind_cursor :
    ∃ ba outs, Machine.run change (new 2 fun _ => 0)
        [.write [1, 2], .write [3, 4, 5], .setPosition 0] = some (outs, ba) ∧
      4 ≤ ba.size ∧ (getReadBuffersAt 5 4 ba).isNone ∧ ¬ ViewsSlice 5 4 ba := by
  have hrun : (Machine.run change (new 2 fun _ => 0)
      [.write [1, 2], .write [3, 4, 5], .setPosition 0]).any
      (fun r => decide (4 ≤ r.2.size ∧ (getReadBuffersAt 5 4 r.2).isNone)) = true := by
    decide
  obtain ⟨⟨outs, ba⟩, hba, hcond⟩ := (Option.any_eq_true _ _).mp hrun
  obtain ⟨hle, hnone⟩ := of_decide_eq_true hcond
  refine ⟨ba, outs, hba, hle, hnone, ?_⟩
  intro hview
  obtain ⟨iovs, total, hsome, _⟩ := hview
  rw [Option.isNone_iff_eq_none.mp hnone] at hsome
  cases hsome

end ByteArray

end Mingo
