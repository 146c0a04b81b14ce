import Mingo.ByteArray.Positional
import Mingo.Stream.Basic

/-!
# Receiving into a byte array

`SocketStream::read` of a byte array does not call `write`: it has the segments
of `getWriteBuffers` filled from outside, at most so many bytes as they hold,
and moves the cursor behind them with `setPosition`.  `Stream::readFixSize`
repeats this until all bytes are there.  Both ways of storing bytes leave what
`Stored` says.  The system refuses a call with more than 1024 segments; this is
left out.

* `scatterLoop_eq` -- filling the segments is the loop of `write`;
* `Wf.scatter_stored`, `readFixSizeLoop_stored` -- what one receive and a
  sequence of receives store;
* `receivesLikeWrite_iff` -- when a receive of every length stores what a
  `write` of the same bytes does.
-/

namespace Mingo

namespace ByteArray

/-! ### The code -/

/-- `recv` of `bytes` into an `iovec` array: one segment after the other is filled. -/
def scatterLoop : List IoVec → List UInt8 → ByteArray → Option ByteArray
  | _, [], ba => some ba
  | [], _ :: _, _ => none
  | iov :: iovs, b :: bytes, ba =>
      (fill iov ((b :: bytes).take iov.len) ba).bind
        (scatterLoop iovs ((b :: bytes).drop iov.len))

/-- The same as a step of a member function. -/
def scatter (iovs : List IoVec) (bytes : List UInt8) : Prog Unit := fun ba =>
  (scatterLoop iovs bytes ba).map fun ba => (.ok (), ba)

end ByteArray

namespace SocketStream

open Mingo.ByteArray

/-- `SocketStream::read` of a byte array: the bytes received and the stream behind
them. -/
def readInto (s : SocketStream) (length : Nat) : Prog (List UInt8 × SocketStream) :=
  if s.connected then do
    let (iovs, _) ← getWriteBuffers length
    let (bs, s) := s.read (iovs.map IoVec.len).sum
    if bs = [] then pure ([], s)
    else do
      scatter iovs bs
      let position ← Prog.get ByteArray.position
      setPosition (position + bs.length)
      pure (bs, s)
  else pure ([], s)

/-- The loop of `readFixSize`; every turn but the last reads a byte, so `left` turns
are enough. -/
def readFixSizeLoop (length : Nat) : Nat → Nat → SocketStream → Prog (Int × SocketStream)
  | _, 0, s => pure (toInt32 length, s)
  | 0, _ + 1, s => pure (0, s)
  | turns + 1, left + 1, s => do
      let (bs, s) ← s.readInto (left + 1)
      if bs = [] then pure (0, s)
      else readFixSizeLoop length turns (left + 1 - bs.length) s

/-- `Stream::readFixSize` of a byte array: its result and the stream. -/
def readFixSizeInto (s : SocketStream) (length : Nat) : Prog (Int × SocketStream) :=
  readFixSizeLoop length length length s

end SocketStream

namespace ByteArray

variable {ba ba' u : ByteArray} {b n : Nat} {bytes more : List UInt8}

/-! ### Filling the segments -/

@[simp]
theorem scatterLoop_nil (iovs : List IoVec) (ba : ByteArray) :
    scatterLoop iovs [] ba = some ba := by
  cases iovs with
  | nil => rfl
  | cons iov iovs => rfl

theorem fill_eq {before rest : List Node} {node : Node} {offset len : Nat}
    (hnodes : ba.nodes = before ++ node :: rest) (hbytes : bytes.length ≤ len)
    (hfit : offset + len ≤ node.size) :
    fill ⟨before.length, offset, len⟩ bytes ba =
      some { ba with nodes := before ++ node.store offset bytes :: rest } := by
  have hget : ba.nodes[before.length]? = some node := by simp [hnodes]
  unfold fill
  simp only [hget]
  rw [if_pos ⟨hbytes, hfit⟩, hnodes, List.set_append_right _ _ (Nat.le_refl _), Nat.sub_self]
  rfl

/-- **Filling the segments is the loop of `write`** on the same blocks, by induction on
the blocks; the bytes may end before the segments do. -/
theorem scatterLoop_eq {chain : List Node} :
    ∀ {before : List Node} {npos n : Nat} {iovs : List IoVec} {bytes : List UInt8}
      {ba : ByteArray}, ba.nodes = before ++ chain → Uniform b chain → npos ≤ b →
      buffersLoop chain before.length npos n = some iovs → bytes.length ≤ n →
      ∃ chain' k, writeLoop chain npos bytes = some (chain', k) ∧
        scatterLoop iovs bytes ba = some { ba with nodes := before ++ chain' } := by
  induction chain with
  | nil =>
      intro before npos n iovs bytes ba _ _ _ h
      cases h
  | cons node rest ih =>
      intro before npos n iovs bytes ba hnodes hu hnpos h hle
      have hsize : node.size = b := hu node List.mem_cons_self
      cases bytes with
      | nil =>
          refine ⟨node :: rest, 0, rfl, ?_⟩
          rw [scatterLoop_nil, ← hnodes]
      | cons c cs =>
          have hpos : ¬ n = 0 := by
            rw [List.length_cons] at hle
            omega
          have hne : ¬ (c :: cs).length = 0 := by simp
          simp only [buffersLoop, hsize, if_neg hpos] at h
          simp only [writeLoop, hsize, if_neg hne]
          split at h
          · next hfit =>
              cases h
              refine ⟨node.store npos (c :: cs) :: rest, _, if_pos (by omega), ?_⟩
              have hfill := fill_eq hnodes hle (show npos + n ≤ node.size by omega)
              rw [scatterLoop, List.take_of_length_le hle, List.drop_eq_nil_of_le hle, hfill]
              rfl
          · next hover =>
              obtain ⟨tail, htail, rfl⟩ := Option.map_eq_some_iff.mp h
              have htake : ((c :: cs).take (b - npos)).length ≤ b - npos := List.length_take_le _ _
              have hfill := fill_eq hnodes htake (show npos + (b - npos) ≤ node.size by omega)
              have hnodes' : ({ ba with
                  nodes := before ++ node.store npos ((c :: cs).take (b - npos)) :: rest }
                    : ByteArray).nodes =
                  (before ++ [node.store npos ((c :: cs).take (b - npos))]) ++ rest := by simp
              by_cases hlast : (c :: cs).length ≤ b - npos
              · have hnil : (c :: cs).drop (b - npos) = [] := List.drop_eq_nil_of_le hlast
                refine ⟨node.store npos (c :: cs) :: rest, _, if_pos hlast, ?_⟩
                rw [scatterLoop, hfill, hnil, List.take_of_length_le hlast, Option.bind_some,
                  scatterLoop_nil]
              · have hdrop : ((c :: cs).drop (b - npos)).length ≤ n - (b - npos) := by
                  rw [List.length_drop]
                  omega
                obtain ⟨rest', k, hwrite, hscatter⟩ := ih hnodes' hu.tail (Nat.zero_le _)
                  (by simpa using htail) hdrop
                refine ⟨node.store npos ((c :: cs).take (b - npos)) :: rest', k + 1, ?_, ?_⟩
                · rw [if_neg hlast, hwrite]
                · rw [scatterLoop, hfill, Option.bind_some, hscatter]
                  simp

/-- The position in the storage of each byte of a segment. -/
def IoVec.positions (base : Nat) (iov : IoVec) : List Nat :=
  List.range' (base * iov.node + iov.offset) iov.len

/-- The segments are a stretch of the storage, each inside its block. -/
theorem buffersLoop_positions {chain : List Node} (hu : Uniform b chain) :
    ∀ {i npos n : Nat} {iovs : List IoVec}, npos ≤ b → buffersLoop chain i npos n = some iovs →
      iovs.flatMap (IoVec.positions b) = List.range' (b * i + npos) n ∧
        ∀ iov ∈ iovs, iov.node < i + chain.length ∧ iov.offset + iov.len ≤ b := by
  induction chain with
  | nil =>
      intro i npos n iovs _ h
      cases h
  | cons node rest ih =>
      intro i npos n iovs hnpos h
      have hsize : node.size = b := hu node List.mem_cons_self
      simp only [buffersLoop, hsize] at h
      split at h
      · next hzero =>
          cases h
          simp [hzero]
      · split at h
        · next hfit =>
            cases h
            refine ⟨by simp [IoVec.positions], ?_⟩
            intro iov hiov
            obtain rfl := List.mem_singleton.mp hiov
            simp only [List.length_cons]
            omega
        · next hover =>
            obtain ⟨tail, htail, rfl⟩ := Option.map_eq_some_iff.mp h
            obtain ⟨hpositions, hinside⟩ := ih hu.tail (Nat.zero_le _) htail
            have hnext : b * (i + 1) + 0 = b * i + npos + (b - npos) := by
              rw [Nat.mul_succ]
              omega
            constructor
            · rw [List.flatMap_cons, hpositions, hnext, IoVec.positions, List.range'_append_1]
              congr 1
              dsimp only
              omega
            · intro iov hiov
              rw [List.length_cons]
              rcases List.mem_cons.mp hiov with rfl | hiov
              · dsimp only
                omega
              · have := hinside iov hiov
                omega

/-- The loop stays in the blocks it completes on. -/
theorem buffersLoop_fits {chain : List Node} (hu : Uniform b chain) :
    ∀ {i npos n : Nat} {iovs : List IoVec}, npos ≤ b → buffersLoop chain i npos n = some iovs →
      npos + n ≤ b * chain.length := by
  induction chain with
  | nil =>
      intro i npos n iovs _ h
      cases h
  | cons node rest ih =>
      intro i npos n iovs hnpos h
      have hsize : node.size = b := hu node List.mem_cons_self
      rw [mul_length_cons]
      simp only [buffersLoop, hsize] at h
      split at h
      · omega
      · split at h
        · omega
        · obtain ⟨tail, htail, -⟩ := Option.map_eq_some_iff.mp h
          have := ih hu.tail (Nat.zero_le _) htail
          omega

/-! ### Reserving and receiving -/

/-- `getWriteBuffers` makes room and changes nothing else. -/
theorem getWriteBuffers_cases (hn : 0 < n) {r : Except Thrown (List IoVec × Nat)}
    (h : getWriteBuffers n ba = some (r, u)) :
    u = ba.addCapacity n ∧ ∃ iovs, r = .ok (iovs, n) ∧
      buffersLoop u.chain (u.nodes.length - u.chain.length) (u.position % u.baseSize) n =
        some iovs := by
  unfold getWriteBuffers at h
  rw [if_neg (by omega)] at h
  dsimp only at h
  split at h
  · cases h
  · next iovs hloop =>
      cases h
      exact ⟨rfl, iovs, rfl, hloop⟩

/-- The room behind the cursor once `getWriteBuffers` has completed. -/
theorem Wf.room_of_getWriteBuffers (h : ba.Wf) (hn : 0 < n)
    (hcall : (getWriteBuffers n ba).isSome) : ba.position + n ≤ (ba.addCapacity n).capacity := by
  obtain ⟨⟨r, u⟩, hu⟩ := Option.isSome_iff_exists.mp hcall
  obtain ⟨rfl, iovs, -, hloop⟩ := getWriteBuffers_cases hn hu
  obtain ⟨hwf, _, hposition, _⟩ := addCapacity_spec h n
  have hfits := buffersLoop_fits hwf.chain_uniform (Nat.le_of_lt (Nat.mod_lt _ hwf.base_pos)) hloop
  rw [← hposition]
  exact (hwf.fits_chain_iff n).mp hfits

/-- `getWriteBuffers` completes exactly if enough blocks are counted. -/
theorem Wf.getWriteBuffers_isSome_iff (h : ba.Wf) (hn : 0 < n) :
    (getWriteBuffers n ba).isSome ↔ CountsEnough n ba := by
  rw [← h.le_getCapacity_addCapacity_iff]
  constructor
  · intro hcall
    have hroom := h.room_of_getWriteBuffers hn hcall
    obtain ⟨hwf, _, hposition, _⟩ := addCapacity_spec h n
    rw [hwf.getCapacity_eq]
    omega
  · exact h.getWriteBuffers_isSome

/-- So does `write`. -/
theorem Wf.write_isSome_iff (h : ba.Wf) :
    (write bytes ba).isSome ↔ CountsEnough bytes.length ba := by
  rw [← h.le_getCapacity_addCapacity_iff]
  refine ⟨fun hcall => ?_, h.write_isSome⟩
  by_cases hzero : bytes.length = 0
  · omega
  · obtain ⟨hwf, _⟩ := addCapacity_spec h bytes.length
    unfold write at hcall
    rw [if_neg hzero] at hcall
    dsimp only at hcall
    split at hcall
    · cases hcall
    · next chain' k hloop =>
        obtain ⟨hfits, _⟩ := writeLoop_spec hwf.base_pos hwf.chain_uniform
          (Nat.mod_lt _ hwf.base_pos) hloop
        have hroom := (hwf.fits_chain_iff _).mp hfits
        rw [hwf.getCapacity_eq]
        omega

/-- **One receive**: the segments of `getWriteBuffers` take the bytes, and `setPosition`
moves the cursor behind them. -/
theorem Wf.scatter_stored (h : ba.Wf) (hn : 0 < n) {iovs : List IoVec} {total : Nat}
    (hcall : getWriteBuffers n ba = some (.ok (iovs, total), u)) (hle : bytes.length ≤ n) :
    ∃ filled ba', scatterLoop iovs bytes u = some filled ∧ filled.position = ba.position ∧
      setPosition (ba.position + bytes.length) filled = some (.ok (), ba') ∧
      Stored bytes ba ba' ∧ ba'.capacity = u.capacity := by
  have hroom := h.room_of_getWriteBuffers hn (by rw [hcall]; rfl)
  obtain ⟨rfl, iovs', heq, hloop⟩ := getWriteBuffers_cases hn hcall
  cases heq
  obtain ⟨hwf, _, hposition, hsize, _, fresh, hstorage⟩ := addCapacity_spec h n
  generalize ba.addCapacity n = u at *
  have hmod := Nat.mod_lt u.position hwf.base_pos
  have hnodes : u.nodes = u.nodes.take (u.nodes.length - u.chain.length) ++ u.chain := by
    rw [hwf.before_length, hwf.chain_eq, List.take_append_drop]
  have hbefore : (u.nodes.take (u.nodes.length - u.chain.length)).length =
      u.nodes.length - u.chain.length := by
    rw [List.length_take, Nat.min_eq_left (Nat.sub_le _ _)]
  obtain ⟨chain', k, hwrite, hscatter⟩ := scatterLoop_eq hnodes hwf.chain_uniform
    (Nat.le_of_lt hmod) (by rw [hbefore]; exact hloop) hle
  obtain ⟨_, hu', hlen', hcont, -⟩ := writeLoop_spec hwf.base_pos hwf.chain_uniform hmod hwrite
  have hlen := hwf.length_splice_chain hlen'
  have hcontents := hwf.contents_splice_chain hcont
  generalize hfilled : ({ u with
    nodes := u.nodes.take (u.nodes.length - u.chain.length) ++ chain' } : ByteArray) = filled
    at hscatter
  have hfilledWf : filled.Wf := by
    subst hfilled
    refine ⟨hwf.base_pos, (hwf.uniform.take _).append hu', ?_, ?_, hwf.position_le, hwf.size_le, ?_⟩
    · exact List.ne_nil_of_length_pos (by rw [hlen]; exact List.length_pos_iff.mpr hwf.root)
    · rw [hlen]
      exact hwf.capacity_eq
    · rw [hwf.cur_eq, nodeAt, nodeAt, hlen]
  have hfilledStorage : filled.storage = (ba.storage ++ fresh).splice ba.position bytes := by
    subst hfilled
    rw [← hstorage, ← hposition]
    exact hcontents
  have hfilledPosition : filled.position = ba.position := by
    subst hfilled
    exact hposition
  have hfilledSize : filled.size = ba.size := by
    subst hfilled
    exact hsize
  have hcapacity : filled.capacity = u.capacity := by
    subst hfilled
    rfl
  rcases setPosition_spec hfilledWf (ba.position + bytes.length) with
    ⟨hgt, _⟩ | ⟨_, ba', hset, hwf', hst, _, _, hpos', hsize'⟩
  · omega
  · refine ⟨filled, ba', hscatter, hfilledPosition, hset, ?_, ?_⟩
    · exact h.written_splice hwf' hpos' (by rw [hsize', hfilledSize]) (hst.trans hfilledStorage)
    · rw [← hwf'.length_storage, ← hcapacity, ← hfilledWf.length_storage, hst]

/-- **`SocketStream::read`** of a byte array stores the bytes it receives, and there is
room for the others that were asked for. -/
theorem readInto_stored (h : ba.Wf) (hn : 0 < n) (hcall : (getWriteBuffers n ba).isSome)
    {s : SocketStream} (hc : s.connected = true) (hne : s.Nonempty) (hu : s.unread ≠ []) :
    ∃ bs s' ba', s.readInto n ba = some (.ok (bs, s'), ba') ∧ bs ≠ [] ∧ bs.length ≤ n ∧
      s'.connected = true ∧ s'.Nonempty ∧ s.unread = bs ++ s'.unread ∧ Stored bs ba ba' ∧
      ba.position + n ≤ ba'.capacity := by
  have hroom := h.room_of_getWriteBuffers hn hcall
  obtain ⟨⟨r, u⟩, hbuffers⟩ := Option.isSome_iff_exists.mp hcall
  obtain ⟨heq, iovs, rfl, hloop⟩ := getWriteBuffers_cases hn hbuffers
  have hsum : (iovs.map IoVec.len).sum = n :=
    buffersLoop_sum (heq ▸ (addCapacity_spec h n).1).chain_uniform hloop
  obtain ⟨bs, s', hread, hbs, hlen, hc', hne', hsplit⟩ := SocketStream.read_spec hn hc hne hu
  obtain ⟨filled, ba', hscatter, hposition, hset, hstored, hcapacity⟩ :=
    h.scatter_stored hn hbuffers hlen
  refine ⟨bs, s', ba', ?_, hbs, hlen, hc', hne', hsplit, hstored, ?_⟩
  swap
  · rw [hcapacity, heq]
    exact hroom
  have hfill : scatter iovs bs u = some (.ok (), filled) := by
    rw [scatter, hscatter]
    rfl
  rw [SocketStream.readInto, if_pos hc, Prog.bind_of_ok hbuffers]
  dsimp only
  rw [hsum, hread]
  dsimp only
  rw [if_neg hbs, Prog.bind_of_ok hfill, Prog.bind_of_ok (Prog.get_apply _ _), hposition,
    Prog.bind_of_ok hset]
  rfl

/-- A reservation that fits needs no new block. -/
theorem Wf.getWriteBuffers_of_fits (h : ba.Wf) (hfit : ba.position + n ≤ ba.capacity) :
    (getWriteBuffers n ba).isSome := by
  refine h.getWriteBuffers_isSome ((h.le_getCapacity_addCapacity_iff n).mpr (.inl ?_))
  rw [missing, Nat.sub_eq_zero_of_le (by omega), Nat.zero_mod]

/-- **The loop of `readFixSize`** stores all it was asked for, however the bytes arrive:
every receive leaves the room the first one made. -/
theorem readFixSizeLoop_stored (length : Nat) {turns left : Nat} {s : SocketStream} (h : ba.Wf)
    (hturns : left ≤ turns) (hcall : 0 < left → (getWriteBuffers left ba).isSome)
    (hc : s.connected = true) (hne : s.Nonempty) (hleft : left ≤ s.unread.length) :
    ∃ s' ba', SocketStream.readFixSizeLoop length turns left s ba =
        some (.ok (toInt32 length, s'), ba') ∧ s'.unread = s.unread.drop left ∧
      Stored (s.unread.take left) ba ba' := by
  induction turns generalizing left s ba with
  | zero =>
      obtain rfl : left = 0 := by omega
      exact ⟨s, ba, rfl, rfl, .nil h⟩
  | succ turns ih =>
      cases left with
      | zero => exact ⟨s, ba, rfl, rfl, .nil h⟩
      | succ left =>
          have hu : s.unread ≠ [] := by
            rw [← List.length_pos_iff]
            omega
          obtain ⟨bs, s', u, hread, hbs, hlen, hc', hne', hsplit, hstored, hroom⟩ :=
            readInto_stored h (Nat.succ_pos left) (hcall (Nat.succ_pos left)) hc hne hu
          have hpos : 0 < bs.length := List.length_pos_iff.mpr hbs
          have htotal : s.unread.length = bs.length + s'.unread.length := by
            rw [hsplit, List.length_append]
          have hmore : (getWriteBuffers (left + 1 - bs.length) u).isSome :=
            hstored.wf.getWriteBuffers_of_fits (by rw [hstored.position]; omega)
          obtain ⟨s'', ba', hloop, hrest, hstored'⟩ :=
            ih hstored.wf (show left + 1 - bs.length ≤ turns by omega) (fun _ => hmore) hc' hne'
              (by omega)
          have htake : s.unread.take (left + 1) = bs ++ s'.unread.take (left + 1 - bs.length) := by
            rw [hsplit, List.take_append, List.take_of_length_le hlen]
          have hdrop : s.unread.drop (left + 1) = s'.unread.drop (left + 1 - bs.length) := by
            rw [hsplit, List.drop_append, List.drop_eq_nil_of_le hlen, List.nil_append]
          refine ⟨s'', ba', ?_, by rw [hrest, hdrop], htake ▸ hstored.append h hstored'⟩
          rw [SocketStream.readFixSizeLoop, Prog.bind_of_ok hread]
          dsimp only
          rw [if_neg hbs]
          exact hloop

/-! ### A receive and a write -/

/-- Two arrays with the same cursor, size and valid bytes. -/
structure SameBuffer (v w : ByteArray) : Prop where
  position : v.position = w.position
  size : v.size = w.size
  written : v.written = w.written

theorem Stored.same {v w : ByteArray} (hv : Stored bytes ba v) (hw : Stored bytes ba w) :
    SameBuffer v w where
  position := hv.position.trans hw.position.symm
  size := hv.size.trans hw.size.symm
  written := hv.written.trans hw.written.symm

/-- The segments of `getWriteBuffers(n)` are the `n` bytes of storage behind the cursor;
storing any number of bytes in front of them and moving the cursor is a `write` of these
bytes, and so is receiving all `n` by `readFixSize`, in whatever pieces they come. -/
structure ReceivesLikeWrite (n : Nat) (ba : ByteArray) : Prop where
  covers : ∀ iovs total u, getWriteBuffers n ba = some (.ok (iovs, total), u) →
    total = n ∧ (iovs.map IoVec.len).sum = n ∧
      iovs.flatMap (IoVec.positions u.baseSize) = List.range' ba.position n ∧
      ∀ iov ∈ iovs, ∃ node, u.nodes[iov.node]? = some node ∧ iov.offset + iov.len ≤ node.size
  scatters : ∀ iovs total u, getWriteBuffers n ba = some (.ok (iovs, total), u) →
    ∀ bytes : List UInt8, 1 ≤ bytes.length → bytes.length ≤ n →
      ∃ filled v w, scatterLoop iovs bytes u = some filled ∧
        setPosition (ba.position + bytes.length) filled = some (.ok (), v) ∧
        write bytes ba = some (.ok (), w) ∧ SameBuffer v w
  receives : n < 2 ^ 31 → ∀ s : SocketStream, s.connected = true → s.Nonempty →
    n ≤ s.unread.length →
      ∃ s' v w, s.readFixSizeInto n ba = some (.ok ((n : Int), s'), v) ∧
        s'.unread = s.unread.drop n ∧ write (s.unread.take n) ba = some (.ok (), w) ∧
        SameBuffer v w

/-- The bytes fit behind the cursor, or no block has room left, or a block is one byte:
then `addCapacity` counts enough blocks for every smaller number of bytes as well. -/
def RoomForAll (n : Nat) (ba : ByteArray) : Prop :=
  n ≤ ba.capacity - ba.position ∨ ba.position = ba.capacity ∨ ba.baseSize = 1

instance (n : Nat) (ba : ByteArray) : Decidable (RoomForAll n ba) := by
  unfold RoomForAll
  infer_instance

theorem Wf.covers (h : ba.Wf) (hn : 0 < n) {iovs : List IoVec} {total : Nat}
    (hcall : getWriteBuffers n ba = some (.ok (iovs, total), u)) :
    total = n ∧ (iovs.map IoVec.len).sum = n ∧
      iovs.flatMap (IoVec.positions u.baseSize) = List.range' ba.position n ∧
      ∀ iov ∈ iovs, ∃ node, u.nodes[iov.node]? = some node ∧
        iov.offset + iov.len ≤ node.size := by
  obtain ⟨rfl, iovs', heq, hloop⟩ := getWriteBuffers_cases hn hcall
  cases heq
  obtain ⟨hwf, _, hposition, _⟩ := addCapacity_spec h n
  generalize ba.addCapacity n = u at *
  have hmod := Nat.le_of_lt (Nat.mod_lt u.position hwf.base_pos)
  obtain ⟨hpositions, hinside⟩ := buffersLoop_positions hwf.chain_uniform hmod hloop
  refine ⟨rfl, buffersLoop_sum hwf.chain_uniform hloop, ?_, ?_⟩
  · rw [hpositions, hwf.before_length, Nat.div_add_mod, hposition]
  · intro iov hiov
    obtain ⟨hnode, hfit⟩ := hinside iov hiov
    have hlt : iov.node < u.nodes.length := by
      have hle : u.chain.length ≤ u.nodes.length := by
        rw [hwf.chain_eq, List.length_drop]
        exact Nat.sub_le _ _
      omega
    refine ⟨u.nodes[iov.node], List.getElem?_eq_getElem hlt, ?_⟩
    rw [hwf.uniform _ (List.getElem_mem hlt)]
    exact hfit

/-- In a state with room for all smaller numbers of bytes, every `write` completes. -/
theorem Wf.write_stored_of_room (h : ba.Wf) (hroom : RoomForAll n ba) (hle : bytes.length ≤ n) :
    ∃ w, write bytes ba = some (.ok (), w) ∧ Stored bytes ba w := by
  have henough : CountsEnough bytes.length ba := by
    unfold CountsEnough missing
    rcases hroom with hfit | hend | hone
    · left
      rw [Nat.sub_eq_zero_of_le (by omega), Nat.zero_mod]
    · rw [hend, Nat.sub_self, Nat.sub_zero]
      omega
    · left
      rw [hone, Nat.mod_one]
  obtain ⟨⟨r, w⟩, hwrite⟩ := Option.isSome_iff_exists.mp (h.write_isSome_iff.mpr henough)
  obtain ⟨rfl, hstored, -⟩ := h.write_stored hwrite
  exact ⟨w, hwrite, hstored⟩

/-- `readFixSize` and `write` of all the bytes. -/
theorem Wf.receives (h : ba.Wf) (hn : 0 < n) (hcall : (getWriteBuffers n ba).isSome)
    (hint : n < 2 ^ 31) {s : SocketStream} (hc : s.connected = true) (hne : s.Nonempty)
    (hleft : n ≤ s.unread.length) :
    ∃ s' v w, s.readFixSizeInto n ba = some (.ok ((n : Int), s'), v) ∧
      s'.unread = s.unread.drop n ∧ write (s.unread.take n) ba = some (.ok (), w) ∧
      SameBuffer v w := by
  obtain ⟨s', v, hloop, hrest, hstored⟩ :=
    readFixSizeLoop_stored n h (Nat.le_refl n) (fun _ => hcall) hc hne hleft
  have hlen : (s.unread.take n).length = n := by
    rw [List.length_take, Nat.min_eq_left hleft]
  have hwrites : (write (s.unread.take n) ba).isSome := by
    rw [h.write_isSome_iff, hlen]
    exact (h.getWriteBuffers_isSome_iff hn).mp hcall
  obtain ⟨⟨r, w⟩, hwrite⟩ := Option.isSome_iff_exists.mp hwrites
  obtain ⟨rfl, hstored', -⟩ := h.write_stored hwrite
  refine ⟨s', v, w, ?_, hrest, hwrite, hstored.same hstored'⟩
  rw [← toInt32_of_lt hint]
  exact hloop

/-- **Receives and writes.**  In every reachable state in which `getWriteBuffers(n)`
completes, a receive is a `write` of the same bytes exactly if there is room for all
smaller numbers of bytes, too; otherwise there is a number for which `write` leaves the
chain of blocks. -/
theorem receivesLikeWrite_iff (h : Reachable ba) (hn : 1 ≤ n)
    (hcall : (getWriteBuffers n ba).isSome) : ReceivesLikeWrite n ba ↔ RoomForAll n ba := by
  have hwf := h.wf
  obtain ⟨⟨r, u⟩, hu⟩ := Option.isSome_iff_exists.mp hcall
  obtain ⟨-, iovs, rfl, -⟩ := getWriteBuffers_cases hn hu
  constructor
  · intro hreceives
    by_contra hroom
    unfold RoomForAll at hroom
    have hinside := hwf.position_le_capacity
    have hbase := hwf.base_pos
    -- one byte more than the old room is missing, and it is not counted
    have hone : (List.replicate (ba.capacity - ba.position + 1) (0 : UInt8)).length =
        ba.capacity - ba.position + 1 := List.length_replicate
    obtain ⟨_, _, w, _, _, hwrite, _⟩ := hreceives.scatters iovs n u hu
      (List.replicate (ba.capacity - ba.position + 1) 0) (by omega) (by omega)
    have henough : CountsEnough (ba.capacity - ba.position + 1) ba := by
      rw [← hone, ← hwf.write_isSome_iff, hwrite]
      rfl
    have hmissing : ba.missing (ba.capacity - ba.position + 1) = 1 := by
      unfold missing
      omega
    rw [CountsEnough, hmissing, Nat.mod_eq_of_lt (by omega)] at henough
    omega
  · intro hroom
    refine ⟨fun iovs total u hu => hwf.covers hn hu, ?_, ?_⟩
    · intro iovs total u hu bytes hpos hle
      obtain ⟨filled, v, hscatter, _, hset, hstored, _⟩ := hwf.scatter_stored hn hu hle
      obtain ⟨w, hwrite, hstored'⟩ := hwf.write_stored_of_room hroom hle
      exact ⟨filled, v, w, hscatter, hset, hwrite, hstored.same hstored'⟩
    · intro hint s hc hne hleft
      exact hwf.receives hn hcall hint hc hne hleft

/-- The cursor at the end of a full block of two bytes: three bytes are received like a
`write`. -/
theorem receivesLikeWrite_iff_full_block :
    ∃ ba outs, Machine.run change (new 2 fun _ => 0) [.write [1, 2]] = some (outs, ba) ∧
      ReceivesLikeWrite 3 ba := by
  have hrun : (Machine.run change (new 2 fun _ => 0) [.write [1, 2]]).any
      (fun r => decide ((getWriteBuffers 3 r.2).isSome ∧ RoomForAll 3 r.2)) = true := by
    decide
  obtain ⟨⟨outs, ba⟩, hba, hcond⟩ := (Option.any_eq_true _ _).mp hrun
  obtain ⟨hcall, hroom⟩ := of_decide_eq_true hcond
  exact ⟨ba, outs, hba,
    (receivesLikeWrite_iff ⟨2, _, _, _, by decide, hba⟩ (by decide) hcall).mpr hroom⟩

/-- Half a block of eight bytes written: nine bytes can be received, but a `write` of the
first five of them finds no block to go on in. -/
theorem not_receivesLikeWrite_nine :
    ∃ ba outs, Machine.run change (new 8 fun _ => 0) [.write [1, 2, 3, 4]] = some (outs, ba) ∧
      (getWriteBuffers 9 ba).isSome ∧ (write [5, 6, 7, 8, 9] ba).isNone ∧
      ¬ ReceivesLikeWrite 9 ba := by
  have hrun : (Machine.run change (new 8 fun _ => 0) [.write [1, 2, 3, 4]]).any
      (fun r => decide ((getWriteBuffers 9 r.2).isSome ∧
        (write [5, 6, 7, 8, 9] r.2).isNone)) = true := by
    decide
  obtain ⟨⟨outs, ba⟩, hba, hcond⟩ := (Option.any_eq_true _ _).mp hrun
  obtain ⟨hcall, hnone⟩ := of_decide_eq_true hcond
  refine ⟨ba, outs, hba, hcall, hnone, fun hreceives => ?_⟩
  obtain ⟨⟨r, u⟩, hu⟩ := Option.isSome_iff_exists.mp hcall
  obtain ⟨-, iovs, rfl, -⟩ := getWriteBuffers_cases (by decide) hu
  obtain ⟨_, _, w, _, _, hwrite, _⟩ :=
    hreceives.scatters iovs 9 u hu [5, 6, 7, 8, 9] (by decide) (by decide)
  rw [hwrite] at hnone
  cases hnone

end ByteArray

end Mingo
