import Mingo.ByteArray.Reach
import Mingo.ByteArray.RoundTrip

/-!
# Room and bounds

Two computations of bytearray.cpp go wrong at the end of a block.
`addCapacity` rounds the number of missing blocks up only if the bytes left
over exceed the old room, and `read` looks into the current block before it
looks at the size.

* `makesRoom_iff` -- when `addCapacity` leaves enough room, so that `write` and
  `getWriteBuffers` stay inside the chain;
* `reads_complete_iff` -- when `read` and the typed readers follow no null
  pointer.
-/

namespace Mingo

namespace ByteArray

variable {ba : ByteArray} {n : Nat}

/-! ### The chain from the cursor on -/

theorem Wf.position_le_capacity (h : ba.Wf) : ba.position ≤ ba.capacity :=
  Nat.le_trans h.position_le h.size_le

/-- There is a current block exactly if the cursor is inside the storage. -/
theorem Wf.chain_ne_nil_iff (h : ba.Wf) : ba.chain ≠ [] ↔ ba.position < ba.capacity := by
  rw [h.chain_eq, Ne, List.drop_eq_nil_iff, Nat.not_le, h.capacity_eq,
    Nat.div_lt_iff_lt_mul h.base_pos, Nat.mul_comm]

/-- The chain from the cursor on holds what lies behind the cursor. -/
theorem Wf.fits_chain_iff (h : ba.Wf) (n : Nat) :
    ba.position % ba.baseSize + n ≤ ba.baseSize * ba.chain.length ↔
      ba.position + n ≤ ba.capacity := by
  have hdm := Nat.div_add_mod ba.position ba.baseSize
  have hcapacity := h.capacity_split
  omega

theorem Wf.readLoop_isSome_iff (h : ba.Wf) (n : Nat) :
    (readLoop ba.chain (ba.position % ba.baseSize) n).isSome ↔
      ba.position < ba.capacity ∧ ba.position + n ≤ ba.capacity := by
  rw [ByteArray.readLoop_isSome_iff h.base_pos h.chain_uniform (Nat.mod_lt _ h.base_pos),
    h.chain_ne_nil_iff, h.fits_chain_iff]

/-! ### Making room -/

/-- How many of `n` bytes find no room behind the cursor. -/
def missing (n : Nat) (ba : ByteArray) : Nat := n - (ba.capacity - ba.position)

/-- The condition under which `addCapacity` counts enough blocks: no part of a block
is missing, or the missing part is larger than the old room. -/
def CountsEnough (n : Nat) (ba : ByteArray) : Prop :=
  ba.missing n % ba.baseSize = 0 ∨ ba.capacity - ba.position < ba.missing n % ba.baseSize

instance (n : Nat) (ba : ByteArray) : Decidable (CountsEnough n ba) := by
  unfold CountsEnough
  infer_instance

/-- What `addCapacity` is for: the room is there, and the two callers find it. -/
def MakesRoom (n : Nat) (ba : ByteArray) : Prop :=
  n ≤ (ba.addCapacity n).getCapacity ∧
    (∀ buf : List UInt8, buf.length = n → (write buf ba).isSome) ∧
    (getWriteBuffers n ba).isSome

/-- The room after `addCapacity`. -/
theorem Wf.getCapacity_addCapacity (h : ba.Wf) (n : Nat) :
    (ba.addCapacity n).getCapacity = ba.capacity - ba.position +
      ba.baseSize * (ba.missing n / ba.baseSize +
        if ba.missing n % ba.baseSize > ba.capacity - ba.position then 1 else 0) := by
  rw [(addCapacity_spec h n).1.getCapacity_eq, (addCapacity_spec h n).2.2.1]
  by_cases hroom : n ≤ ba.capacity - ba.position
  · have hsame : ba.addCapacity n = ba := by
      unfold addCapacity
      split
      · rfl
      · exact if_pos (by rw [h.getCapacity_eq]; exact hroom)
    have hzero : ba.missing n = 0 := Nat.sub_eq_zero_of_le hroom
    rw [hsame, hzero]
    simp
  · have hle := h.position_le_capacity
    have hcap : (ba.addCapacity n).capacity = ba.capacity +
        ba.baseSize * (ba.missing n / ba.baseSize +
          if ba.missing n % ba.baseSize > ba.capacity - ba.position then 1 else 0) := by
      unfold addCapacity
      rw [if_neg (by omega), h.getCapacity_eq]
      dsimp only
      rw [if_neg (by omega)]
      obtain ⟨fresh, heap, -, -, hgrow⟩ := grow_spec
        (ba.missing n / ba.baseSize +
          if ba.missing n % ba.baseSize > ba.capacity - ba.position then 1 else 0) ba
      unfold missing at hgrow ⊢
      rw [hgrow]
      split <;> rfl
    rw [hcap]
    omega

/-- The room suffices exactly if enough blocks are counted. -/
theorem Wf.le_getCapacity_addCapacity_iff (h : ba.Wf) (n : Nat) :
    n ≤ (ba.addCapacity n).getCapacity ↔ CountsEnough n ba := by
  have hdm := Nat.div_add_mod (ba.missing n) ba.baseSize
  have hlt := Nat.mod_lt (ba.missing n) h.base_pos
  have hmissing : ba.missing n = n - (ba.capacity - ba.position) := rfl
  rw [h.getCapacity_addCapacity, CountsEnough]
  split
  · next hgt =>
      rw [Nat.mul_succ]
      constructor
      · intro _
        exact Or.inr hgt
      · intro _
        omega
  · next hle =>
      rw [Nat.add_zero]
      constructor
      · intro hfit
        exact Or.inl (by omega)
      · intro henough
        rcases henough with hzero | hgt
        · omega
        · exact absurd hgt hle

/-- With enough room the writing loop stays in the chain. -/
theorem Wf.write_isSome (h : ba.Wf) {buf : List UInt8}
    (hroom : buf.length ≤ (ba.addCapacity buf.length).getCapacity) : (write buf ba).isSome := by
  unfold write
  split
  · rfl
  · next hne =>
      obtain ⟨hwf, _⟩ := addCapacity_spec h buf.length
      rw [hwf.getCapacity_eq] at hroom
      obtain ⟨r, hr⟩ := Option.isSome_iff_exists.mp
        (writeLoop_isSome hwf.base_pos hwf.chain_uniform (Nat.mod_lt _ hwf.base_pos)
          (hwf.chain_ne_nil_iff.mpr (by omega)) ((hwf.fits_chain_iff buf.length).mpr (by omega)))
      dsimp only
      rw [hr]
      rfl

/-- With enough room the segments stay in the chain. -/
theorem Wf.getWriteBuffers_isSome (h : ba.Wf)
    (hroom : n ≤ (ba.addCapacity n).getCapacity) : (getWriteBuffers n ba).isSome := by
  unfold getWriteBuffers
  split
  · rfl
  · next hne =>
      obtain ⟨hwf, _⟩ := addCapacity_spec h n
      rw [hwf.getCapacity_eq] at hroom
      obtain ⟨r, hr⟩ := Option.isSome_iff_exists.mp
        (buffersLoop_isSome (i := (ba.addCapacity n).nodes.length - (ba.addCapacity n).chain.length)
          hwf.base_pos hwf.chain_uniform (Nat.mod_lt _ hwf.base_pos)
          (hwf.chain_ne_nil_iff.mpr (by omega)) ((hwf.fits_chain_iff n).mpr (by omega)))
      dsimp only
      rw [hr]
      rfl

/-- **`addCapacity` makes room** in a reachable state exactly if it counts enough
blocks. -/
theorem makesRoom_iff (h : Reachable ba) (n : Nat) : MakesRoom n ba ↔ CountsEnough n ba := by
  constructor
  · intro hroom
    exact (h.wf.le_getCapacity_addCapacity_iff n).mp hroom.1
  · intro henough
    have hroom := (h.wf.le_getCapacity_addCapacity_iff n).mpr henough
    refine ⟨hroom, ?_, h.wf.getWriteBuffers_isSome hroom⟩
    intro buf hlen
    subst hlen
    exact h.wf.write_isSome hroom

/-- Blocks of four bytes, two bytes written: room for two, seven of nine are missing. -/
theorem makesRoom_iff_nine :
    ∃ ba, Machine.run change (new 4 fun _ => 0) [.write [1, 2]] = some ([()], ba) ∧
      MakesRoom 9 ba := by
  have hrun : (Machine.run change (new 4 fun _ => 0) [.write [1, 2]]).any
      (fun r => decide (r.1 = [()] ∧ CountsEnough 9 r.2)) = true := by
    decide
  obtain ⟨⟨outs, ba⟩, hba, hcond⟩ := (Option.any_eq_true _ _).mp hrun
  obtain ⟨rfl, henough⟩ := of_decide_eq_true hcond
  exact ⟨ba, hba, (makesRoom_iff ⟨4, _, _, _, by decide, hba⟩ 9).mpr henough⟩

/-- In the same state two of four bytes are missing, no block is added, and writing
four bytes follows the null pointer behind the only block. -/
theorem not_makesRoom_four :
    ∃ ba, Machine.run change (new 4 fun _ => 0) [.write [1, 2]] = some ([()], ba) ∧
      ¬ MakesRoom 4 ba ∧ (ba.addCapacity 4).getCapacity = 2 ∧
      (write [3, 4, 5, 6] ba).isNone ∧ (getWriteBuffers 4 ba).isNone := by
  have hrun : (Machine.run change (new 4 fun _ => 0) [.write [1, 2]]).any
      (fun r => decide (r.1 = [()] ∧ (r.2.addCapacity 4).getCapacity = 2 ∧
        (write [3, 4, 5, 6] r.2).isNone ∧ (getWriteBuffers 4 r.2).isNone)) = true := by
    decide
  obtain ⟨⟨outs, ba⟩, hba, hcond⟩ := (Option.any_eq_true _ _).mp hrun
  obtain ⟨rfl, hcap, hwrite, hbuffers⟩ := of_decide_eq_true hcond
  refine ⟨ba, hba, ?_, hcap, hwrite, hbuffers⟩
  intro hroom
  have hfour : 4 ≤ (ba.addCapacity 4).getCapacity := hroom.1
  have htwo : (ba.addCapacity 4).getCapacity = 2 := hcap
  omega

/-! ### Reading up to the end -/

theorem Wf.length_unread (h : ba.Wf) : ba.unread.length = ba.size - ba.position := by
  rw [unread, List.length_drop, h.length_written]

/-- The cursor stands at the end of the storage exactly if all of it is valid and
read. -/
theorem Wf.at_end_iff (h : ba.Wf) :
    ba.position = ba.capacity ↔ ba.size = ba.capacity ∧ ba.unread = [] := by
  have hpos := h.position_le
  have hsize := h.size_le
  rw [← List.length_eq_zero_iff, h.length_unread]
  omega

/-- **`read` within the readable bytes** completes unless it is asked for nothing at
the end of the storage. -/
theorem Wf.read_isSome_iff (h : ba.Wf) (hn : n ≤ ba.getReadSize) :
    (read n ba).isSome ↔ ¬ (n = 0 ∧ ba.position = ba.capacity) := by
  have hloop := h.readLoop_isSome_iff n
  have hpos := h.position_le
  have hsize := h.size_le
  have hread : (read n ba).isSome =
      (readLoop ba.chain (ba.position % ba.baseSize) n).isSome := by
    unfold read
    rw [if_neg (Nat.not_lt.mpr hn)]
    split
    · next heq => rw [heq]; rfl
    · next heq => rw [heq]; rfl
  rw [h.getReadSize_eq] at hn
  rw [hread, hloop]
  omega

/-- The call took `n` bytes off and left everything else alone. -/
structure Took (n : Nat) (ba u : ByteArray) : Prop where
  wf : u.Wf
  size : u.size = ba.size
  capacity : u.capacity = ba.capacity
  unread : u.unread = ba.unread.drop n

/-- Reading at least one byte throws or takes the bytes off. -/
theorem Wf.read_pos (h : ba.Wf) (hn : 0 < n) :
    (ba.unread.length < n ∧ ∃ what, read n ba = some (.error (.outOfRange what), ba)) ∨
    (n ≤ ba.unread.length ∧ ∃ u, read n ba = some (.ok (ba.unread.take n), u) ∧
      Took n ba u) := by
  rw [h.length_unread]
  by_cases hle : n ≤ ba.size - ba.position
  · have hsome : (read n ba).isSome :=
      (h.read_isSome_iff (by rw [h.getReadSize_eq]; exact hle)).mpr (by omega)
    obtain ⟨⟨r, u⟩, hread⟩ := Option.isSome_iff_exists.mp hsome
    rcases read_spec h hread with ⟨hgt, _⟩ | ⟨_, hr, hwf, hst, hb, _, hpos, hsize⟩
    · omega
    · have hbytes : ba.unread.take n = (ba.storage.drop ba.position).take n := by
        rw [ByteArray.unread, written, List.drop_take, List.take_take, Nat.min_eq_left hle]
      refine Or.inr ⟨hle, u, by rw [hread, hr, hbytes], hwf, hsize, ?_, ?_⟩
      · rw [← hwf.length_storage, ← h.length_storage, hst]
      · rw [ByteArray.unread, ByteArray.unread, written, written, hst, hpos, hsize,
          List.drop_drop]
  · refine Or.inl ⟨by omega, "not enough len", ?_⟩
    unfold read
    exact if_pos (by rw [h.getReadSize_eq]; omega)

/-! ### Number fields -/

/-- A reader of a number: it completes in every state, and `zero` are the unread
bytes that it takes off completely and turns into 0. -/
def ReadsField {w : Nat} (p : Prog (BitVec w)) (zero : List UInt8 → Prop) : Prop :=
  ∀ ba : ByteArray, ba.Wf →
    (∃ e u, p ba = some (.error e, u) ∧ ¬ zero ba.unread) ∨
    ∃ v k u, p ba = some (.ok v, u) ∧ Took k ba u ∧
      (v = 0#w ∧ u.unread = [] ↔ zero ba.unread)

theorem ofBytesLE_eq_zero_iff (bytes : List UInt8) :
    Words.ofBytesLE bytes = 0 ↔ bytes = List.replicate bytes.length 0 := by
  induction bytes with
  | nil => simp [Words.ofBytesLE]
  | cons b bs ih =>
      have hb : b.toNat = 0 ↔ b = 0 := by
        rw [← UInt8.toNat_inj]
        rfl
      rw [Words.ofBytesLE, List.length_cons, List.replicate_succ, List.cons.injEq, ← ih, ← hb]
      omega

theorem ofMemory_eq_zero_iff (host : Endian) {bytes : List UInt8} (hlen : bytes.length = n) :
    ofMemory host n bytes = 0#(8 * n) ↔ bytes = List.replicate n 0 := by
  have hvalue : ∀ bs : List UInt8, bs.length = n →
      (BitVec.ofNat (8 * n) (Words.ofBytesLE bs) = 0#(8 * n) ↔ bs = List.replicate n 0) := by
    intro bs hbs
    have hlt : Words.ofBytesLE bs < 2 ^ (8 * n) := by
      have h := Words.ofBytesLE_lt bs
      rwa [hbs, show (256 : Nat) = 2 ^ 8 from rfl, ← Nat.pow_mul] at h
    rw [← BitVec.toNat_inj, BitVec.toNat_ofNat, BitVec.toNat_ofNat, Nat.mod_eq_of_lt hlt,
      Nat.zero_mod, ofBytesLE_eq_zero_iff, hbs]
  cases host with
  | little => exact hvalue bytes hlen
  | big =>
      have h := hvalue bytes.reverse (by rw [List.length_reverse]; exact hlen)
      rw [List.reverse_eq_iff, List.reverse_replicate] at h
      exact h

theorem byteswap_eq_zero_iff (v : BitVec (8 * n)) : byteswap v = 0#(8 * n) ↔ v = 0#(8 * n) := by
  have hzero : byteswap (0#(8 * n)) = 0#(8 * n) := by
    have hlen : (Words.bytesLE n 0).reverse.length = n := by
      rw [List.length_reverse, Words.length_bytesLE]
    rw [byteswap, BitVec.toNat_ofNat, Nat.zero_mod]
    refine (ofMemory_eq_zero_iff .little hlen).mpr ?_
    rw [List.reverse_eq_iff, List.reverse_replicate]
    have h := (ofBytesLE_eq_zero_iff (Words.bytesLE n 0)).mp
      (Words.ofBytesLE_bytesLE (Nat.pow_pos (by decide)))
    rwa [Words.length_bytesLE] at h
  constructor
  · intro h
    rw [← byteswap_byteswap v, h, hzero]
  · intro h
    rw [h, hzero]

/-- Taking off a whole zero field leaves nothing. -/
theorem take_replicate_and_drop_nil_iff (bytes : List UInt8) :
    bytes.take n = List.replicate n 0 ∧ bytes.drop n = [] ↔ bytes = List.replicate n 0 := by
  constructor
  · intro h
    rw [← List.take_append_drop n bytes, h.1, h.2, List.append_nil]
  · intro h
    rw [h]
    simp

/-- The readers of fixed width. -/
theorem readsField_readFixed (host : Endian) (hn : 0 < n) :
    ReadsField (readFixed host n) (fun bytes => bytes = List.replicate n 0) := by
  intro ba h
  rcases h.read_pos hn with ⟨hlt, what, hread⟩ | ⟨hle, u, hread, htook⟩
  · refine Or.inl ⟨_, ba, Prog.bind_of_error hread, ?_⟩
    intro hzero
    rw [hzero, List.length_replicate] at hlt
    exact Nat.lt_irrefl _ hlt
  · have hlen : (ba.unread.take n).length = n := by
      rw [List.length_take, Nat.min_eq_left hle]
    have hmem := ofMemory_eq_zero_iff host hlen
    have hfield := take_replicate_and_drop_nil_iff (n := n) ba.unread
    by_cases hend : u.endian = host
    · refine Or.inr ⟨ofMemory host n (ba.unread.take n), n, u, ?_, htook, ?_⟩
      · refine Prog.bind_eq_some.mpr (Or.inr ⟨_, u, hread, ?_⟩)
        refine Prog.bind_eq_some.mpr (Or.inr ⟨u.endian, u, rfl, ?_⟩)
        rw [if_pos hend]
        rfl
      · rw [hmem, htook.unread, hfield]
    · refine Or.inr ⟨byteswap (ofMemory host n (ba.unread.take n)), n, u, ?_, htook, ?_⟩
      · refine Prog.bind_eq_some.mpr (Or.inr ⟨_, u, hread, ?_⟩)
        refine Prog.bind_eq_some.mpr (Or.inr ⟨u.endian, u, rfl, ?_⟩)
        rw [if_neg hend]
        rfl
      · rw [byteswap_eq_zero_iff, hmem, htook.unread, hfield]

/-- A byte is taken off, if there is one. -/
theorem Wf.readFuint8_cases (h : ba.Wf) :
    (ba.unread = [] ∧ ∃ what, readFuint8 ba = some (.error (.outOfRange what), ba)) ∨
    ∃ b rest u, ba.unread = b :: rest ∧ readFuint8 ba = some (.ok b.toBitVec, u) ∧
      Took 1 ba u := by
  rcases h.read_pos Nat.one_pos with ⟨hlt, what, hread⟩ | ⟨hle, u, hread, htook⟩
  · exact Or.inl ⟨List.length_eq_zero_iff.mp (by omega), what,
      Prog.bind_of_error hread⟩
  · cases hunread : ba.unread with
    | nil =>
        rw [hunread] at hle
        exact absurd hle (by decide)
    | cons b rest =>
        have hval : ofMemory .little 1 [b] = b.toBitVec := by
          apply BitVec.eq_of_toNat_eq
          simp [ofMemory, Words.ofBytesLE]
        rw [hunread] at hread
        refine Or.inr ⟨b, rest, u, rfl, ?_, htook⟩
        refine Prog.bind_eq_some.mpr (Or.inr ⟨_, u, hread, ?_⟩)
        rw [← hval]
        rfl

/-- Both one-byte readers. -/
theorem readsField_readFuint8 : ReadsField readFuint8 (fun bytes => bytes = [0]) := by
  intro ba h
  rcases h.readFuint8_cases with ⟨hnil, what, hread⟩ | ⟨b, rest, u, hunread, hread, htook⟩
  · exact Or.inl ⟨_, ba, hread, by rw [hnil]; simp⟩
  · refine Or.inr ⟨b.toBitVec, 1, u, hread, htook, ?_⟩
    have hb : b.toBitVec = 0#8 ↔ b = 0 := by
      rw [← UInt8.toBitVec_inj]
      rfl
    rw [htook.unread, hunread, hb]
    simp

/-- The bytes are a number of variable length with the value 0, read with the shifts
`is`; more than one spelling has this value. -/
def zeroVarint (w : Nat) : List Nat → List UInt8 → Bool
  | [], bytes => bytes.isEmpty
  | _ :: _, [] => false
  | i :: is, b :: bytes =>
      if b.toBitVec < 0x80#8 then b.toBitVec.setWidth w <<< i == 0#w && bytes.isEmpty
      else (b.toBitVec &&& 0x7F#8).setWidth w <<< i == 0#w && zeroVarint w is bytes

theorem zeroVarint_last {w i : Nat} {is : List Nat} {b : UInt8} {bytes : List UInt8}
    (h : b.toBitVec < 0x80#8) :
    zeroVarint w (i :: is) (b :: bytes) = true ↔
      b.toBitVec.setWidth w <<< i = 0#w ∧ bytes = [] := by
  simp [zeroVarint, h]

theorem zeroVarint_more {w i : Nat} {is : List Nat} {b : UInt8} {bytes : List UInt8}
    (h : ¬ b.toBitVec < 0x80#8) :
    zeroVarint w (i :: is) (b :: bytes) = true ↔
      (b.toBitVec &&& 0x7F#8).setWidth w <<< i = 0#w ∧ zeroVarint w is bytes = true := by
  simp [zeroVarint, h]

/-- The readers of variable length: by induction on the shifts, with the bits
collected so far. -/
theorem readsField_readVarint {w : Nat} (is : List Nat) (result : BitVec w) :
    ReadsField (readVarint is result)
      (fun bytes => result = 0#w ∧ zeroVarint w is bytes = true) := by
  induction is generalizing result with
  | nil =>
      intro ba h
      refine Or.inr ⟨result, 0, ba, rfl, ⟨h, rfl, rfl, rfl⟩, ?_⟩
      simp [zeroVarint]
  | cons i is ih =>
      intro ba h
      rcases h.readFuint8_cases with ⟨hnil, what, hread⟩ | ⟨b, rest, u, hunread, hread, htook⟩
      · refine Or.inl ⟨_, ba, Prog.bind_of_error hread, ?_⟩
        rw [hnil]
        simp [zeroVarint]
      · have hrest : u.unread = rest := by
          rw [htook.unread, hunread]
          rfl
        by_cases hlast : b.toBitVec < 0x80#8
        · have hgo : readVarint (i :: is) result ba =
              some (.ok (result ||| b.toBitVec.setWidth w <<< i), u) := by
            refine (Prog.bind_of_ok hread).trans ?_
            rw [if_pos hlast]
            rfl
          have hzero : result = 0#w ∧ zeroVarint w (i :: is) ba.unread = true ↔
              result ||| b.toBitVec.setWidth w <<< i = 0#w ∧ u.unread = [] := by
            rw [hunread, zeroVarint_last hlast, hrest, BitVec.or_eq_zero_iff, and_assoc]
          exact Or.inr ⟨_, 1, u, hgo, htook, hzero.symm⟩
        · have hgo : readVarint (i :: is) result ba =
              readVarint is (result ||| (b.toBitVec &&& 0x7F#8).setWidth w <<< i) u := by
            refine (Prog.bind_of_ok hread).trans ?_
            rw [if_neg hlast]
          have hzero : result = 0#w ∧ zeroVarint w (i :: is) ba.unread = true ↔
              result ||| (b.toBitVec &&& 0x7F#8).setWidth w <<< i = 0#w ∧
                zeroVarint w is u.unread = true := by
            rw [hunread, zeroVarint_more hlast, hrest, BitVec.or_eq_zero_iff, and_assoc]
          rcases ih (result ||| (b.toBitVec &&& 0x7F#8).setWidth w <<< i) u htook.wf with
            ⟨e, t, herr, hne⟩ | ⟨v, k, t, hok, htook', hiff⟩
          · exact Or.inl ⟨e, t, hgo.trans herr, fun hz => hne (hzero.mp hz)⟩
          · refine Or.inr ⟨v, 1 + k, t, hgo.trans hok, ?_, hiff.trans hzero.symm⟩
            exact ⟨htook'.wf, htook'.size.trans htook.size, htook'.capacity.trans htook.capacity,
              by rw [htook'.unread, htook.unread, List.drop_drop]⟩

/-! ### The typed readers -/

/-- A pure step behind a call changes nothing about its completion. -/
theorem Prog.isSome_map {α β : Type} (p : Prog α) (f : α → β) (ba : ByteArray) :
    ((p >>= fun a => pure (f a)) ba).isSome = (p ba).isSome := by
  cases hp : p ba with
  | none =>
      rw [Prog.bind_of_none hp]
      rfl
  | some r =>
      obtain ⟨res, u⟩ := r
      cases res with
      | error e =>
          rw [Prog.bind_of_error hp]
          rfl
      | ok a =>
          rw [Prog.bind_of_ok hp]
          rfl

section Fields

variable {w : Nat} {p : Prog (BitVec w)} {zero : List UInt8 → Prop}

theorem ReadsField.isSome (hp : ReadsField p zero) (h : ba.Wf) : (p ba).isSome := by
  rcases hp ba h with ⟨e, u, herr, _⟩ | ⟨v, k, u, hok, _⟩
  · rw [herr]
    rfl
  · rw [hok]
    rfl

/-- `read` into a string of the size just read, if there is a string of that size. -/
theorem Wf.readBuffer_isSome_iff (h : ba.Wf) (len : BitVec 64) :
    (readBuffer len ba).isSome ↔ ¬ (len = 0#64 ∧ ba.position = ba.capacity) := by
  have hlen : len = 0#64 ↔ len.toNat = 0 := by
    rw [← BitVec.toNat_inj]
    rfl
  rw [hlen]
  by_cases hlong : StdString.maxSize < len.toNat
  · rw [readBuffer_of_gt hlong]
    exact ⟨fun _ => by omega, fun _ => rfl⟩
  · rw [readBuffer_of_le (Nat.not_lt.mp hlong), Prog.isSome_map]
    by_cases hle : len.toNat ≤ ba.getReadSize
    · exact h.read_isSome_iff hle
    · have hthrow : (read len.toNat ba).isSome := by
        unfold read
        rw [if_pos (by omega)]
        rfl
      exact ⟨fun _ => by omega, fun _ => hthrow⟩

/-- A string reader goes wrong exactly on an empty string whose length field is the
end of the storage. -/
theorem ReadsField.string_isSome_iff (hp : ReadsField p zero) {len : BitVec w → BitVec 64}
    (hlen : ∀ v, len v = 0#64 ↔ v = 0#w) (h : ba.Wf) :
    ((p >>= fun v => readBuffer (len v)) ba).isSome ↔
      ¬ (ba.size = ba.capacity ∧ zero ba.unread) := by
  rcases hp ba h with ⟨e, u, herr, hne⟩ | ⟨v, k, u, hok, htook, hiff⟩
  · rw [Prog.bind_of_error herr]
    exact ⟨fun _ hcond => hne hcond.2, fun _ => rfl⟩
  · rw [Prog.bind_of_ok hok, htook.wf.readBuffer_isSome_iff, hlen, htook.wf.at_end_iff,
      htook.size, htook.capacity, ← hiff]
    tauto

end Fields

/-- These bytes are the length field of an empty string. -/
def Kind.emptyField : Kind → List UInt8 → Bool
  | .stringF16, bytes => bytes == List.replicate 2 0
  | .stringF32, bytes => bytes == List.replicate 4 0
  | .stringF64, bytes => bytes == List.replicate 8 0
  | .stringVint, bytes => zeroVarint 64 [0, 7, 14, 21, 28, 35, 42, 49, 56, 63] bytes
  | _, _ => false

theorem toNat_setWidth_64 {w : Nat} (hw : w ≤ 64) (v : BitVec w) :
    (v.setWidth 64).toNat = v.toNat := by
  rw [BitVec.toNat_setWidth]
  exact Nat.mod_eq_of_lt (Nat.lt_of_lt_of_le v.isLt (Nat.pow_le_pow_right (by decide) hw))

theorem setWidth_eq_zero_iff {w : Nat} (hw : w ≤ 64) (v : BitVec w) :
    v.setWidth 64 = 0#64 ↔ v = 0#w := by
  rw [← BitVec.toNat_inj, ← BitVec.toNat_inj, toNat_setWidth_64 hw]
  simp

/-- **A typed reader** completes unless the unread bytes are the length field of an
empty string and end with the storage. -/
theorem Wf.kind_read_isSome_iff (h : ba.Wf) (host : Endian) (kind : Kind) :
    (kind.read host ba).isSome ↔ ¬ (ba.size = ba.capacity ∧ kind.emptyField ba.unread) := by
  have hnumber : ∀ {α : Type} {q : Prog α} (f : α → Value), (q ba).isSome →
      (((q >>= fun v => pure (f v)) ba).isSome ↔ ¬ (ba.size = ba.capacity ∧ false = true)) := by
    intro α q f hq
    rw [Prog.isSome_map]
    simpa using hq
  have hfixed : ∀ n, 0 < n → (readFixed host n ba).isSome :=
    fun n hn => (readsField_readFixed host hn).isSome h
  have hbyte : (readFuint8 ba).isSome := readsField_readFuint8.isSome h
  have hvar : ∀ {w : Nat} (is : List Nat) (result : BitVec w), (readVarint is result ba).isSome :=
    fun is result => (readsField_readVarint is result).isSome h
  have hstring : ∀ {q : Prog StdString} {f : StdString → Value} {c : Bool},
      ((q ba).isSome ↔ ¬ (ba.size = ba.capacity ∧ c = true)) →
      (((q >>= fun v => pure (f v)) ba).isSome ↔ ¬ (ba.size = ba.capacity ∧ c = true)) := by
    intro q f c hq
    rw [Prog.isSome_map]
    exact hq
  cases kind with
  | fint8 => exact hnumber _ hbyte
  | fuint8 => exact hnumber _ hbyte
  | fint16 => exact hnumber _ (hfixed 2 (by decide))
  | fuint16 => exact hnumber _ (hfixed 2 (by decide))
  | fint32 => exact hnumber _ (hfixed 4 (by decide))
  | fuint32 => exact hnumber _ (hfixed 4 (by decide))
  | fint64 => exact hnumber _ (hfixed 8 (by decide))
  | fuint64 => exact hnumber _ (hfixed 8 (by decide))
  | int32 => exact hnumber _ ((Prog.isSome_map readUint32 _ ba).trans (hvar _ _))
  | uint32 => exact hnumber _ (hvar _ _)
  | int64 => exact hnumber _ ((Prog.isSome_map readUint64 _ ba).trans (hvar _ _))
  | uint64 => exact hnumber _ (hvar _ _)
  | float => exact hnumber _ (hfixed 4 (by decide))
  | double => exact hnumber _ (hfixed 8 (by decide))
  | stringF16 =>
      refine hstring (((readsField_readFixed host (n := 2) (by decide)).string_isSome_iff
        (setWidth_eq_zero_iff (by decide)) h).trans ?_)
      rw [Kind.emptyField, beq_iff_eq]
  | stringF32 =>
      refine hstring (((readsField_readFixed host (n := 4) (by decide)).string_isSome_iff
        (setWidth_eq_zero_iff (by decide)) h).trans ?_)
      rw [Kind.emptyField, beq_iff_eq]
  | stringF64 =>
      refine hstring (((readsField_readFixed host (n := 8) (by decide)).string_isSome_iff
        (fun v => Iff.rfl) h).trans ?_)
      rw [Kind.emptyField, beq_iff_eq]
  | stringVint =>
      refine hstring (((readsField_readVarint _ 0#64).string_isSome_iff
        (fun v => Iff.rfl) h).trans ?_)
      simp [Kind.emptyField]

/-- **Reads within bounds.**  In every reachable state a `read` of at most the readable
bytes completes unless it is a `read` of nothing at the end of the storage, and a typed
reader completes, by returning or by throwing, unless the unread bytes are the length
field of an empty string and end with the storage. -/
theorem reads_complete_iff (h : Reachable ba) :
    (∀ n, n ≤ ba.getReadSize →
      ((read n ba).isSome ↔ ¬ (n = 0 ∧ ba.position = ba.capacity))) ∧
    ∀ host kind, (Kind.read host kind ba).isSome ↔
      ¬ (ba.size = ba.capacity ∧ kind.emptyField ba.unread) :=
  ⟨fun _ hn => h.wf.read_isSome_iff hn, h.wf.kind_read_isSome_iff⟩

/-- A full block of two bytes with the cursor at its start: both bytes can be read as a
number. -/
theorem reads_complete_iff_two :
    ∃ ba outs, Machine.run change (new 2 fun _ => 0) [.write [0, 0], .setPosition 0] =
        some (outs, ba) ∧
      (read 0 ba).isSome ∧ (read 2 ba).isSome ∧ (Kind.read .little .fuint16 ba).isSome := by
  have hrun : (Machine.run change (new 2 fun _ => 0) [.write [0, 0], .setPosition 0]).any
      (fun r => decide (2 ≤ r.2.getReadSize ∧ r.2.position ≠ r.2.capacity)) = true := by
    decide
  obtain ⟨⟨outs, ba⟩, hba, hcond⟩ := (Option.any_eq_true _ _).mp hrun
  obtain ⟨hsize, hpos⟩ := of_decide_eq_true hcond
  obtain ⟨hread, hkind⟩ := reads_complete_iff ⟨2, _, _, _, by decide, hba⟩
  refine ⟨ba, outs, hba, (hread 0 (Nat.zero_le _)).mpr ?_, (hread 2 hsize).mpr ?_,
    (hkind .little .fuint16).mpr ?_⟩
  · exact fun hend => hpos hend.2
  · exact fun hend => absurd hend.1 (by decide)
  · exact fun hend => Bool.false_ne_true hend.2

/-- In the same state the empty string of `readStringF16`, all of whose bytes are there,
ends with a `read` of nothing through the null pointer; so does a plain `read` of
nothing behind the last byte. -/
theorem empty_string_at_end :
    (∃ ba outs, Machine.run change (new 2 fun _ => 0) [.write [0, 0], .setPosition 0] =
        some (outs, ba) ∧ ba.getReadSize = 2 ∧
        (Kind.read .little .stringF16 ba).isNone) ∧
    ∃ ba outs, Machine.run change (new 2 fun _ => 0) [.write [0, 0]] = some (outs, ba) ∧
      0 ≤ ba.getReadSize ∧ (read 0 ba).isNone := by
  have hstring : (Machine.run change (new 2 fun _ => 0) [.write [0, 0], .setPosition 0]).any
      (fun r => decide (r.2.getReadSize = 2 ∧ (Kind.read .little .stringF16 r.2).isNone)) =
        true := by
    decide
  have hread : (Machine.run change (new 2 fun _ => 0) [.write [0, 0]]).any
      (fun r => (read 0 r.2).isNone) = true := by
    decide
  obtain ⟨⟨outs, ba⟩, hba, hcond⟩ := (Option.any_eq_true _ _).mp hstring
  obtain ⟨hsize, hnone⟩ := of_decide_eq_true hcond
  obtain ⟨⟨outs', ba'⟩, hba', hnone'⟩ := (Option.any_eq_true _ _).mp hread
  exact ⟨⟨ba, outs, hba, hsize, hnone⟩, ba', outs', hba', Nat.zero_le _, hnone'⟩

end ByteArray

end Mingo
