import Mathlib.Data.BitVec
import Mingo.ByteArray.Codec
import Mingo.ByteArray.Spec

/-!
# What is written is read back

A writer is a sequence of calls of `write`, so it stores an encoding at the
cursor (`Stored`); at the end of the valid bytes this appends (`Encodes`).  The
reader of the same type takes the encoding off the unread bytes again
(`Decodes`), wherever the block ends fall.

* `decodes_readFixed`, `decodes_readVarint`, `decodes_readBuffer` -- the three
  encodings: byte order, base 128 and length prefixes;
* `Value.write_eq`, `Value.decodes` -- one typed value;
* `readAll_writeAll` -- any list of values, from a fresh array of any block
  size and in either byte order.
-/

namespace Mingo

/-! ### Byte order and zigzag -/

private theorem pow_256 (n : Nat) : 256 ^ n = 2 ^ (8 * n) := by
  rw [Nat.pow_mul]

/-- A value takes its width in memory. -/
@[simp]
theorem length_memory (host : Endian) {n : Nat} (v : BitVec (8 * n)) :
    (memory host v).length = n := by
  cases host <;> simp [memory]

/-- A value is read from memory as it was stored. -/
@[simp]
theorem ofMemory_memory (host : Endian) {n : Nat} (v : BitVec (8 * n)) :
    ofMemory host n (memory host v) = v := by
  have hv : v.toNat < 256 ^ n := by
    rw [pow_256]
    exact v.isLt
  cases host <;> simp [ofMemory, memory, Words.ofBytesLE_bytesLE hv]

/-- Swapped twice, the bytes are in order again. -/
@[simp]
theorem byteswap_byteswap {n : Nat} (v : BitVec (8 * n)) : byteswap (byteswap v) = v := by
  have hv : v.toNat < 256 ^ n := by
    rw [pow_256]
    exact v.isLt
  have hlt : Words.ofBytesLE (Words.bytesLE n v.toNat).reverse < 2 ^ (8 * n) := by
    have h := Words.ofBytesLE_lt (Words.bytesLE n v.toNat).reverse
    rw [List.length_reverse, Words.length_bytesLE, pow_256] at h
    exact h
  have hdigits := Words.bytesLE_ofBytesLE (Words.bytesLE n v.toNat).reverse
  rw [List.length_reverse, Words.length_bytesLE] at hdigits
  apply BitVec.eq_of_toNat_eq
  rw [byteswap, byteswap, BitVec.toNat_ofNat, BitVec.toNat_ofNat, Nat.mod_eq_of_lt hlt, hdigits,
    List.reverse_reverse, Words.ofBytesLE_bytesLE hv, Nat.mod_eq_of_lt v.isLt]

private theorem mul_two_eq_shiftLeft {w : Nat} (v : BitVec w) : v * 2#w = v <<< 1 := by
  apply BitVec.eq_of_toNat_eq
  rw [BitVec.toNat_mul, BitVec.toNat_shiftLeft, BitVec.toNat_ofNat, Nat.shiftLeft_eq,
    Nat.mul_mod_mod, Nat.pow_one]

/-- Zigzag moves the sign to bit 0 and flips the other bits of a negative
number. -/
theorem encodeZigzag_eq_xor {w : Nat} (v : BitVec w) :
    encodeZigzag v = (v <<< 1) ^^^ (if v.msb then BitVec.allOnes w else 0#w) := by
  rw [encodeZigzag, BitVec.slt_zero_eq_msb, BitVec.neg_mul, mul_two_eq_shiftLeft,
    ← BitVec.not_eq_neg_add]
  cases v.msb <;> simp

/-- The mask that zigzag decoding takes from the low bit. -/
theorem neg_and_one {w : Nat} (e : BitVec w) :
    -(e &&& 1#w) = if e.getLsbD 0 then BitVec.allOnes w else 0#w := by
  have hbit : e &&& 1#w = if e.getLsbD 0 then 1#w else 0#w := by
    apply BitVec.eq_of_getLsbD_eq
    intro i hi
    by_cases hz : i = 0
    · subst hz
      cases h : e.getLsbD 0 <;> simp [h]
    · cases e.getLsbD 0 <;> simp [hz]
  rw [hbit]
  cases e.getLsbD 0
  · simp
  · simpa using BitVec.neg_one_eq_allOnes

/-- **Zigzag is undone**, also at the least integer. -/
@[simp]
theorem decodeZigzag_encodeZigzag {w : Nat} (v : BitVec w) :
    decodeZigzag (encodeZigzag v) = v := by
  apply BitVec.eq_of_getLsbD_eq
  intro i hi
  have hsign : (encodeZigzag v).getLsbD 0 = v.msb := by
    rw [encodeZigzag_eq_xor]
    have hw : 0 < w := by omega
    cases v.msb <;> simp [hw]
  have hmsb : v.msb = v.getLsbD (w - 1) := BitVec.msb_eq_getLsbD_last v
  rw [decodeZigzag, neg_and_one, hsign, encodeZigzag_eq_xor]
  by_cases hlast : i = w - 1
  · subst hlast
    cases hm : v.msb <;> simp <;> grind
  · cases hm : v.msb <;> simp <;> grind

/-! ### Base 128 -/

section Base128

variable {w : Nat}

/-- A word is its seven low bits and the rest. -/
theorem low7_or_rest (v : BitVec w) (i : Nat) :
    (v &&& 0x7F#w) <<< i ||| (v >>> 7) <<< (i + 7) = v <<< i := by
  apply BitVec.eq_of_getLsbD_eq
  intro j hj
  have hmask : (0x7F#w).getLsbD (j - i) = decide (j - i < 7) := by
    have h7 : (0x7F : Nat) = 2 ^ 7 - 1 := rfl
    have hlt : j - i < w := by omega
    rw [BitVec.getLsbD_ofNat, h7, Nat.testBit_two_pow_sub_one]
    simp [hlt]
  simp only [BitVec.getLsbD_or, BitVec.getLsbD_shiftLeft, BitVec.getLsbD_and,
    BitVec.getLsbD_ushiftRight, hmask]
  by_cases hlow : j < i
  · have hlow' : j < i + 7 := by omega
    simp [hlow, hlow']
  · by_cases hmid : j < i + 7
    · have h7 : j - i < 7 := by omega
      simp [hlow, hmid, hj, h7]
    · have h7 : ¬ j - i < 7 := by omega
      have hindex : 7 + (j - (i + 7)) = j - i := by omega
      simp [hlow, hmid, hj, h7, hindex]

/-- A word of eight bits or more holds a byte. -/
theorem two_pow_ge (hw : 8 ≤ w) : 256 ≤ 2 ^ w :=
  Nat.pow_le_pow_right (by decide : 0 < 2) hw

private theorem toNat_low7 (hw : 8 ≤ w) (v : BitVec w) :
    (v &&& 0x7F#w).toNat = v.toNat % 128 := by
  have h256 := two_pow_ge hw
  have hmask : (0x7F : Nat) = 2 ^ 7 - 1 := rfl
  rw [BitVec.toNat_and, BitVec.toNat_ofNat, Nat.mod_eq_of_lt (by omega), hmask,
    Nat.and_two_pow_sub_one_eq_mod]

/-- A byte of a varint that is not the last. -/
theorem toNat_continued (hw : 8 ≤ w) (v : BitVec w) :
    (((v &&& 0x7F#w) ||| 0x80#w).setWidth 8).toNat = v.toNat % 128 + 128 := by
  have h256 := two_pow_ge hw
  have hlt : v.toNat % 128 < 2 ^ 7 := Nat.mod_lt _ (by decide)
  have hor : v.toNat % 128 ||| 128 = v.toNat % 128 + 128 := by
    have h := Nat.two_pow_add_eq_or_of_lt hlt 1
    rw [Nat.or_comm, Nat.add_comm]
    exact h.symm
  rw [BitVec.toNat_setWidth, BitVec.toNat_or, toNat_low7 hw, BitVec.toNat_ofNat,
    Nat.mod_eq_of_lt (by omega : 128 < 2 ^ w), hor]
  omega

/-- The last byte of an encoding carries no mark and is the whole rest. -/
theorem last_byte (hw : 8 ≤ w) {v : BitVec w} (h : ¬ v ≥ 0x80#w) :
    v.setWidth 8 < 0x80#8 ∧ (v.setWidth 8).setWidth w = v := by
  have h256 := two_pow_ge hw
  have hv : v.toNat < 128 := by
    have hlt := BitVec.not_le.mp h
    rw [BitVec.lt_def, BitVec.toNat_ofNat, Nat.mod_eq_of_lt (by omega)] at hlt
    exact hlt
  constructor
  · rw [BitVec.lt_def, BitVec.toNat_setWidth]
    simp
    omega
  · apply BitVec.eq_of_toNat_eq
    rw [BitVec.toNat_setWidth, BitVec.toNat_setWidth,
      Nat.mod_eq_of_lt (by omega : v.toNat < 2 ^ 8), Nat.mod_eq_of_lt v.isLt]

/-- Every other byte is marked and carries the seven low bits. -/
theorem continued_byte (hw : 8 ≤ w) (v : BitVec w) :
    ¬ ((v &&& 0x7F#w) ||| 0x80#w).setWidth 8 < 0x80#8 ∧
      (((v &&& 0x7F#w) ||| 0x80#w).setWidth 8 &&& 0x7F#8).setWidth w = v &&& 0x7F#w := by
  have h256 := two_pow_ge hw
  constructor
  · rw [BitVec.lt_def, toNat_continued hw]
    simp
  · apply BitVec.eq_of_toNat_eq
    rw [BitVec.toNat_setWidth, toNat_low7 (Nat.le_refl 8), toNat_continued hw, toNat_low7 hw,
      Nat.mod_eq_of_lt (by omega)]
    omega

end Base128

namespace ByteArray

/-! ### Storing at the cursor -/

/-- The valid bytes. -/
def written (ba : ByteArray) : List UInt8 := ba.storage.take ba.size

/-- The valid bytes behind the cursor. -/
def unread (ba : ByteArray) : List UInt8 := ba.written.drop ba.position

/-- What was written is as long as the size says. -/
theorem Wf.length_written {ba : ByteArray} (h : ba.Wf) : ba.written.length = ba.size := by
  rw [written, List.length_take, h.length_storage, Nat.min_eq_left h.size_le]

section Stored

variable {ba ba' u : ByteArray} {bytes more : List UInt8}

/-- `bytes` are stored at the cursor of `ba`, which stands behind them afterwards. -/
structure Stored (bytes : List UInt8) (ba ba' : ByteArray) : Prop where
  wf : ba'.Wf
  position : ba'.position = ba.position + bytes.length
  size : ba'.size = max ba.size (ba.position + bytes.length)
  written : ba'.written = ba.written.splice ba.position bytes

/-- Nothing is stored by writing nothing. -/
theorem Stored.nil (h : ba.Wf) : Stored [] ba ba where
  wf := h
  position := rfl
  size := (Nat.max_eq_left h.position_le).symm
  written := (List.splice_nil _ _).symm

/-- Storing goes on where it stopped. -/
theorem Stored.append (hwf : ba.Wf) (h : Stored bytes ba u) (h' : Stored more u ba') :
    Stored (bytes ++ more) ba ba' where
  wf := h'.wf
  position := by rw [h'.position, h.position, List.length_append, Nat.add_assoc]
  size := by
    rw [h'.size, h.size, h.position, List.length_append]
    omega
  written := by
    have hinside : ba.position ≤ ba.written.length := by
      rw [hwf.length_written]
      exact hwf.position_le
    rw [h'.written, h.written, h.position, List.splice_splice _ _ hinside]

/-- The valid bytes after the storage was extended and overwritten at the cursor. -/
theorem Wf.written_splice (h : ba.Wf) {fresh : List UInt8} (hwf : ba'.Wf)
    (hposition : ba'.position = ba.position + bytes.length)
    (hsize : ba'.size = max ba.size (ba.position + bytes.length))
    (hstorage : ba'.storage = (ba.storage ++ fresh).splice ba.position bytes) :
    Stored bytes ba ba' := by
  have hinside : ba.size ≤ ba.storage.length := by
    rw [h.length_storage]
    exact h.size_le
  refine ⟨hwf, hposition, hsize, ?_⟩
  rw [written, hstorage, hsize, List.take_splice _ h.position_le hinside, written]

/-- **`write`** stores its bytes. -/
theorem Wf.write_stored (h : ba.Wf) {r : Except Thrown Unit}
    (hwrite : write bytes ba = some (r, ba')) :
    r = .ok () ∧ Stored bytes ba ba' ∧ ba'.endian = ba.endian := by
  obtain ⟨hr, hwf, _, hendian, hposition, hsize, fresh, _, hstorage⟩ := write_spec h hwrite
  exact ⟨hr, h.written_splice hwf hposition hsize hstorage, hendian⟩

end Stored

/-! ### Appending and taking off -/

/-- A program that, at the end of the valid bytes, appends `bs` to them. -/
def Encodes (e : Endian) (p : Prog Unit) (bs : List UInt8) : Prop :=
  ∀ ⦃ba ba' : ByteArray⦄ ⦃r : Except Thrown Unit⦄,
    ba.Wf → ba.endian = e → ba.position = ba.size → p ba = some (r, ba') →
    r = .ok () ∧ ba'.Wf ∧ ba'.endian = e ∧ ba'.position = ba'.size ∧
      ba'.written = ba.written ++ bs

/-- A program that takes `bs` off the front of the unread bytes and returns
`a`. -/
def Decodes {α : Type} (e : Endian) (p : Prog α) (bs : List UInt8) (a : α) : Prop :=
  ∀ ⦃ba ba' : ByteArray⦄ ⦃r : Except Thrown α⦄ ⦃tail : List UInt8⦄,
    ba.Wf → ba.endian = e → ba.unread = bs ++ tail → p ba = some (r, ba') →
    r = .ok a ∧ ba'.Wf ∧ ba'.endian = e ∧ ba'.unread = tail

section Compose

variable {e : Endian} {α β : Type}

/-- Nothing is read by a program that returns. -/
theorem Decodes.nil (a : α) : Decodes e (pure a) [] a := by
  intro ba ba' r tail hwf he hrest h
  obtain ⟨rfl, rfl⟩ := Prod.mk.inj (Option.some.inj h)
  exact ⟨rfl, hwf, he, hrest⟩

/-- One program behind the other reads one text behind the other. -/
theorem Decodes.bind {p : Prog α} {f : α → Prog β} {bs cs : List UInt8} {a : α} {b : β}
    (hp : Decodes e p bs a) (hf : Decodes e (f a) cs b) : Decodes e (p >>= f) (bs ++ cs) b := by
  intro ba ba' r tail hwf he hrest h
  rw [List.append_assoc] at hrest
  rcases Prog.bind_eq_some.mp h with ⟨err, herr, _⟩ | ⟨a', mid, hfirst, hsecond⟩
  · obtain ⟨hok, _⟩ := hp hwf he hrest herr
    cases hok
  · obtain ⟨hok, hwf', he', hrest'⟩ := hp hwf he hrest hfirst
    cases hok
    exact hf hwf' he' hrest' hsecond

/-- A pure step behind a reader. -/
theorem Decodes.map {p : Prog α} {f : α → β} {bs : List UInt8} {a : α}
    (hp : Decodes e p bs a) : Decodes e (p >>= fun x => pure (f x)) bs (f a) := by
  have h : Decodes e (p >>= fun x => pure (f x)) (bs ++ []) (f a) := hp.bind (Decodes.nil (f a))
  rwa [List.append_nil] at h

end Compose

/-- **`read` takes off** the bytes it returns. -/
theorem decodes_read (e : Endian) (bs : List UInt8) : Decodes e (read bs.length) bs bs := by
  intro ba ba' r tail hwf he hrest h
  have hlen : ba.size - ba.position = bs.length + tail.length := by
    have hl := congrArg List.length hrest
    rwa [unread, List.length_drop, hwf.length_written, List.length_append] at hl
  rcases read_spec hwf h with ⟨hgt, _⟩ | ⟨hle, hr, hwf', hst, _, hend, hpos, hsize⟩
  · omega
  · have hslice : (ba.storage.drop ba.position).take bs.length = bs := by
      have hshort : (ba.storage.drop ba.position).take bs.length =
          ba.unread.take bs.length := by
        rw [unread, written, List.drop_take, List.take_take, Nat.min_eq_left hle]
      rw [hshort, hrest, List.take_left']
      rfl
    refine ⟨by rw [hr, hslice], hwf', hend.trans he, ?_⟩
    have hdrop : ba'.unread = ba.unread.drop bs.length := by
      rw [unread, unread, written, written, hst, hpos, hsize, List.drop_drop]
    rw [hdrop, hrest, List.drop_left']
    rfl

/-! ### The encodings -/

section Encodings

variable (host e : Endian)

/-- The byte order is read without a byte. -/
theorem decodes_endian : Decodes e (Prog.get ByteArray.endian) [] e := by
  intro ba ba' r tail hwf he hrest h
  obtain ⟨rfl, rfl⟩ := Prod.mk.inj (Option.some.inj h)
  exact ⟨by rw [he], hwf, he, hrest⟩

/-- The bytes of a fixed-width word in an array of byte order `e`. -/
def fixedBytes {n : Nat} (v : BitVec (8 * n)) : List UInt8 :=
  memory host (if e ≠ host then byteswap v else v)

/-- A word of fixed width. -/
theorem decodes_readFixed {n : Nat} (v : BitVec (8 * n)) :
    Decodes e (readFixed host n) (fixedBytes host e v) v := by
  have hread : Decodes e (read n) (fixedBytes host e v) (fixedBytes host e v) := by
    have h := decodes_read e (fixedBytes host e v)
    rwa [fixedBytes, length_memory] at h
  have hswap : Decodes e
      (do let endian ← Prog.get ByteArray.endian
          if endian = host then pure (ofMemory host n (fixedBytes host e v))
          else pure (byteswap (ofMemory host n (fixedBytes host e v)))) ([] ++ []) v := by
    apply (decodes_endian e).bind
    by_cases heq : e = host
    · have hv : ofMemory host n (fixedBytes host e v) = v := by simp [fixedBytes, heq]
      rw [if_pos heq, hv]
      exact Decodes.nil v
    · have hv : byteswap (ofMemory host n (fixedBytes host e v)) = v := by
        simp [fixedBytes, heq]
      rw [if_neg heq, hv]
      exact Decodes.nil v
  have h : Decodes e (readFixed host n) (fixedBytes host e v ++ ([] ++ [])) v :=
    hread.bind hswap
  simpa using h

/-- A byte. -/
theorem decodes_readFuint8 (b : BitVec 8) : Decodes e readFuint8 [UInt8.ofBitVec b] b := by
  have hread := decodes_read e [UInt8.ofBitVec b]
  have hval : ofMemory .little 1 [UInt8.ofBitVec b] = b := by
    apply BitVec.eq_of_toNat_eq
    simp [ofMemory, Words.ofBytesLE]
  have h := hread.map (f := ofMemory .little 1)
  rwa [hval] at h

/-- A word of at most `7 * slots` bits leaves room in `tmp`. -/
theorem varintLoop_isSome {w : Nat} (hw : 8 ≤ w) :
    ∀ {slots : Nat} {v : BitVec w}, v.toNat < 2 ^ (7 * slots) → 0 < slots →
      (varintLoop slots v).isSome := by
  intro slots
  induction slots with
  | zero => intro v _ hpos; omega
  | succ slots ih =>
      intro v hv _
      by_cases hge : v ≥ 0x80#w
      · have hshift : (v >>> 7).toNat < 2 ^ (7 * slots) := by
          rw [BitVec.toNat_ushiftRight, Nat.shiftRight_eq_div_pow]
          apply Nat.div_lt_of_lt_mul
          rw [← Nat.pow_add]
          calc v.toNat < 2 ^ (7 * (slots + 1)) := hv
            _ = 2 ^ (7 + 7 * slots) := by congr 1; omega
        have hpos : 0 < slots := by
          rcases Nat.eq_zero_or_pos slots with rfl | hpos
          · have h256 := two_pow_ge hw
            rw [ge_iff_le, BitVec.le_def, BitVec.toNat_ofNat, Nat.mod_eq_of_lt (by omega)] at hge
            simp at hv
            omega
          · exact hpos
        simpa [varintLoop, hge] using ih hshift hpos
      · simp [varintLoop, hge]

/-- **Base 128 is undone**: the reader that starts at shift `i` adds the
written word at that shift. -/
theorem decodes_readVarint {w : Nat} (hw : 8 ≤ w) :
    ∀ {slots i : Nat} {v acc : BitVec w} {bs : List UInt8}, varintLoop slots v = some bs →
      Decodes e (readVarint (List.range' i slots 7) acc) bs (acc ||| v <<< i) := by
  intro slots
  induction slots with
  | zero => intro i v acc bs h; simp [varintLoop] at h
  | succ slots ih =>
      intro i v acc bs h
      by_cases hge : v ≥ 0x80#w
      · simp only [varintLoop, if_pos hge, Option.map_eq_some_iff] at h
        obtain ⟨rest, hrest, rfl⟩ := h
        obtain ⟨hmark, hlow⟩ := continued_byte hw v
        have hbyte := decodes_readFuint8 e (((v &&& 0x7F#w) ||| 0x80#w).setWidth 8)
        apply hbyte.bind
        rw [if_neg hmark, hlow, ← low7_or_rest v i, ← BitVec.or_assoc]
        exact ih hrest
      · simp only [varintLoop, if_neg hge, Option.some.injEq] at h
        subst h
        obtain ⟨hmark, hwhole⟩ := last_byte hw hge
        have hbyte := decodes_readFuint8 e (v.setWidth 8)
        apply hbyte.bind
        rw [if_pos hmark, hwhole]
        exact Decodes.nil _

/-- A string whose length is known. -/
theorem decodes_readBuffer {len : BitVec 64} {s : StdString} (h : len.toNat = s.size) :
    Decodes e (readBuffer len) s.bytes s := by
  have hread : Decodes e (read len.toNat) s.bytes s.bytes := by
    rw [h]
    exact decodes_read e s.bytes
  have hle : len.toNat ≤ StdString.maxSize := h ▸ s.size_le
  have hval : (⟨s.bytes.take len.toNat, Nat.le_trans (List.length_take_le _ _) hle⟩ : StdString) =
      s := by
    obtain ⟨bytes, hsize⟩ := s
    have hall : bytes.take len.toNat = bytes := List.take_of_length_le (Nat.le_of_eq h.symm)
    simp only [hall]
  have hmap := hread.map (f := fun bytes => (⟨bytes.take len.toNat,
    Nat.le_trans (List.length_take_le _ _) hle⟩ : StdString))
  rw [hval] at hmap
  rw [readBuffer_of_le hle]
  exact hmap

/-- A length field and the bytes of the string. -/
theorem decodes_string {w : Nat} {q : Prog (BitVec w)} {len : BitVec w}
    {widen : BitVec w → BitVec 64} {bs : List UInt8} {s : StdString}
    (hq : Decodes e q bs len) (hlen : (widen len).toNat = s.size) :
    Decodes e (do let len ← q; readBuffer (widen len)) (bs ++ s.bytes) s :=
  hq.bind (decodes_readBuffer e hlen)

/-- The bytes of a number of variable length, of which `slots` are enough. -/
def varintBytes {w : Nat} (slots : Nat) (v : BitVec w) : List UInt8 :=
  (varintLoop slots v).getD []

/-- The slots suffice, and the loop fills them with the bytes of the varint. -/
theorem varintLoop_eq {w slots : Nat} (hw : 8 ≤ w) (hbits : w ≤ 7 * slots) (v : BitVec w) :
    varintLoop slots v = some (varintBytes slots v) := by
  have hlt : v.toNat < 2 ^ (7 * slots) :=
    Nat.lt_of_lt_of_le v.isLt (Nat.pow_le_pow_right (by decide) hbits)
  obtain ⟨bs, hbs⟩ := Option.isSome_iff_exists.mp (varintLoop_isSome hw hlt (by omega))
  rw [varintBytes, hbs, Option.getD_some]

/-- A varint is written by one `write`. -/
theorem writeVarint_eq {w slots : Nat} (hw : 8 ≤ w) (hbits : w ≤ 7 * slots) (v : BitVec w) :
    writeVarint slots v = write (varintBytes slots v) := by
  funext ba
  simp only [writeVarint, varintLoop_eq hw hbits v]

/-- A varint is read back. -/
theorem decodes_varintBytes {w slots : Nat} (hw : 8 ≤ w) (hbits : w ≤ 7 * slots) (v : BitVec w) :
    Decodes e (readVarint (List.range' 0 slots 7) 0#w) (varintBytes slots v) v := by
  have h : Decodes e (readVarint (List.range' 0 slots 7) 0#w) (varintBytes slots v)
      (0#w ||| v <<< 0) := decodes_readVarint e hw (varintLoop_eq hw hbits v)
  simpa using h

/-- What the writer of a value passes to `write`, call by call. -/
def Value.chunks : Value → List (List UInt8)
  | .fint8 v | .fuint8 v => [[UInt8.ofBitVec v]]
  | .fint16 v | .fuint16 v => [fixedBytes host e (n := 2) v]
  | .fint32 v | .fuint32 v | .float v => [fixedBytes host e (n := 4) v]
  | .fint64 v | .fuint64 v | .double v => [fixedBytes host e (n := 8) v]
  | .int32 v => [varintBytes 5 (encodeZigzag v)]
  | .uint32 v => [varintBytes 5 v]
  | .int64 v => [varintBytes 10 (encodeZigzag v)]
  | .uint64 v => [varintBytes 10 v]
  | .stringF16 s => [fixedBytes host e (n := 2) (BitVec.ofNat 16 s.size), s.bytes]
  | .stringF32 s => [fixedBytes host e (n := 4) (BitVec.ofNat 32 s.size), s.bytes]
  | .stringF64 s => [fixedBytes host e (n := 8) (BitVec.ofNat 64 s.size), s.bytes]
  | .stringVint s => [varintBytes 10 (BitVec.ofNat 64 s.size), s.bytes]

/-- The bytes of a value. -/
def Value.encoding (v : Value) : List UInt8 := (v.chunks host e).flatten

/-- The calls of `write` one after the other. -/
def writeChunks : List (List UInt8) → Prog Unit
  | [] => pure ()
  | bs :: chunks => do
      write bs
      writeChunks chunks

/-- A program that ends with nothing to return. -/
theorem Prog.bind_pure_unit (p : Prog Unit) (ba : ByteArray) :
    (p >>= fun _ => pure ()) ba = p ba := by
  cases h : p ba with
  | none => simp only [bind, h]
  | some r =>
      obtain ⟨res, u⟩ := r
      cases res with
      | error err => exact Prog.bind_of_error h
      | ok a => exact Prog.bind_of_ok h

/-- Programs that agree on a state and go on alike. -/
theorem Prog.bind_congr {α β : Type} {p q : Prog α} {ba : ByteArray} (h : p ba = q ba)
    {f g : α → Prog β} (hfg : ∀ a u, f a u = g a u) : (p >>= f) ba = (q >>= g) ba := by
  cases hq : q ba with
  | none =>
      have hp : p ba = none := h.trans hq
      simp only [bind, hp, hq]
  | some r =>
      obtain ⟨res, u⟩ := r
      cases res with
      | error err => rw [Prog.bind_of_error (h.trans hq), Prog.bind_of_error hq]
      | ok a => rw [Prog.bind_of_ok (h.trans hq), Prog.bind_of_ok hq, hfg]

/-- One chunk is one `write`. -/
theorem writeChunks_one (bs : List UInt8) (ba : ByteArray) : writeChunks [bs] ba = write bs ba :=
  Prog.bind_pure_unit (write bs) ba

/-- **A writer** is a sequence of calls of `write`. -/
theorem Value.write_eq (v : Value) (ba : ByteArray) :
    v.write host ba = writeChunks (v.chunks host ba.endian) ba := by
  have hnumber : ∀ {p : Prog Unit} {bs : List UInt8}, p ba = ByteArray.write bs ba →
      p ba = writeChunks [bs] ba := fun hp => hp.trans (writeChunks_one _ ba).symm
  have hstring : ∀ {p : Prog Unit} {bs : List UInt8} (s : StdString),
      p ba = ByteArray.write bs ba →
      (p >>= fun _ => ByteArray.write s.bytes) ba = writeChunks [bs, s.bytes] ba := fun s hp =>
    Prog.bind_congr hp fun _ u => (writeChunks_one s.bytes u).symm
  have hvar32 := fun v : BitVec 32 =>
    congrFun (writeVarint_eq (by decide) (by decide : 32 ≤ 7 * 5) v) ba
  have hvar64 := fun v : BitVec 64 =>
    congrFun (writeVarint_eq (by decide) (by decide : 64 ≤ 7 * 10) v) ba
  cases v with
  | fint8 v => exact hnumber rfl
  | fuint8 v => exact hnumber rfl
  | fint16 v => exact hnumber rfl
  | fuint16 v => exact hnumber rfl
  | fint32 v => exact hnumber rfl
  | fuint32 v => exact hnumber rfl
  | fint64 v => exact hnumber rfl
  | fuint64 v => exact hnumber rfl
  | float v => exact hnumber rfl
  | double v => exact hnumber rfl
  | int32 v => exact hnumber (hvar32 (encodeZigzag v))
  | uint32 v => exact hnumber (hvar32 v)
  | int64 v => exact hnumber (hvar64 (encodeZigzag v))
  | uint64 v => exact hnumber (hvar64 v)
  | stringF16 s => exact hstring s rfl
  | stringF32 s => exact hstring s rfl
  | stringF64 s => exact hstring s rfl
  | stringVint s => exact hstring s (hvar64 (BitVec.ofNat 64 s.size))

/-- **One typed value** is taken off. -/
theorem Value.decodes {v : Value} (hfits : v.Fits) :
    Decodes e (v.kind.read host) (v.encoding host e) v := by
  have hnumber : ∀ {α : Type} {p : Prog α} {bs : List UInt8} {a : α} (f : α → Value),
      Decodes e p bs a → Decodes e (p >>= fun x => pure (f x)) [bs].flatten (f a) := by
    intro α p bs a f hp
    rw [List.flatten_singleton]
    exact hp.map
  have hstring : ∀ {p : Prog StdString} {bs : List UInt8} {s : StdString} (f : StdString → Value),
      Decodes e p (bs ++ s.bytes) s →
      Decodes e (p >>= fun x => pure (f x)) [bs, s.bytes].flatten (f s) := by
    intro p bs s f hp
    rw [List.flatten_cons, List.flatten_singleton]
    exact hp.map
  have hvar32 := fun v : BitVec 32 =>
    decodes_varintBytes e (by decide) (by decide : 32 ≤ 7 * 5) v
  have hvar64 := fun v : BitVec 64 =>
    decodes_varintBytes e (by decide) (by decide : 64 ≤ 7 * 10) v
  cases v with
  | fint8 v => exact hnumber _ (decodes_readFuint8 e v)
  | fuint8 v => exact hnumber _ (decodes_readFuint8 e v)
  | fint16 v => exact hnumber _ (decodes_readFixed host e (n := 2) v)
  | fuint16 v => exact hnumber _ (decodes_readFixed host e (n := 2) v)
  | fint32 v => exact hnumber _ (decodes_readFixed host e (n := 4) v)
  | fuint32 v => exact hnumber _ (decodes_readFixed host e (n := 4) v)
  | fint64 v => exact hnumber _ (decodes_readFixed host e (n := 8) v)
  | fuint64 v => exact hnumber _ (decodes_readFixed host e (n := 8) v)
  | float v => exact hnumber _ (decodes_readFixed host e (n := 4) v)
  | double v => exact hnumber _ (decodes_readFixed host e (n := 8) v)
  | uint32 v => exact hnumber _ (hvar32 v)
  | uint64 v => exact hnumber _ (hvar64 v)
  | int32 v =>
      have hzig : Decodes e readInt32 _ (decodeZigzag (encodeZigzag v)) :=
        (hvar32 (encodeZigzag v)).map
      rw [decodeZigzag_encodeZigzag] at hzig
      exact hnumber _ hzig
  | int64 v =>
      have hzig : Decodes e readInt64 _ (decodeZigzag (encodeZigzag v)) :=
        (hvar64 (encodeZigzag v)).map
      rw [decodeZigzag_encodeZigzag] at hzig
      exact hnumber _ hzig
  | stringF16 s =>
      have hsize : s.size < 65536 := hfits
      have hlen : ((BitVec.ofNat 16 s.size).setWidth 64).toNat = s.size := by
        simp only [BitVec.toNat_setWidth, BitVec.toNat_ofNat]
        omega
      exact hstring _ (decodes_string e (decodes_readFixed host e (n := 2) _) hlen)
  | stringF32 s =>
      have hsize : s.size < 2 ^ 32 := hfits
      have hlen : ((BitVec.ofNat 32 s.size).setWidth 64).toNat = s.size := by
        simp only [BitVec.toNat_setWidth, BitVec.toNat_ofNat]
        omega
      exact hstring _ (decodes_string e (decodes_readFixed host e (n := 4) _) hlen)
  | stringF64 s =>
      have hlen : (id (BitVec.ofNat 64 s.size)).toNat = s.size := Nat.mod_eq_of_lt s.size_lt
      exact hstring _ (decodes_string e (decodes_readFixed host e (n := 8) _) hlen)
  | stringVint s =>
      have hlen : (id (BitVec.ofNat 64 s.size)).toNat = s.size := Nat.mod_eq_of_lt s.size_lt
      exact hstring _ (decodes_string e (hvar64 (BitVec.ofNat 64 s.size)) hlen)

/-- The bytes of a list of values. -/
def encodingAll (vs : List Value) : List UInt8 := vs.flatMap (Value.encoding host e)

/-- All values, in the order they were written. -/
theorem decodes_readAll {vs : List Value} (hfits : ∀ v ∈ vs, v.Fits) :
    Decodes e (readAll host (vs.map Value.kind)) (encodingAll host e vs) vs := by
  induction vs with
  | nil => exact Decodes.nil []
  | cons v vs ih =>
      have hrest := ih fun u hu => hfits u (List.mem_cons_of_mem v hu)
      exact (Value.decodes host e (hfits v List.mem_cons_self)).bind hrest.map

end Encodings

/-! ### What the writers store -/

section Writers

variable {ba ba' : ByteArray} {r : Except Thrown Unit} {host : Endian}

/-- The chunks are stored one behind the other. -/
theorem Wf.writeChunks_stored {chunks : List (List UInt8)} (h : ba.Wf)
    (hwrite : writeChunks chunks ba = some (r, ba')) :
    r = .ok () ∧ Stored chunks.flatten ba ba' ∧ ba'.endian = ba.endian := by
  induction chunks generalizing ba with
  | nil =>
      cases hwrite
      exact ⟨rfl, .nil h, rfl⟩
  | cons bs chunks ih =>
      rcases Prog.bind_eq_some.mp hwrite with ⟨err, herr, _⟩ | ⟨_, mid, hfirst, hrest⟩
      · cases (h.write_stored herr).1
      · obtain ⟨-, hstored, hend⟩ := h.write_stored hfirst
        obtain ⟨hr, hstored', hend'⟩ := ih hstored.wf hrest
        exact ⟨hr, hstored.append h hstored', hend'.trans hend⟩

/-- **A writer** stores the bytes of its value. -/
theorem Wf.value_stored (h : ba.Wf) {v : Value} (hwrite : v.write host ba = some (r, ba')) :
    r = .ok () ∧ Stored (v.encoding host ba.endian) ba ba' ∧ ba'.endian = ba.endian := by
  rw [v.write_eq] at hwrite
  exact h.writeChunks_stored hwrite

/-- The values are stored one behind the other. -/
theorem Wf.writeAll_stored {vs : List Value} (h : ba.Wf)
    (hwrite : writeAll host vs ba = some (r, ba')) :
    r = .ok () ∧ Stored (encodingAll host ba.endian vs) ba ba' ∧ ba'.endian = ba.endian := by
  induction vs generalizing ba with
  | nil =>
      cases hwrite
      exact ⟨rfl, .nil h, rfl⟩
  | cons v vs ih =>
      rcases Prog.bind_eq_some.mp hwrite with ⟨err, herr, _⟩ | ⟨_, mid, hfirst, hrest⟩
      · cases (h.value_stored herr).1
      · obtain ⟨-, hstored, hend⟩ := h.value_stored hfirst
        obtain ⟨hr, hstored', hend'⟩ := ih hstored.wf hrest
        rw [hend] at hstored'
        exact ⟨hr, hstored.append h hstored', hend'.trans hend⟩

/-- At the end of the valid bytes this appends. -/
theorem encodes_writeAll (host e : Endian) (vs : List Value) :
    Encodes e (writeAll host vs) (encodingAll host e vs) := by
  intro ba ba' r hwf he hend h
  subst he
  obtain ⟨hr, hstored, hendian⟩ := hwf.writeAll_stored h
  refine ⟨hr, hstored.wf, hendian, ?_, ?_⟩
  · rw [hstored.position, hstored.size, hend]
    omega
  · have hlen := hwf.length_written
    rw [hstored.written, hend, ← hlen, List.splice_length]

end Writers

/-- **The typed round trip.**  Whatever is written to a fresh array, of any
block size and in either byte order, on a machine of either byte order, is
read back from position 0 by the matching readers, whenever these complete,
and nothing is left to read. -/
theorem readAll_writeAll {base : Nat} (hbase : 0 < base) (heap : Nat → UInt8)
    (host : Endian) (isLittle : Bool) {vs : List Value} (hfits : ∀ v ∈ vs, v.Fits)
    {r : Except Thrown Unit} {ba : ByteArray}
    (hwrite : writeAll host vs ((new base heap).setIsLittleEndian isLittle) = some (r, ba)) :
    r = .ok () ∧ ∃ start, setPosition 0 ba = some (.ok (), start) ∧
      ∀ r' ba', readAll host (vs.map Value.kind) start = some (r', ba') →
        r' = .ok vs ∧ ba'.getReadSize = 0 := by
  have hnew := new_wf hbase heap
  have hwf : ((new base heap).setIsLittleEndian isLittle).Wf :=
    ⟨hnew.base_pos, hnew.uniform, hnew.root, hnew.capacity_eq, hnew.position_le, hnew.size_le,
      hnew.cur_eq⟩
  have hdec := decodes_readAll host ((new base heap).setIsLittleEndian isLittle).endian hfits
  obtain ⟨hr, hwf', hend, _, hbytes⟩ := encodes_writeAll host _ vs hwf rfl rfl hwrite
  refine ⟨hr, ?_⟩
  rcases setPosition_spec hwf' 0 with ⟨hgt, _⟩ | ⟨_, start, heq, hwf'', hst, _, hend', hpos, hsize⟩
  · omega
  · refine ⟨start, heq, ?_⟩
    intro r' ba' hread
    have hunread : start.unread = encodingAll host
        ((new base heap).setIsLittleEndian isLittle).endian vs ++ [] := by
      have hall : start.written = ba.written := by
        rw [written, written, hst, hsize, Nat.max_eq_left (Nat.zero_le _)]
      rw [unread, hall, hpos, List.drop_zero, hbytes, List.append_nil]
      simp [written, new, setIsLittleEndian]
    obtain ⟨hr', hlast, _, hrest⟩ := hdec hwf'' (hend'.trans hend) hunread hread
    refine ⟨hr', ?_⟩
    have hlen := congrArg List.length hrest
    rw [unread, List.length_drop, hlast.length_written] at hlen
    rw [hlast.getReadSize_eq, hlen, List.length_nil]

/-- The least `int32`, a word and a string in blocks of one byte, on a
little-endian machine. -/
theorem readAll_writeAll_mixed :
    let vs : List Value := [.int32 0x80000000#32, .fuint16 0x1234#16,
      .stringF16 ⟨[104, 105], by decide⟩]
    ∃ ba start ba', writeAll .little vs ((new 1 fun _ => 0).setIsLittleEndian false) =
        some (.ok (), ba) ∧ setPosition 0 ba = some (.ok (), start) ∧
      readAll .little (vs.map Value.kind) start = some (.ok vs, ba') ∧ ba'.getReadSize = 0 := by
  intro vs
  have hfits : ∀ v ∈ vs, v.Fits := by
    intro v hv
    simp only [vs, List.mem_cons, List.not_mem_nil, or_false] at hv
    rcases hv with rfl | rfl | rfl
    · trivial
    · trivial
    · show 2 < 65536
      decide
  have hall : ((writeAll .little vs >>= fun _ => setPosition 0 >>= fun _ =>
      readAll .little (vs.map Value.kind))
        ((new 1 fun _ => 0).setIsLittleEndian false)).isSome := by
    decide +kernel
  obtain ⟨⟨r', ba'⟩, hall⟩ := Option.isSome_iff_exists.mp hall
  rcases Prog.bind_eq_some.mp hall with ⟨err, herr, _⟩ | ⟨_, ba, hwrite, hrest⟩
  · cases (readAll_writeAll (by decide) _ .little false hfits herr).1
  · obtain ⟨_, start, hstart, hread⟩ :=
      readAll_writeAll (by decide) _ .little false hfits hwrite
    rcases Prog.bind_eq_some.mp hrest with ⟨err, herr, _⟩ | ⟨_, start', hstart', hreads⟩
    · rw [hstart] at herr
      cases herr
    · rw [hstart] at hstart'
      cases hstart'
      obtain ⟨rfl, hsize⟩ := hread r' ba' hreads
      exact ⟨ba, start, ba', hwrite, hstart, hreads, hsize⟩

end ByteArray

end Mingo
