import Mingo.ByteArray.Bounds

/-!
# Numbers of variable length

The unsigned writers of variable length cut a number into groups of seven bits;
the signed ones fold the sign into bit 0 first.

* `zigzag_faithful` -- the zigzag functions are inverse to each other, and the
  integers near 0 get the small codes;
* `varints_coded` -- a written number has the shortest spelling, the reader
  takes it off again, and no input makes the reader go on behind its last shift.
-/

namespace Mingo

/-! ### Zigzag -/

section Zigzag

variable {w : Nat}

/-- Bit 0 of the code says whether the other bits are flipped. -/
theorem getLsbD_decodeZigzag (u : BitVec w) {i : Nat} (hi : i < w) :
    (decodeZigzag u).getLsbD i = (u.getLsbD (i + 1) ^^ u.getLsbD 0) := by
  rw [decodeZigzag, neg_and_one, BitVec.getLsbD_xor, BitVec.getLsbD_ushiftRight,
    Nat.add_comm 1 i]
  cases u.getLsbD 0 <;> simp [hi]

theorem msb_decodeZigzag (u : BitVec w) (hw : 0 < w) :
    (decodeZigzag u).msb = u.getLsbD 0 := by
  have hout : u.getLsbD (w - 1 + 1) = false := BitVec.getLsbD_of_ge u _ (by omega)
  rw [BitVec.msb_eq_getLsbD_last, getLsbD_decodeZigzag u (by omega), hout, Bool.false_xor]

/-- Every word is a code. -/
@[simp]
theorem encodeZigzag_decodeZigzag (u : BitVec w) : encodeZigzag (decodeZigzag u) = u := by
  apply BitVec.eq_of_getLsbD_eq
  intro i hi
  have hw : 0 < w := by omega
  rw [encodeZigzag_eq_xor, msb_decodeZigzag u hw, BitVec.getLsbD_xor, BitVec.getLsbD_shiftLeft]
  by_cases hz : i = 0
  · subst hz
    cases h : u.getLsbD 0 <;> simp [hw]
  · have hsucc : i - 1 + 1 = i := by omega
    have hpos : ¬ i < 1 := by omega
    rw [getLsbD_decodeZigzag u (by omega), hsucc]
    cases h : u.getLsbD 0 <;> simp [hi, hpos]

/-- The code of an integer, in exact arithmetic. -/
def zigzagCode (v : Int) : Int := if 0 ≤ v then 2 * v else -2 * v - 1

/-- The code modulo `2 ^ w`. -/
theorem encodeZigzag_eq_ofInt (v : BitVec w) :
    encodeZigzag v = BitVec.ofInt w (zigzagCode v.toInt) := by
  have htwo : BitVec.ofInt w 2 = 2#w := rfl
  have hone : BitVec.ofInt w 1 = 1#w := rfl
  rw [encodeZigzag, BitVec.slt_zero_eq_msb, BitVec.msb_eq_toInt, zigzagCode]
  by_cases hneg : v.toInt < 0
  · have hsum : -2 * v.toInt - 1 = -v.toInt * 2 + -1 := by ring
    rw [if_pos (decide_eq_true hneg), if_neg (by omega), hsum, BitVec.ofInt_add, BitVec.ofInt_mul,
      BitVec.ofInt_neg, BitVec.ofInt_neg, BitVec.ofInt_toInt, htwo, hone, BitVec.sub_eq_add_neg]
  · rw [if_neg (by simpa using hneg), if_pos (by omega), Int.mul_comm, BitVec.ofInt_mul,
      BitVec.ofInt_toInt, htwo]

/-- Nothing is lost: the code of an integer of `w` bits has `w` bits. -/
theorem toNat_encodeZigzag (v : BitVec w) :
    ((encodeZigzag v).toNat : Int) = zigzagCode v.toInt := by
  have hlt := v.two_mul_toInt_lt
  have hle := v.le_two_mul_toInt
  have hcode : 0 ≤ zigzagCode v.toInt ∧ zigzagCode v.toInt < (2 ^ w : Nat) := by
    rw [zigzagCode]
    push_cast
    split <;> omega
  rw [encodeZigzag_eq_ofInt, BitVec.toNat_ofInt, Int.emod_eq_of_lt hcode.1 hcode.2,
    Int.toNat_of_nonneg hcode.1]

/-- **Zigzag**, of either width. -/
theorem zigzag_faithful (w : Nat) :
    (∀ v : BitVec w, decodeZigzag (encodeZigzag v) = v) ∧
      (∀ u : BitVec w, encodeZigzag (decodeZigzag u) = u) ∧
      ∀ v : BitVec w, ((encodeZigzag v).toNat : Int) =
        if 0 ≤ v.toInt then 2 * v.toInt else -2 * v.toInt - 1 :=
  ⟨decodeZigzag_encodeZigzag, encodeZigzag_decodeZigzag, toNat_encodeZigzag⟩

end Zigzag

namespace ByteArray

/-! ### Spellings -/

/-- A number in groups of seven bits: every byte but the last has its high bit set. -/
inductive IsVarint : List UInt8 → Prop
  | last {b : UInt8} (hb : b < 0x80) : IsVarint [b]
  | more {b : UInt8} {bs : List UInt8} (hb : 0x80 ≤ b) (hbs : IsVarint bs) : IsVarint (b :: bs)

/-- The number that is spelt, in exact arithmetic. -/
def varintValue : List UInt8 → Nat
  | [] => 0
  | b :: bs => b.toNat % 128 + 128 * varintValue bs

/-- The bytes are the shortest spelling of the number. -/
structure Spells (bytes : List UInt8) (n : Nat) : Prop where
  isVarint : IsVarint bytes
  value : varintValue bytes = n
  shortest : ∀ other, IsVarint other → varintValue other = n → bytes.length ≤ other.length

theorem IsVarint.length_pos {bytes : List UInt8} (h : IsVarint bytes) : 0 < bytes.length := by
  cases h <;> exact Nat.succ_pos _

/-- Seven bits for each byte. -/
theorem varintValue_lt (bytes : List UInt8) : varintValue bytes < 128 ^ bytes.length := by
  induction bytes with
  | nil => exact Nat.one_pos
  | cons b bs ih =>
      have hb : b.toNat % 128 < 128 := Nat.mod_lt _ (by decide)
      have hpow : 128 ^ (b :: bs).length = 128 * 128 ^ bs.length := by
        rw [List.length_cons]
        ring
      rw [varintValue, hpow]
      omega

section Loop

variable {w : Nat}

theorem toNat_shift7 (v : BitVec w) : (v >>> 7).toNat = v.toNat / 128 := by
  rw [BitVec.toNat_ushiftRight, Nat.shiftRight_eq_div_pow]

/-- The condition of the loop, as a number. -/
theorem ge_mark_iff (hw : 8 ≤ w) (v : BitVec w) : v ≥ 0x80#w ↔ 128 ≤ v.toNat := by
  have h256 := two_pow_ge hw
  rw [ge_iff_le, BitVec.le_def, BitVec.toNat_ofNat, Nat.mod_eq_of_lt (by omega)]

/-- **The loop** spells the word: by induction on the slots, a group at a time. -/
theorem varintLoop_spells (hw : 8 ≤ w) :
    ∀ {slots : Nat} {v : BitVec w} {bytes : List UInt8}, varintLoop slots v = some bytes →
      IsVarint bytes ∧ varintValue bytes = v.toNat ∧
        ∀ k, 0 < k → v.toNat < 128 ^ k → bytes.length ≤ k := by
  intro slots
  induction slots with
  | zero =>
      intro v bytes h
      cases h
  | succ slots ih =>
      intro v bytes h
      by_cases hge : v ≥ 0x80#w
      · simp only [varintLoop, if_pos hge, Option.map_eq_some_iff] at h
        obtain ⟨rest, hrest, rfl⟩ := h
        obtain ⟨hvarint, hvalue, hlength⟩ := ih hrest
        have hbig := (ge_mark_iff hw v).mp hge
        have hbyte : (UInt8.ofBitVec (((v &&& 0x7F#w) ||| 0x80#w).setWidth 8)).toNat =
            v.toNat % 128 + 128 := toNat_continued hw v
        refine ⟨.more ?_ hvarint, ?_, ?_⟩
        · rw [UInt8.le_iff_toNat_le, hbyte]
          exact Nat.le_add_left 128 _
        · rw [varintValue, hbyte, hvalue, toNat_shift7]
          omega
        · intro k hk hlt
          obtain ⟨k, rfl⟩ : ∃ j, k = j + 1 := ⟨k - 1, by omega⟩
          have hpow : 128 ^ (k + 1) = 128 * 128 ^ k := by ring
          rw [hpow] at hlt
          have hpos : 0 < k := by
            by_contra hzero
            obtain rfl : k = 0 := by omega
            omega
          have hshift : (v >>> 7).toNat < 128 ^ k := by
            rw [toNat_shift7]
            omega
          rw [List.length_cons]
          exact Nat.succ_le_succ (hlength k hpos hshift)
      · simp only [varintLoop, if_neg hge, Option.some.injEq] at h
        subst h
        have hsmall : v.toNat < 128 := by
          rw [ge_mark_iff hw] at hge
          omega
        have hbyte : (UInt8.ofBitVec (v.setWidth 8)).toNat = v.toNat := by
          show (v.setWidth 8).toNat = v.toNat
          rw [BitVec.toNat_setWidth]
          omega
        refine ⟨.last ?_, ?_, fun k hk _ => hk⟩
        · rw [UInt8.lt_iff_toNat_lt, hbyte]
          exact hsmall
        · rw [varintValue, varintValue, hbyte]
          omega

/-- The bytes that the writer passes on: they fit `tmp`. -/
theorem varintBytes_spells {slots : Nat} (hw : 8 ≤ w) (hbits : w ≤ 7 * slots) (v : BitVec w) :
    Spells (varintBytes slots v) v.toNat ∧ (varintBytes slots v).length ≤ slots := by
  obtain ⟨hvarint, hvalue, hlength⟩ := varintLoop_spells hw (varintLoop_eq hw hbits v)
  refine ⟨⟨hvarint, hvalue, ?_⟩, ?_⟩
  · intro other hother heq
    exact hlength _ hother.length_pos (heq ▸ varintValue_lt other)
  · apply hlength slots (by omega)
    calc v.toNat < 2 ^ w := v.isLt
      _ ≤ 2 ^ (7 * slots) := Nat.pow_le_pow_right (by decide) hbits
      _ = 128 ^ slots := by rw [Nat.pow_mul]

/-- **No input makes the reader go on**: a byte for each shift at most. -/
theorem readVarint_stops (is : List Nat) (result : BitVec w) {ba : ByteArray} (h : ba.Wf) :
    ∃ r u, readVarint is result ba = some (r, u) ∧ ∃ k ≤ is.length, Took k ba u := by
  induction is generalizing result ba with
  | nil => exact ⟨.ok result, ba, rfl, 0, Nat.le_refl 0, h, rfl, rfl, rfl⟩
  | cons i is ih =>
      rcases h.readFuint8_cases with ⟨-, what, hread⟩ | ⟨b, rest, u, -, hread, htook⟩
      · exact ⟨_, ba, Prog.bind_of_error hread, 0, Nat.zero_le _, h, rfl, rfl, rfl⟩
      · by_cases hlast : b.toBitVec < 0x80#8
        · refine ⟨.ok (result ||| b.toBitVec.setWidth w <<< i), u, ?_, 1, Nat.succ_pos _, htook⟩
          refine (Prog.bind_of_ok hread).trans ?_
          rw [if_pos hlast]
          rfl
        · obtain ⟨r, t, hgo, k, hk, htook'⟩ :=
            ih (result ||| (b.toBitVec &&& 0x7F#8).setWidth w <<< i) htook.wf
          refine ⟨r, t, ?_, 1 + k, ?_, htook'.wf, htook'.size.trans htook.size,
            htook'.capacity.trans htook.capacity, ?_⟩
          · refine (Prog.bind_of_ok hread).trans ?_
            rw [if_neg hlast]
            exact hgo
          · rw [List.length_cons]
            omega
          · rw [htook'.unread, htook.unread, List.drop_drop]

end Loop

/-! ### Writers and readers -/

/-- The values of `i` in `for(int i = 0; i < w; i += 7)`. -/
def shiftCounts (w : Nat) : List Nat := List.range' 0 ((w + 6) / 7) 7

theorem mem_shiftCounts {w i : Nat} : i ∈ shiftCounts w ↔ i < w ∧ 7 ∣ i := by
  rw [shiftCounts, List.mem_range']
  constructor
  · rintro ⟨k, hk, rfl⟩
    omega
  · rintro ⟨hlt, k, rfl⟩
    exact ⟨k, by omega, by omega⟩

/-- The writer stores the shortest spelling, of at most `slots` bytes, and the reader takes
it off whatever follows.  The reader shifts by less than the width, at most `slots` times,
and whatever it reads it takes off no more bytes than that. -/
structure CodesVarint {w : Nat} (slots : Nat) (writer : BitVec w → Prog Unit)
    (reader : Prog (BitVec w)) : Prop where
  written : ∀ v, ∃ tmp, writer v = write tmp ∧ Spells tmp v.toNat ∧
    1 ≤ tmp.length ∧ tmp.length ≤ slots ∧
    ∀ ba, Reachable ba → ∀ tail, ba.unread = tmp ++ tail →
      ∃ u, reader ba = some (.ok v, u) ∧ u.unread = tail
  shifts : reader = readVarint (shiftCounts w) 0#w ∧ (shiftCounts w).length = slots ∧
    ∀ i ∈ shiftCounts w, i < w
  stops : ∀ ba, Reachable ba → ∃ r u, reader ba = some (r, u) ∧ ∃ k ≤ slots, Took k ba u

theorem codesVarint {w slots : Nat} (hw : 8 ≤ w) (hslots : (w + 6) / 7 = slots) :
    CodesVarint (w := w) slots (writeVarint slots) (readVarint (shiftCounts w) 0#w) := by
  have hbits : w ≤ 7 * slots := by omega
  have hlength : (shiftCounts w).length = slots := by
    rw [shiftCounts, List.length_range', hslots]
  refine ⟨?_, ⟨rfl, hlength, fun i hi => (mem_shiftCounts.mp hi).1⟩, ?_⟩
  · intro v
    obtain ⟨hspells, hfits⟩ := varintBytes_spells hw hbits v
    refine ⟨varintBytes slots v, writeVarint_eq hw hbits v, hspells, hspells.isVarint.length_pos,
      hfits, ?_⟩
    intro ba h tail hunread
    obtain ⟨r, u, hread, -⟩ := readVarint_stops (shiftCounts w) 0#w h.wf
    have hdecodes := decodes_varintBytes ba.endian hw hbits v
    rw [← hslots] at hdecodes
    obtain ⟨rfl, -, -, hrest⟩ := hdecodes h.wf rfl (hslots ▸ hunread) hread
    exact ⟨u, hread, hrest⟩
  · intro ba h
    obtain ⟨r, u, hread, k, hk, htook⟩ := readVarint_stops (shiftCounts w) 0#w h.wf
    exact ⟨r, u, hread, k, hlength ▸ hk, htook⟩

/-- **Numbers of variable length.** -/
theorem varints_coded : CodesVarint 5 writeUint32 readUint32 ∧
    CodesVarint 10 writeUint64 readUint64 :=
  ⟨codesVarint (by decide) rfl, codesVarint (by decide) rfl⟩

/-- The least integers have the greatest codes, of 5 and of 10 bytes. -/
example : (varintBytes 5 (encodeZigzag (BitVec.intMin 32))).length = 5 ∧
    (varintBytes 10 (encodeZigzag (BitVec.intMin 64))).length = 10 := by
  decide

end ByteArray

end Mingo
