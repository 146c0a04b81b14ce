import Mingo.ByteArray.Bounds

/-!
# Length fields

`writeStringF16` and `writeStringF32` convert the size of the string to the 16
or 32 bits of the length field and then write the whole string.  A size that
does not fit is cut down, and the readers take the rest of the string for the
next values.

* `Wf.rewind` -- what lies behind the cursor once it is moved back;
* `Wf.read_lengthField`, `size_lt_of_read` -- a string is read back exactly if
  its size fits;
* `readsBack_iff` -- when a string and the value behind it are read back.
-/

namespace Mingo

namespace ByteArray

variable {ba ba' u : ByteArray} {host e : Endian} {v : Value} {bytes rest : List UInt8}

/-- The string formats whose length field is narrower than a size. -/
inductive LengthField
  | f16 | f32
  deriving DecidableEq

/-- The bytes of the field. -/
def LengthField.width : LengthField → Nat
  | .f16 => 2
  | .f32 => 4

/-- The string as a value with this length field. -/
def LengthField.value : LengthField → StdString → Value
  | .f16 => .stringF16
  | .f32 => .stringF32

/-- The value is an empty string. -/
def Value.isEmptyString : Value → Bool
  | .stringF16 s | .stringF32 s | .stringF64 s | .stringVint s => s.size == 0
  | _ => false

/-- `n` bytes stored at the cursor end with the last block. -/
def EndsStorage (n : Nat) (ba : ByteArray) : Prop :=
  ba.capacity ≤ ba.position + n ∧ ba.baseSize ∣ ba.position + n

/-- A string and a value, stored from `position` on, are read back from there, and the
length field is the size of the string. -/
def ReadsBack (host : Endian) (f : LengthField) (s : StdString) (v : Value) (position : Nat)
    (ba : ByteArray) : Prop :=
  ∃ start mid last, setPosition position ba = some (.ok (), start) ∧
    (∃ len t, readFixed host f.width start = some (.ok len, t) ∧ len.toNat = s.size) ∧
    (f.value s).kind.read host start = some (.ok (f.value s), mid) ∧
    v.kind.read host mid = some (.ok v, last)

/-! ### The end of the storage -/

/-- The storage has grown by no more than the blocks up to the cursor. -/
structure Tight (ba ba' : ByteArray) : Prop where
  base : ba'.baseSize = ba.baseSize
  le : ba.capacity ≤ ba'.capacity
  tight : ba'.capacity = ba.capacity ∨ ba'.capacity < ba'.position + ba'.baseSize

/-- One write behind the other. -/
theorem Tight.trans (h : Tight ba u) (h' : Tight u ba') (hle : u.position ≤ ba'.position) :
    Tight ba ba' where
  base := h'.base.trans h.base
  le := Nat.le_trans h.le h'.le
  tight := by
    have hbase := h'.base
    rcases h'.tight with hsame | hlt
    · rcases h.tight with hsame' | hlt'
      · exact .inl (hsame.trans hsame')
      · exact .inr (by omega)
    · exact .inr hlt

variable {r : Except Thrown Unit}

/-- A write grows the storage no further than its block. -/
theorem Wf.write_tight (h : ba.Wf) (hwrite : write bytes ba = some (r, ba')) : Tight ba ba' := by
  have hbase := (write_spec h hwrite).2.2.1
  have hposition := (write_spec h hwrite).2.2.2.2.1
  have hinside := h.position_le_capacity
  have hcapacity : ba'.capacity = ba.capacity ∨
      ba'.capacity = (ba.addCapacity bytes.length).capacity := by
    unfold write at hwrite
    split at hwrite
    · cases hwrite
      exact .inl rfl
    · dsimp only at hwrite
      split at hwrite
      · cases hwrite
      · cases hwrite
        exact .inr rfl
  rcases hcapacity with hsame | hgrown
  · exact ⟨hbase, Nat.le_of_eq hsame.symm, .inl hsame⟩
  · have hroom := h.getCapacity_addCapacity bytes.length
    obtain ⟨hwf, _, hpos, _⟩ := addCapacity_spec h bytes.length
    have hmid := hwf.position_le_capacity
    rw [hwf.getCapacity_eq, hpos, ← hgrown] at hroom
    rw [hpos, ← hgrown] at hmid
    have hdm := Nat.div_add_mod (ba.missing bytes.length) ba.baseSize
    have hmissing : ba.missing bytes.length = bytes.length - (ba.capacity - ba.position) := rfl
    split at hroom
    · next hgt =>
        rw [Nat.mul_succ] at hroom
        exact ⟨hbase, by omega, .inr (by omega)⟩
    · next hle =>
        rw [Nat.add_zero] at hroom
        by_cases hzero : ba.missing bytes.length = 0
        · rw [hzero, Nat.zero_div, Nat.mul_zero] at hroom
          exact ⟨hbase, by omega, .inl (by omega)⟩
        · have hpos := h.base_pos
          exact ⟨hbase, by omega, .inr (by omega)⟩

/-- So do several. -/
theorem Wf.writeChunks_tight {chunks : List (List UInt8)} (h : ba.Wf)
    (hwrite : writeChunks chunks ba = some (r, ba')) : Tight ba ba' := by
  induction chunks generalizing ba with
  | nil =>
      cases hwrite
      exact ⟨rfl, Nat.le_refl _, .inl rfl⟩
  | cons bs chunks ih =>
      rcases Prog.bind_eq_some.mp hwrite with ⟨err, herr, _⟩ | ⟨_, mid, hfirst, hrest⟩
      · cases (h.write_stored herr).1
      · obtain ⟨-, hstored, -⟩ := h.write_stored hfirst
        have hmore := (hstored.wf.writeChunks_stored hrest).2.1.position
        exact (h.write_tight hfirst).trans (ih hstored.wf hrest) (by omega)

/-- **The cursor ends up at the end of the storage** exactly if the bytes end with a
block, and none is behind it. -/
theorem Tight.at_end_iff (ht : Tight ba ba') (hstored : Stored bytes ba ba') :
    ba'.position = ba'.capacity ↔ EndsStorage bytes.length ba := by
  have hwf := hstored.wf
  have hcapacity := hwf.capacity_eq
  rw [EndsStorage, ← hstored.position, ← ht.base]
  constructor
  · intro heq
    rw [heq]
    exact ⟨ht.le, ba'.nodes.length, hcapacity⟩
  · rintro ⟨hle, k, hk⟩
    have hinside := hwf.position_le_capacity
    rcases ht.tight with hsame | hlt
    · omega
    · rw [hk, hcapacity, ← Nat.mul_succ] at hlt
      have hblocks := Nat.lt_of_mul_lt_mul_left hlt
      rw [hcapacity]
      rw [hk] at hinside ⊢
      rw [hcapacity] at hinside
      have hblocks' := Nat.le_of_mul_le_mul_left hinside hwf.base_pos
      rw [show k = ba'.nodes.length by omega]

/-! ### Reading from the start -/

/-- **Moving the cursor back** to where the bytes were stored: they are unread, and so is
what was behind them. -/
theorem Wf.rewind (h : ba.Wf) (hstored : Stored bytes ba ba') :
    ∃ start, setPosition ba.position ba' = some (.ok (), start) ∧ start.Wf ∧
      start.endian = ba'.endian ∧ start.size = ba'.size ∧ start.capacity = ba'.capacity ∧
      start.unread = bytes ++ ba'.unread := by
  have hposition := hstored.position
  have hinside := hstored.wf.position_le_capacity
  have hbehind := hstored.wf.position_le
  rcases setPosition_spec hstored.wf ba.position with
    ⟨hgt, _⟩ | ⟨_, start, hset, hwf, hst, _, hend, hpos, hsize⟩
  · omega
  · have hsize' : start.size = ba'.size := by
      rw [hsize]
      omega
    have hwritten : ba.position ≤ ba.written.length := by
      rw [h.length_written]
      exact h.position_le
    have hunread : ba'.unread = ba.written.drop (ba.position + bytes.length) := by
      rw [unread, hstored.written, hposition, ← List.drop_drop, List.drop_splice _ hwritten,
        List.drop_left]
    refine ⟨start, hset, hwf, hend, hsize', ?_, ?_⟩
    · rw [← hwf.length_storage, ← hstored.wf.length_storage, hst]
    · have hsame : start.written = ba'.written := by
        rw [written, written, hst, hsize']
      rw [unread, hsame, hpos, hstored.written, List.drop_splice _ hwritten, hunread]

/-- A reader that leaves the size and the storage alone. -/
def Keeps {α : Type} (p : Prog α) : Prop :=
  ∀ ⦃ba u : ByteArray⦄ ⦃r : Except Thrown α⦄, ba.Wf → p ba = some (r, u) →
    u.Wf ∧ u.size = ba.size ∧ u.capacity = ba.capacity

section Keeps

variable {α β : Type}

/-- Returning keeps the array. -/
theorem Keeps.pure (a : α) : Keeps (Pure.pure a : Prog α) := by
  intro ba u r h hcall
  cases hcall
  exact ⟨h, rfl, rfl⟩

/-- Throwing keeps the array. -/
theorem Keeps.throw (e : Thrown) : Keeps (Prog.throw e : Prog α) := by
  intro ba u r h hcall
  cases hcall
  exact ⟨h, rfl, rfl⟩

/-- One program behind the other. -/
theorem Keeps.bind {p : Prog α} {f : α → Prog β} (hp : Keeps p) (hf : ∀ a, Keeps (f a)) :
    Keeps (p >>= f) := by
  intro ba u r h hcall
  rcases Prog.bind_eq_some.mp hcall with ⟨err, herr, _⟩ | ⟨a, mid, hfirst, hsecond⟩
  · exact hp h herr
  · obtain ⟨hwf, hsize, hcapacity⟩ := hp h hfirst
    obtain ⟨hwf', hsize', hcapacity'⟩ := hf a hwf hsecond
    exact ⟨hwf', hsize'.trans hsize, hcapacity'.trans hcapacity⟩

/-- `read` moves the cursor only. -/
theorem keeps_read (n : Nat) : Keeps (read n) := by
  intro ba u r h hcall
  rcases read_spec h hcall with ⟨_, _, rfl⟩ | ⟨_, _, hwf, hst, _, _, _, hsize⟩
  · exact ⟨h, rfl, rfl⟩
  · exact ⟨hwf, hsize, by rw [← hwf.length_storage, ← h.length_storage, hst]⟩

/-- So does a word of fixed width. -/
theorem keeps_readFixed (host : Endian) (n : Nat) : Keeps (readFixed host n) := by
  refine (keeps_read n).bind fun bytes => ?_
  refine Keeps.bind (p := Prog.get ByteArray.endian) ?_ fun endian => ?_
  · intro ba u r h hcall
    cases hcall
    exact ⟨h, rfl, rfl⟩
  · split
    · exact .pure _
    · exact .pure _

/-- So does a string behind its length. -/
theorem LengthField.keeps (f : LengthField) (host : Endian) (s : StdString) :
    Keeps ((f.value s).kind.read host) := by
  have hbuffer : ∀ len, Keeps (readBuffer len) := by
    intro len
    by_cases hlong : StdString.maxSize < len.toNat
    · rw [readBuffer_of_gt hlong]
      exact .throw _
    · rw [readBuffer_of_le (Nat.not_lt.mp hlong)]
      exact (keeps_read len.toNat).bind fun _ => .pure _
  cases f with
  | f16 =>
      exact Keeps.bind ((keeps_readFixed host 2).bind fun _ => hbuffer _) fun _ => .pure _
  | f32 =>
      exact Keeps.bind ((keeps_readFixed host 4).bind fun _ => hbuffer _) fun _ => .pure _

end Keeps

/-! ### Empty strings -/

/-- A length field is read as zero where the length is zero and nothing follows. -/
theorem ReadsField.zero_iff {w : Nat} {p : Prog (BitVec w)} {zero : List UInt8 → Prop}
    {len : BitVec w} (hp : ReadsField p zero) (hd : Decodes u.endian p bytes len) (h : u.Wf)
    (hunread : u.unread = bytes ++ rest) : zero u.unread ↔ len = 0#w ∧ rest = [] := by
  rcases hp u h with ⟨err, t, herr, _⟩ | ⟨x, k, t, hok, _, hzero⟩
  · cases (hd h rfl hunread herr).1
  · obtain ⟨heq, _, _, hrest⟩ := hd h rfl hunread hok
    cases heq
    rw [← hzero, hrest]

/-- The unread bytes are the length field of an empty string, and nothing else, exactly
if this is the value read and nothing is behind it. -/
theorem Wf.emptyField_iff (h : u.Wf) (hfits : v.Fits)
    (hunread : u.unread = v.encoding host u.endian ++ rest) :
    v.kind.emptyField u.unread = true ↔ v.isEmptyString = true ∧ rest = [] := by
  have hstring : ∀ {w : Nat} {s : StdString}, s.size < 2 ^ w →
      (BitVec.ofNat w s.size = 0#w ∧ s.bytes ++ rest = [] ↔ (s.size == 0) = true ∧ rest = []) := by
    intro w s hs
    have hzero : BitVec.ofNat w s.size = 0#w ↔ s.size = 0 := by
      rw [← BitVec.toNat_inj, BitVec.toNat_ofNat, BitVec.toNat_ofNat, Nat.mod_eq_of_lt hs,
        Nat.zero_mod]
    have hnil : s.bytes = [] ↔ s.size = 0 := List.length_eq_zero_iff.symm
    rw [hzero, List.append_eq_nil_iff, hnil, beq_iff_eq]
    tauto
  have hfixed : ∀ {n : Nat} {s : StdString}, 0 < n → s.size < 2 ^ (8 * n) →
      u.unread = [fixedBytes host u.endian (BitVec.ofNat (8 * n) s.size), s.bytes].flatten ++ rest →
      (u.unread = List.replicate n 0 ↔ (s.size == 0) = true ∧ rest = []) := by
    intro n s hn hs hu
    rw [← hstring hs]
    refine (readsField_readFixed host hn).zero_iff (decodes_readFixed host u.endian _) h ?_
    rw [hu]
    simp
  cases v with
  | stringF16 s => exact beq_iff_eq.trans (hfixed (n := 2) (by decide) hfits hunread)
  | stringF32 s => exact beq_iff_eq.trans (hfixed (n := 4) (by decide) hfits hunread)
  | stringF64 s => exact beq_iff_eq.trans (hfixed (n := 8) (by decide) s.size_lt hunread)
  | stringVint s =>
      have hd := decodes_varintBytes u.endian (by decide) (by decide : 64 ≤ 7 * 10)
        (BitVec.ofNat 64 s.size)
      have hfront : u.unread = varintBytes 10 (BitVec.ofNat 64 s.size) ++ (s.bytes ++ rest) := by
        rw [hunread]
        simp [Value.encoding, Value.chunks]
      have hzero := (readsField_readVarint (List.range' 0 10 7) 0#64).zero_iff hd h hfront
      rw [hstring s.size_lt] at hzero
      exact ⟨fun hf => hzero.mp ⟨rfl, hf⟩, fun hcond => (hzero.mpr hcond).2⟩
  | _ =>
      constructor
      · intro hf
        cases hf
      · rintro ⟨hf, -⟩
        cases hf

/-! ### Strings and what follows -/

/-- A string fits when its length does. -/
theorem LengthField.fits_iff (f : LengthField) (s : StdString) :
    (f.value s).Fits ↔ s.size < 2 ^ (8 * f.width) := by
  cases f with
  | f16 => exact Iff.rfl
  | f32 => exact Iff.rfl

/-- The length, and the bytes behind it. -/
theorem LengthField.encoding_eq (f : LengthField) (s : StdString) :
    (f.value s).encoding host e =
      fixedBytes host e (BitVec.ofNat (8 * f.width) s.size) ++ s.bytes := by
  cases f with
  | f16 => simp [LengthField.value, Value.encoding, Value.chunks, LengthField.width]
  | f32 => simp [LengthField.value, Value.encoding, Value.chunks, LengthField.width]

/-- The length field is the size, cut down to the width of the field. -/
theorem Wf.read_lengthField (h : u.Wf) (f : LengthField) (s : StdString)
    (hunread : u.unread = (f.value s).encoding host u.endian ++ rest) :
    ∃ t, readFixed host f.width u = some (.ok (BitVec.ofNat (8 * f.width) s.size), t) := by
  have hwidth : 0 < f.width := by
    cases f with
    | f16 => decide
    | f32 => decide
  obtain ⟨⟨r, t⟩, hread⟩ :=
    Option.isSome_iff_exists.mp ((readsField_readFixed host hwidth).isSome h)
  rw [f.encoding_eq, List.append_assoc] at hunread
  obtain ⟨rfl, -⟩ := decodes_readFixed host u.endian (BitVec.ofNat (8 * f.width) s.size) h rfl
    hunread hread
  exact ⟨t, hread⟩

/-- A value whose bytes are next is read, unless it is an empty string at the end of the
storage. -/
theorem Wf.read_value (h : u.Wf) (hfits : v.Fits)
    (hunread : u.unread = v.encoding host u.endian ++ rest)
    (hend : ¬ (v.isEmptyString = true ∧ u.size = u.capacity ∧ rest = [])) :
    ∃ t, v.kind.read host u = some (.ok v, t) ∧ t.Wf ∧ t.endian = u.endian ∧ t.unread = rest := by
  have hsome : (v.kind.read host u).isSome := by
    rw [h.kind_read_isSome_iff, h.emptyField_iff hfits hunread]
    tauto
  obtain ⟨⟨r, t⟩, hread⟩ := Option.isSome_iff_exists.mp hsome
  obtain ⟨rfl, hwf, hend', hrest⟩ := Value.decodes host u.endian hfits h rfl hunread hread
  exact ⟨t, hread, hwf, hend', hrest⟩

/-- A string that is read as it was written has a size that fits the length field: the
readers take no more bytes than the field says. -/
theorem Wf.size_lt_of_read {w : Nat} {q : Prog (BitVec w)} {widen : BitVec w → BitVec 64}
    {s : StdString} {f : StdString → Value} (hf : ∀ s t, f s = f t → s = t) (h : u.Wf)
    (hq : Decodes u.endian q bytes (BitVec.ofNat w s.size))
    (hwiden : ∀ x, (widen x).toNat = x.toNat) (hunread : u.unread = bytes ++ (s.bytes ++ rest))
    {t : ByteArray}
    (hread : ((do let len ← q; readBuffer (widen len)) >>= fun x => pure (f x)) u =
      some (.ok (f s), t)) :
    s.size < 2 ^ w := by
  have hcut : s.size % 2 ^ w ≤ s.size := Nat.mod_le _ _
  have hlen : (s.bytes.take (s.size % 2 ^ w)).length = s.size % 2 ^ w := by
    rw [List.length_take]
    exact Nat.min_eq_left hcut
  have hsize : (widen (BitVec.ofNat w s.size)).toNat = (s.bytes.take (s.size % 2 ^ w)).length := by
    rw [hwiden, BitVec.toNat_ofNat]
    exact hlen.symm
  have hshort := decodes_string u.endian
    (s := ⟨s.bytes.take (s.size % 2 ^ w), by rw [hlen]; exact Nat.le_trans hcut s.size_le⟩)
    hq hsize
  have hsplit : u.unread = (bytes ++ s.bytes.take (s.size % 2 ^ w)) ++
      (s.bytes.drop (s.size % 2 ^ w) ++ rest) := by
    rw [hunread, List.append_assoc, ← List.append_assoc (s.bytes.take _), List.take_append_drop]
  have heq := hf _ _ (Except.ok.inj (hshort.map (f := f) h rfl hsplit hread).1)
  have hwhole : s.size = s.size % 2 ^ w :=
    (congrArg StdString.size heq).trans hlen
  rw [hwhole]
  exact Nat.mod_lt _ (Nat.two_pow_pos w)

/-- A value that is read as it was written fits. -/
theorem Wf.fits_of_read (h : u.Wf) (hunread : u.unread = v.encoding host u.endian ++ rest)
    {t : ByteArray} (hread : v.kind.read host u = some (.ok v, t)) : v.Fits := by
  cases v with
  | stringF16 s =>
      have hfront : u.unread = fixedBytes host u.endian (BitVec.ofNat (8 * 2) s.size) ++
          (s.bytes ++ rest) := by
        rw [← List.append_assoc, hunread]
        exact congrArg (· ++ rest) (LengthField.f16.encoding_eq s)
      have hinj : ∀ s t, Value.stringF16 s = Value.stringF16 t → s = t := fun s t heq =>
        Value.stringF16.inj heq
      exact h.size_lt_of_read hinj (decodes_readFixed host u.endian (n := 2) _)
        (toNat_setWidth_64 (by decide)) hfront hread
  | stringF32 s =>
      have hfront : u.unread = fixedBytes host u.endian (BitVec.ofNat (8 * 4) s.size) ++
          (s.bytes ++ rest) := by
        rw [← List.append_assoc, hunread]
        exact congrArg (· ++ rest) (LengthField.f32.encoding_eq s)
      have hinj : ∀ s t, Value.stringF32 s = Value.stringF32 t → s = t := fun s t heq =>
        Value.stringF32.inj heq
      exact h.size_lt_of_read hinj (decodes_readFixed host u.endian (n := 4) _)
        (toNat_setWidth_64 (by decide)) hfront hread
  | _ => trivial

/-- A varint has at least one byte. -/
theorem varintBytes_ne_nil {w slots : Nat} (hw : 8 ≤ w) (hbits : w ≤ 7 * slots) (v : BitVec w) :
    varintBytes slots v ≠ [] := by
  have hloop := varintLoop_eq hw hbits v
  intro hnil
  rw [hnil] at hloop
  cases slots with
  | zero => cases hloop
  | succ slots =>
      unfold varintLoop at hloop
      split at hloop
      · obtain ⟨_, _, heq⟩ := Option.map_eq_some_iff.mp hloop
        cases heq
      · cases hloop

/-- No value is stored as nothing. -/
theorem Value.encoding_ne_nil (v : Value) : v.encoding host e ≠ [] := by
  have hfront : ∀ {bs : List UInt8} {chunks : List (List UInt8)}, bs ≠ [] →
      (bs :: chunks).flatten ≠ [] := by
    intro bs chunks hbs hnil
    exact hbs (List.append_eq_nil_iff.mp (List.flatten_cons.symm.trans hnil)).1
  have hfixed : ∀ {n : Nat} (v : BitVec (8 * n)), 0 < n → fixedBytes host e v ≠ [] := by
    intro n v hn
    rw [← List.length_pos_iff, fixedBytes, length_memory]
    exact hn
  cases v with
  | fint8 v => exact hfront (List.cons_ne_nil _ _)
  | fuint8 v => exact hfront (List.cons_ne_nil _ _)
  | fint16 v => exact hfront (hfixed (n := 2) _ (by decide))
  | fuint16 v => exact hfront (hfixed (n := 2) _ (by decide))
  | fint32 v => exact hfront (hfixed (n := 4) _ (by decide))
  | fuint32 v => exact hfront (hfixed (n := 4) _ (by decide))
  | fint64 v => exact hfront (hfixed (n := 8) _ (by decide))
  | fuint64 v => exact hfront (hfixed (n := 8) _ (by decide))
  | float v => exact hfront (hfixed (n := 4) _ (by decide))
  | double v => exact hfront (hfixed (n := 8) _ (by decide))
  | int32 v => exact hfront (varintBytes_ne_nil (by decide) (by decide) _)
  | uint32 v => exact hfront (varintBytes_ne_nil (by decide) (by decide) _)
  | int64 v => exact hfront (varintBytes_ne_nil (by decide) (by decide) _)
  | uint64 v => exact hfront (varintBytes_ne_nil (by decide) (by decide) _)
  | stringF16 s => exact hfront (hfixed (n := 2) _ (by decide))
  | stringF32 s => exact hfront (hfixed (n := 4) _ (by decide))
  | stringF64 s => exact hfront (hfixed (n := 8) _ (by decide))
  | stringVint s => exact hfront (varintBytes_ne_nil (by decide) (by decide) _)

/-- What two writers leave behind. -/
theorem Wf.both_stored {x : Value} (h : ba.Wf)
    (hwrite : (do x.write host; v.write host) ba = some (r, ba')) :
    Stored (x.encoding host ba.endian ++ v.encoding host ba.endian) ba ba' ∧ Tight ba ba' ∧
      ba'.endian = ba.endian := by
  rcases Prog.bind_eq_some.mp hwrite with ⟨err, herr, _⟩ | ⟨_, mid, hfirst, hsecond⟩
  · cases (h.value_stored herr).1
  · obtain ⟨-, hstored, hend⟩ := h.value_stored hfirst
    obtain ⟨-, hstored', hend'⟩ := hstored.wf.value_stored hsecond
    rw [x.write_eq] at hfirst
    rw [v.write_eq] at hsecond
    rw [hend] at hstored'
    have hle : mid.position ≤ ba'.position := by
      rw [hstored'.position]
      exact Nat.le_add_right _ _
    exact ⟨hstored.append h hstored', (h.writeChunks_tight hfirst).trans
      (hstored.wf.writeChunks_tight hsecond) hle, hend'.trans hend⟩

/-- Both readers, one after the other, from where the string was stored. -/
theorem Wf.reads_both_iff (h : ba.Wf) (f : LengthField) (s : StdString) (v : Value)
    (hwrite : (do (f.value s).write host; v.write host) ba = some (r, ba')) :
    ReadsBack host f s v ba.position ba' ↔ s.size < 2 ^ (8 * f.width) ∧ v.Fits ∧
      ¬ (v.isEmptyString = true ∧ EndsStorage ((f.value s).encoding host ba.endian ++
        v.encoding host ba.endian).length ba) := by
  obtain ⟨hstored, htight, hend⟩ := h.both_stored hwrite
  obtain ⟨start, hset, hwf, hend', hsize, hcapacity, hunread⟩ := h.rewind hstored
  rw [List.append_assoc, ← hend, ← hend'] at hunread
  have hat : start.size = start.capacity ∧ ba'.unread = [] ↔
      EndsStorage ((f.value s).encoding host ba.endian ++ v.encoding host ba.endian).length ba := by
    rw [← htight.at_end_iff hstored, hsize, hcapacity, hstored.wf.at_end_iff]
  rw [← hat]
  have hrest : v.encoding host start.endian ++ ba'.unread ≠ [] := fun hnil =>
    v.encoding_ne_nil (List.append_eq_nil_iff.mp hnil).1
  obtain ⟨t, hfield⟩ := hwf.read_lengthField f s hunread
  constructor
  · rintro ⟨start', mid, last, hset', ⟨len, t', hfield', hlen⟩, hfirst, hsecond⟩
    rw [hset] at hset'
    cases hset'
    rw [hfield] at hfield'
    cases hfield'
    have hlt : s.size < 2 ^ (8 * f.width) := hlen ▸ BitVec.isLt _
    obtain ⟨-, hmid, hendmid, hunmid⟩ := Value.decodes host start.endian ((f.fits_iff s).mpr hlt)
      hwf rfl hunread hfirst
    rw [← hendmid] at hunmid
    have hfits := hmid.fits_of_read hunmid hsecond
    refine ⟨hlt, hfits, ?_⟩
    rintro ⟨hempty, hcap, hnil⟩
    obtain ⟨-, hkept, hkept'⟩ := f.keeps host s hwf hfirst
    have hsome : (v.kind.read host mid).isSome := by
      rw [hsecond]
      rfl
    rw [hmid.kind_read_isSome_iff, hmid.emptyField_iff hfits hunmid] at hsome
    exact hsome ⟨by rw [hkept, hkept', hcap], hempty, hnil⟩
  · rintro ⟨hlt, hfits, hnot⟩
    obtain ⟨mid, hfirst, hmid, hendmid, hunmid⟩ := hwf.read_value ((f.fits_iff s).mpr hlt) hunread
      (fun hcond => hrest hcond.2.2)
    rw [← hendmid] at hunmid
    obtain ⟨-, hkept, hkept'⟩ := f.keeps host s hwf hfirst
    obtain ⟨last, hsecond, -⟩ := hmid.read_value hfits hunmid (by rw [hkept, hkept']; exact hnot)
    exact ⟨start, mid, last, hset, ⟨_, t, hfield, Nat.mod_eq_of_lt hlt⟩, hfirst, hsecond⟩

/-- **Length-prefixed strings.**  In every reachable state, once a string with a length
field of 16 or 32 bits and a value behind it are written, both are read back exactly if
the size of the string fits the field, the value fits its own, and the value is not an
empty string whose length field ends with the storage. -/
theorem readsBack_iff (h : Reachable ba) (f : LengthField) (s : StdString) (v : Value)
    (hwrite : (do (f.value s).write host; v.write host) ba = some (r, ba')) :
    ReadsBack host f s v ba.position ba' ↔ s.size < 2 ^ (8 * f.width) ∧ v.Fits ∧
      ¬ (v.isEmptyString = true ∧ EndsStorage ((f.value s).encoding host ba.endian ++
        v.encoding host ba.endian).length ba) :=
  h.wf.reads_both_iff f s v hwrite

/-- Two letters and a word in blocks of four bytes. -/
theorem readsBack_iff_word :
    let s : StdString := ⟨[104, 105], by decide⟩
    ∃ ba', (do (LengthField.f16.value s).write .little; (Value.fuint16 7).write .little)
        (new 4 fun _ => 0) = some (.ok (), ba') ∧
      ReadsBack .little .f16 s (.fuint16 7) 0 ba' := by
  intro s
  have hrun : ((do (LengthField.f16.value s).write .little; (Value.fuint16 7).write .little :
      Prog Unit) (new 4 fun _ => 0)).any (fun r => r.1.isOk) = true := by
    decide
  obtain ⟨⟨r, ba'⟩, hwrite, hok⟩ := (Option.any_eq_true _ _).mp hrun
  cases r with
  | error err => cases hok
  | ok a =>
      refine ⟨ba', hwrite, (readsBack_iff ⟨4, _, [], [], by decide, rfl⟩ .f16 s _ hwrite).mpr ?_⟩
      exact ⟨by decide, trivial, fun hcond => by cases hcond.1⟩

/-- With blocks of one byte every writer completes. -/
theorem Wf.writeChunks_isSome_of_one (h : ba.Wf) (hone : ba.baseSize = 1)
    (chunks : List (List UInt8)) : (writeChunks chunks ba).isSome := by
  induction chunks generalizing ba with
  | nil => rfl
  | cons bs chunks ih =>
      have henough : CountsEnough bs.length ba := by
        left
        rw [hone, Nat.mod_one]
      obtain ⟨⟨r, mid⟩, hfirst⟩ := Option.isSome_iff_exists.mp
        (h.write_isSome ((h.le_getCapacity_addCapacity_iff bs.length).mpr henough))
      obtain ⟨rfl, hstored, -⟩ := h.write_stored hfirst
      rw [writeChunks, Prog.bind_of_ok hfirst]
      exact ih hstored.wf ((h.write_tight hfirst).base.trans hone)

/-- A string of 65536 bytes is announced as an empty one, and its first byte is read as the
value behind it. -/
theorem not_readsBack_65536 :
    let s : StdString := ⟨List.replicate 65536 97, by rw [List.length_replicate]; decide⟩
    ∃ ba', (do (LengthField.f16.value s).write .little; (Value.fuint8 7).write .little)
        (new 1 fun _ => 0) = some (.ok (), ba') ∧
      ¬ ReadsBack .little .f16 s (.fuint8 7) 0 ba' := by
  intro s
  have hwf : (new 1 fun _ => 0).Wf := new_wf (by decide) _
  have hsome : ∀ {ba : ByteArray} (x : Value), ba.Wf → ba.baseSize = 1 →
      ∃ u, x.write .little ba = some (.ok (), u) ∧ u.Wf ∧ u.baseSize = 1 := by
    intro ba x h hone
    obtain ⟨⟨r, u⟩, hchunks⟩ := Option.isSome_iff_exists.mp
      (h.writeChunks_isSome_of_one hone (x.chunks .little ba.endian))
    have hwrite := (x.write_eq .little ba).trans hchunks
    obtain ⟨rfl, hstored, -⟩ := h.value_stored hwrite
    exact ⟨u, hwrite, hstored.wf, (h.writeChunks_tight hchunks).base.trans hone⟩
  obtain ⟨mid, hfirst, hmid, hbase⟩ := hsome (LengthField.f16.value s) hwf rfl
  obtain ⟨ba', hsecond, -⟩ := hsome (.fuint8 7) hmid hbase
  have hwrite : (do (LengthField.f16.value s).write .little; (Value.fuint8 7).write .little)
      (new 1 fun _ => 0) = some (.ok (), ba') := (Prog.bind_of_ok hfirst).trans hsecond
  refine ⟨ba', hwrite, fun hreads => ?_⟩
  have hlt := ((hwf.reads_both_iff .f16 s (.fuint8 7) hwrite).mp hreads).1
  have hsize : s.size = 65536 := List.length_replicate
  rw [hsize] at hlt
  exact absurd hlt (by decide)

end ByteArray

end Mingo
