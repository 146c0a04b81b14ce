import Mingo.ByteArray.Bounds

/-!
# Reads that fail

`read` looks at the readable size before it moves the cursor, so a `read` that
throws changes nothing.  The typed readers that consist of several `read`s do
not look ahead: once the first of them has succeeded, a `std::out_of_range` of a
later one leaves the cursor behind the bytes that are already taken.  A length
field above `max_size()` is another matter: there `resize` throws a
`std::length_error`, and the bytes of the string are not asked for.

A number field is what a reader makes of the front of the unread bytes
(`fixedField`, `varintField`).  `Follows` says that a reader agrees with such a
field and where the cursor stands when the field is cut off.

* `follows_readFixed`, `follows_readVarint` -- the readers of numbers;
* `Follows.fails_string` -- a length field and the bytes it announces;
* `atomic_iff` -- when a reader that throws `std::out_of_range` leaves the state
  alone.
-/

namespace Mingo

namespace ByteArray

variable {ba u : ByteArray} {α β : Type} {n w front : Nat}

/-- A call that throws `std::out_of_range` leaves the whole state as it is. -/
def Atomic (p : Prog α) (ba : ByteArray) : Prop :=
  ∀ what u, p ba = some (.error (.outOfRange what), u) → u = ba

/-! ### Number fields -/

/-- A word of `n` bytes in an array of byte order `e`, and how many bytes it takes. -/
def fixedField (host : Endian) (n : Nat) (e : Endian) (bytes : List UInt8) :
    Option (BitVec (8 * n) × Nat) :=
  if bytes.length < n then none
  else
    let v := ofMemory host n (bytes.take n)
    some (if e = host then v else byteswap v, n)

/-- A number of variable length, read with the shifts `is`. -/
def varintField {w : Nat} : List Nat → BitVec w → List UInt8 → Option (BitVec w × Nat)
  | [], result, _ => some (result, 0)
  | _ :: _, _, [] => none
  | i :: is, result, b :: bytes =>
      if b.toBitVec < 0x80#8 then some (result ||| b.toBitVec.setWidth w <<< i, 1)
      else
        (varintField is (result ||| (b.toBitVec &&& 0x7F#8).setWidth w <<< i) bytes).map
          fun r => (r.1, r.2 + 1)

/-- The bytes that a length field announces are there. -/
def announcesEnough (field : Option (BitVec w × Nat)) (bytes : List UInt8) : Bool :=
  match field with
  | none => false
  | some (len, k) => k + len.toNat ≤ bytes.length

/-- A length field announces more bytes than a string can have. -/
def announcesTooMuch (field : Option (BitVec w × Nat)) : Bool :=
  match field with
  | none => false
  | some (len, _) => StdString.maxSize < len.toNat

/-- The bytes that the first `read` of a typed reader takes. -/
def Kind.first : Kind → Nat
  | .fint8 | .fuint8 => 1
  | .fint16 | .fuint16 => 2
  | .fint32 | .fuint32 | .float => 4
  | .fint64 | .fuint64 | .double => 8
  | .int32 | .uint32 | .int64 | .uint64 => 1
  | .stringF16 => 2
  | .stringF32 => 4
  | .stringF64 => 8
  | .stringVint => 1

/-- The bytes of the array begin with a whole value of the type. -/
def Kind.complete (host e : Endian) (bytes : List UInt8) : Kind → Bool
  | .int32 | .uint32 => (varintField [0, 7, 14, 21, 28] 0#32 bytes).isSome
  | .int64 | .uint64 =>
      (varintField [0, 7, 14, 21, 28, 35, 42, 49, 56, 63] 0#64 bytes).isSome
  | .stringF16 => announcesEnough (fixedField host 2 e bytes) bytes
  | .stringF32 => announcesEnough (fixedField host 4 e bytes) bytes
  | .stringF64 => announcesEnough (fixedField host 8 e bytes) bytes
  | .stringVint =>
      announcesEnough (varintField [0, 7, 14, 21, 28, 35, 42, 49, 56, 63] 0#64 bytes) bytes
  | kind => kind.first ≤ bytes.length

/-- They begin with a length field that announces more bytes than a string can have; the
two narrow fields cannot. -/
def Kind.tooLong (host e : Endian) (bytes : List UInt8) : Kind → Bool
  | .stringF64 => announcesTooMuch (fixedField host 8 e bytes)
  | .stringVint =>
      announcesTooMuch (varintField [0, 7, 14, 21, 28, 35, 42, 49, 56, 63] 0#64 bytes)
  | _ => false

/-! ### Readers that follow a field -/

/-- After a `std::out_of_range` the cursor stands where it stood, or behind bytes that were
taken: the latter exactly if the first `read` found its `front` bytes. -/
def Stopped (front : Nat) (ba u : ByteArray) : Prop :=
  ba.unread.length < front ∧ u = ba ∨
    front ≤ ba.unread.length ∧ u.unread.length < ba.unread.length

/-- A reader of a number agrees with a field of the unread bytes. -/
def Follows (front : Nat) (p : Prog (BitVec w))
    (field : Endian → List UInt8 → Option (BitVec w × Nat)) : Prop :=
  ∀ ba : ByteArray, ba.Wf →
    (field ba.endian ba.unread = none ∧
      ∃ what u, p ba = some (.error (.outOfRange what), u) ∧ Stopped front ba u) ∨
    ∃ v k u, field ba.endian ba.unread = some (v, k) ∧ p ba = some (.ok v, u) ∧
      Took k ba u ∧ front ≤ k ∧ k ≤ ba.unread.length

/-- A `read` keeps the byte order. -/
theorem Wf.endian_read (h : ba.Wf) {bytes : List UInt8}
    (hread : read n ba = some (.ok bytes, u)) : u.endian = ba.endian := by
  rcases read_spec h hread with ⟨_, hr, _⟩ | ⟨_, _, _, _, _, hend, _⟩
  · cases hr
  · exact hend

/-- A word of fixed width. -/
theorem follows_readFixed (host : Endian) (hn : 0 < n) :
    Follows n (readFixed host n) (fixedField host n) := by
  intro ba h
  rcases h.read_pos hn with ⟨hlt, what, hread⟩ | ⟨hle, u, hread, htook⟩
  · exact .inl ⟨if_pos hlt, what, ba, Prog.bind_of_error hread, .inl ⟨hlt, rfl⟩⟩
  · have hend := h.endian_read hread
    refine .inr ⟨if ba.endian = host then ofMemory host n (ba.unread.take n)
      else byteswap (ofMemory host n (ba.unread.take n)), n, u, ?_, ?_, htook, Nat.le_refl n, hle⟩
    · exact if_neg (Nat.not_lt.mpr hle)
    · rw [readFixed, Prog.bind_of_ok hread, Prog.bind_of_ok (Prog.get_apply _ _), hend]
      split
      · rfl
      · rfl

/-- By induction on the shifts: an exception behind the first byte leaves the cursor
behind that byte. -/
theorem follows_readVarint (is : List Nat) (result : BitVec w) :
    Follows (min is.length 1) (readVarint is result) (fun _ => varintField is result) := by
  induction is generalizing result with
  | nil =>
      intro ba h
      exact .inr ⟨result, 0, ba, rfl, rfl, ⟨h, rfl, rfl, rfl⟩, Nat.le_refl 0, Nat.zero_le _⟩
  | cons i is ih =>
      intro ba h
      have hfirst : min (i :: is).length 1 = 1 := by simp
      rw [hfirst]
      rcases h.readFuint8_cases with ⟨hnil, what, hread⟩ | ⟨b, rest, u, hunread, hread, htook⟩
      · refine .inl ⟨by rw [hnil]; rfl, what, ba, Prog.bind_of_error hread, .inl ⟨?_, rfl⟩⟩
        rw [hnil]
        exact Nat.one_pos
      · have hrest : u.unread = rest := by
          rw [htook.unread, hunread]
          rfl
        have hlen : ba.unread.length = u.unread.length + 1 := by
          rw [hunread, hrest, List.length_cons]
        by_cases hlast : b.toBitVec < 0x80#8
        · have hfield : varintField (i :: is) result ba.unread =
              some (result ||| b.toBitVec.setWidth w <<< i, 1) := by
            rw [hunread]
            exact if_pos hlast
          refine .inr ⟨_, 1, u, hfield, ?_, htook, Nat.le_refl 1, by omega⟩
          rw [readVarint, Prog.bind_of_ok hread, if_pos hlast]
          rfl
        · have hfield : varintField (i :: is) result ba.unread =
              (varintField is (result ||| (b.toBitVec &&& 0x7F#8).setWidth w <<< i) u.unread).map
                fun r => (r.1, r.2 + 1) := by
            rw [hunread, hrest]
            exact if_neg hlast
          have hgo : readVarint (i :: is) result ba =
              readVarint is (result ||| (b.toBitVec &&& 0x7F#8).setWidth w <<< i) u := by
            rw [readVarint, Prog.bind_of_ok hread, if_neg hlast]
          rcases ih (result ||| (b.toBitVec &&& 0x7F#8).setWidth w <<< i) u htook.wf with
            ⟨hnone, what, t, herr, hstop⟩ | ⟨v, k, t, hmore, hok, htook', -, hk⟩
          · refine .inl ⟨hfield.trans (congrArg (Option.map _) hnone), what, t, hgo.trans herr,
              .inr ⟨by omega, ?_⟩⟩
            rcases hstop with ⟨_, rfl⟩ | ⟨_, hshort⟩
            · omega
            · omega
          · refine .inr ⟨v, k + 1, t, hfield.trans (congrArg (Option.map _) hmore), hgo.trans hok,
              ?_, by omega, by omega⟩
            exact ⟨htook'.wf, htook'.size.trans htook.size, htook'.capacity.trans htook.capacity,
              by rw [htook'.unread, htook.unread, List.drop_drop, Nat.add_comm]⟩

/-! ### Readers that fail -/

/-- A reader throws `std::out_of_range` unless it is spared, and stops as `Stopped` says. -/
def FailsLike (front : Nat) (spared : Bool) (p : Prog α) (ba : ByteArray) : Prop :=
  spared = true ∧ (∀ what u, p ba ≠ some (.error (.outOfRange what), u)) ∨
    spared = false ∧ ∃ what u, p ba = some (.error (.outOfRange what), u) ∧ Stopped front ba u

section Fails

variable {c : Bool} {p : Prog α} {q : Prog (BitVec w)}
  {field : Endian → List UInt8 → Option (BitVec w × Nat)}

/-- It leaves the state alone if nothing was taken or it is spared. -/
theorem FailsLike.whole_iff (h : FailsLike front c p ba) :
    Atomic p ba ↔ ba.unread.length < front ∨ c = true := by
  rcases h with ⟨hc, hnever⟩ | ⟨hc, what, u, herr, hstop⟩
  · exact ⟨fun _ => .inr hc, fun _ what u herr => absurd herr (hnever what u)⟩
  · constructor
    · intro hatomic
      rcases hstop with ⟨hlt, -⟩ | ⟨-, hshort⟩
      · exact .inl hlt
      · rw [hatomic what u herr] at hshort
        exact absurd hshort (Nat.lt_irrefl _)
    · intro hcond what' u' herr'
      rw [herr] at herr'
      cases herr'
      rcases hstop with ⟨-, hsame⟩ | ⟨hle, -⟩
      · exact hsame
      · rw [hc] at hcond
        exact absurd (hcond.resolve_right Bool.false_ne_true) (Nat.not_lt.mpr hle)

/-- A pure step behind a reader. -/
theorem FailsLike.map (h : FailsLike front c p ba) (f : α → β) :
    FailsLike front c (p >>= fun a => pure (f a)) ba := by
  rcases h with ⟨hc, hnever⟩ | ⟨hc, what, u, herr, hstop⟩
  · refine .inl ⟨hc, fun what u herr => ?_⟩
    rcases Prog.bind_eq_some.mp herr with ⟨e, he, heq⟩ | ⟨a, t, _, hpure⟩
    · cases heq
      exact hnever what u he
    · cases hpure
  · exact .inr ⟨hc, what, u, Prog.bind_of_error herr, hstop⟩

/-- The reader of a number is spared where the field is whole. -/
theorem Follows.fails (hq : Follows front q field) (h : ba.Wf) :
    FailsLike front (field ba.endian ba.unread).isSome q ba := by
  rcases hq ba h with ⟨hnone, what, u, herr, hstop⟩ | ⟨v, k, u, hfield, hok, _⟩
  · exact .inr ⟨by rw [hnone]; rfl, what, u, herr, hstop⟩
  · refine .inl ⟨by rw [hfield]; rfl, fun what u' herr => ?_⟩
    rw [hok] at herr
    cases herr

/-- A `read` throws nothing but `std::out_of_range`, and only where bytes are missing. -/
theorem Wf.readBuffer_fails (h : ba.Wf) {len : BitVec 64} (hlen : len.toNat ≤ StdString.maxSize) :
    ba.unread.length < len.toNat ∧
        readBuffer len ba = some (.error (.outOfRange "not enough len"), ba) ∨
      len.toNat ≤ ba.unread.length ∧ ∀ e u, readBuffer len ba ≠ some (.error e, u) := by
  have hsize : ba.getReadSize = ba.unread.length := by
    rw [h.getReadSize_eq, h.length_unread]
  rw [readBuffer_of_le hlen]
  by_cases hle : len.toNat ≤ ba.unread.length
  · refine .inr ⟨hle, fun e u herr => ?_⟩
    rcases Prog.bind_eq_some.mp herr with ⟨e', he, _⟩ | ⟨a, t, _, hpure⟩
    · rcases read_spec h he with ⟨hgt, _⟩ | ⟨_, hr, _⟩
      · rw [← h.length_unread] at hgt
        omega
      · cases hr
    · cases hpure
  · have hthrow : read len.toNat ba = some (.error (.outOfRange "not enough len"), ba) := by
      unfold read
      exact if_pos (by rw [hsize]; omega)
    exact .inl ⟨by omega, Prog.bind_of_error hthrow⟩

/-- A string: its length field, and the bytes this announces, unless no string has so
many. -/
theorem Follows.fails_string (hq : Follows front q field) (hfront : 0 < front)
    {len : BitVec w → BitVec 64} (hlen : ∀ v, (len v).toNat = v.toNat) (h : ba.Wf) :
    FailsLike front (announcesEnough (field ba.endian ba.unread) ba.unread ||
        announcesTooMuch (field ba.endian ba.unread))
      (q >>= fun v => readBuffer (len v)) ba := by
  rcases hq ba h with ⟨hnone, what, u, herr, hstop⟩ | ⟨v, k, u, hfield, hok, htook, hfk, hk⟩
  · exact .inr ⟨by rw [hnone]; rfl, what, u, Prog.bind_of_error herr, hstop⟩
  · have hrest : u.unread.length = ba.unread.length - k := by
      rw [htook.unread, List.length_drop]
    have hgo : (q >>= fun v => readBuffer (len v)) ba = readBuffer (len v) u :=
      Prog.bind_of_ok hok
    rw [hfield, FailsLike, hgo]
    by_cases hlong : StdString.maxSize < v.toNat
    · refine .inl ⟨?_, fun what u' herr => ?_⟩
      · simp [announcesTooMuch, hlong]
      · rw [readBuffer_of_gt (by rw [hlen]; exact hlong)] at herr
        cases herr
    · have hle : (len v).toNat ≤ StdString.maxSize := by
        rw [hlen]
        exact Nat.not_lt.mp hlong
      rcases htook.wf.readBuffer_fails hle with ⟨hmissing, hthrow⟩ | ⟨henough, hnever⟩
      · rw [hlen] at hmissing
        have hshort : ¬ k + v.toNat ≤ ba.unread.length := by omega
        refine .inr ⟨?_, _, u, hthrow, .inr ⟨Nat.le_trans hfk hk, by omega⟩⟩
        simp [announcesEnough, announcesTooMuch, hshort, hlong]
      · rw [hlen] at henough
        have hwhole : k + v.toNat ≤ ba.unread.length := by omega
        refine .inl ⟨?_, fun what u' => hnever _ u'⟩
        simp [announcesEnough, hwhole]

end Fails

/-- A word of fixed width is whole when its bytes are there. -/
theorem isSome_fixedField (host e : Endian) (bytes : List UInt8) :
    (fixedField host n e bytes).isSome = decide (n ≤ bytes.length) := by
  unfold fixedField
  split
  · next hlt => exact (decide_eq_false (Nat.not_le.mpr hlt)).symm
  · next hle => exact (decide_eq_true (Nat.not_lt.mp hle)).symm

/-- Both one-byte readers. -/
theorem Wf.readFuint8_fails (h : ba.Wf) :
    FailsLike 1 (decide (1 ≤ ba.unread.length)) readFuint8 ba := by
  rcases h.readFuint8_cases with ⟨hnil, what, hread⟩ | ⟨b, rest, u, hunread, hread, -⟩
  · rw [hnil]
    exact .inr ⟨rfl, what, ba, hread, .inl ⟨by rw [hnil]; exact Nat.one_pos, rfl⟩⟩
  · rw [hunread]
    refine .inl ⟨rfl, fun what u' herr => ?_⟩
    rw [hread] at herr
    cases herr

/-- A narrow length field announces a string that there can be. -/
theorem announcesTooMuch_of_narrow (hw : 2 ^ w ≤ StdString.maxSize)
    (field : Option (BitVec w × Nat)) : announcesTooMuch field = false := by
  cases field with
  | none => rfl
  | some r => exact decide_eq_false (by have := r.1.isLt; omega)

/-- **A typed reader** throws `std::out_of_range` unless its value is complete or a string
that there cannot be. -/
theorem Wf.kind_read_fails (h : ba.Wf) (host : Endian) (kind : Kind) :
    FailsLike kind.first
      (kind.complete host ba.endian ba.unread || kind.tooLong host ba.endian ba.unread)
      (kind.read host) ba := by
  have hnumber : ∀ {front : Nat} {c : Bool} {p : Prog Value}, FailsLike front c p ba →
      FailsLike front (c || false) p ba := by
    intro front c p hp
    rw [Bool.or_false]
    exact hp
  have hfixed : ∀ n, 0 < n → FailsLike n (decide (n ≤ ba.unread.length)) (readFixed host n) ba :=
    fun n hn => isSome_fixedField host ba.endian ba.unread ▸ (follows_readFixed host hn).fails h
  have hnarrow : ∀ n, 0 < n → 8 * n ≤ 64 → 2 ^ (8 * n) ≤ StdString.maxSize →
      FailsLike n (announcesEnough (fixedField host n ba.endian ba.unread) ba.unread || false)
        (readFixed host n >>= fun len => readBuffer (len.setWidth 64)) ba := by
    intro n hn hwide hlong
    have hstring := (follows_readFixed host hn).fails_string hn (toNat_setWidth_64 hwide) h
    rwa [announcesTooMuch_of_narrow hlong] at hstring
  have hvar32 := (follows_readVarint [0, 7, 14, 21, 28] 0#32).fails h
  have hvar64 := (follows_readVarint [0, 7, 14, 21, 28, 35, 42, 49, 56, 63] 0#64).fails h
  cases kind with
  | fint8 => exact hnumber (h.readFuint8_fails.map _)
  | fuint8 => exact hnumber (h.readFuint8_fails.map _)
  | fint16 => exact hnumber ((hfixed 2 (by decide)).map _)
  | fuint16 => exact hnumber ((hfixed 2 (by decide)).map _)
  | fint32 => exact hnumber ((hfixed 4 (by decide)).map _)
  | fuint32 => exact hnumber ((hfixed 4 (by decide)).map _)
  | fint64 => exact hnumber ((hfixed 8 (by decide)).map _)
  | fuint64 => exact hnumber ((hfixed 8 (by decide)).map _)
  | float => exact hnumber ((hfixed 4 (by decide)).map _)
  | double => exact hnumber ((hfixed 8 (by decide)).map _)
  | int32 => exact hnumber ((hvar32.map decodeZigzag).map _)
  | uint32 => exact hnumber (hvar32.map _)
  | int64 => exact hnumber ((hvar64.map decodeZigzag).map _)
  | uint64 => exact hnumber (hvar64.map _)
  | stringF16 => exact (hnarrow 2 (by decide) (by decide) (by decide)).map _
  | stringF32 => exact (hnarrow 4 (by decide) (by decide) (by decide)).map _
  | stringF64 =>
      exact ((follows_readFixed host (n := 8) (by decide)).fails_string (by decide)
        (fun _ => rfl) h).map _
  | stringVint =>
      exact ((follows_readVarint [0, 7, 14, 21, 28, 35, 42, 49, 56, 63] 0#64).fails_string
        (by decide) (fun _ => rfl) h).map _

/-- **Failed typed reads.**  In every reachable state a typed reader leaves the whole state
as it was when it throws `std::out_of_range` exactly if its first `read` is the one that
fails, or it does not throw this because the whole value is there or no string is as long
as the length field says.  So the readers of fixed width always do. -/
theorem atomic_iff (h : Reachable ba) (host : Endian) (kind : Kind) :
    Atomic (kind.read host) ba ↔
      ba.unread.length < kind.first ∨ kind.complete host ba.endian ba.unread = true ∨
        kind.tooLong host ba.endian ba.unread = true :=
  (h.wf.kind_read_fails host kind).whole_iff.trans
    (or_congr_right (Bool.or_eq_true _ _).to_iff)

/-- Three of the four bytes of a word are there. -/
theorem atomic_iff_word :
    ∃ ba outs, Machine.run change (new 4 fun _ => 0) [.write [1, 2, 3], .setPosition 0] =
        some (outs, ba) ∧ Atomic (Kind.read .little .fuint32) ba := by
  have hrun : (Machine.run change (new 4 fun _ => 0) [.write [1, 2, 3], .setPosition 0]).any
      (fun r => decide (r.2.unread.length < 4)) = true := by
    decide
  obtain ⟨⟨outs, ba⟩, hba, hcond⟩ := (Option.any_eq_true _ _).mp hrun
  exact ⟨ba, outs, hba,
    (atomic_iff ⟨4, _, _, _, by decide, hba⟩ .little .fuint32).mpr (.inl (of_decide_eq_true hcond))⟩

/-- The call throws `std::out_of_range`, and the cursor has moved. -/
def movesAway (p : Prog α) (ba : ByteArray) : Bool :=
  match p ba with
  | some (.error (.outOfRange _), u) => u.position != ba.position
  | _ => false

/-- Such a call is not atomic. -/
theorem not_atomic_of_movesAway {p : Prog α} (h : movesAway p ba = true) : ¬ Atomic p ba := by
  intro hatomic
  unfold movesAway at h
  split at h
  · next what u hcall =>
      rw [hatomic what u hcall] at h
      simp at h
  · cases h

/-- The length field of a string of five bytes and two of these: `readStringF16` throws
behind the length field.  A number of variable length that is cut off behind its first
byte is no different. -/
theorem not_atomic_string :
    (∃ ba outs, Machine.run change (new 4 fun _ => 0) [.write [0, 5, 104, 101], .setPosition 0] =
        some (outs, ba) ∧ ¬ Atomic (Kind.read .little .stringF16) ba) ∧
    ∃ ba outs, Machine.run change (new 4 fun _ => 0) [.write [0x80], .setPosition 0] =
        some (outs, ba) ∧ ¬ Atomic (Kind.read .little .uint32) ba := by
  have hstring : (Machine.run change (new 4 fun _ => 0)
      [.write [0, 5, 104, 101], .setPosition 0]).any
      (fun r => movesAway (Kind.read .little .stringF16) r.2) = true := by
    decide
  have hvarint : (Machine.run change (new 4 fun _ => 0) [.write [0x80], .setPosition 0]).any
      (fun r => movesAway (Kind.read .little .uint32) r.2) = true := by
    decide
  obtain ⟨⟨outs, ba⟩, hba, hmoved⟩ := (Option.any_eq_true _ _).mp hstring
  obtain ⟨⟨outs', ba'⟩, hba', hmoved'⟩ := (Option.any_eq_true _ _).mp hvarint
  exact ⟨⟨ba, outs, hba, not_atomic_of_movesAway hmoved⟩, ba', outs', hba',
    not_atomic_of_movesAway hmoved'⟩

end ByteArray

end Mingo
