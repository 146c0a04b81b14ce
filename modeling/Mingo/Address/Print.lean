import Mingo.Lib.Ipv6Text
import Mingo.Address.Network
import Mingo.Http.Dump

/-!
# How an IPv6 address is printed

`IPv6Address::insert` passes over the zeros in front of the first group that it
can print, and prints every zero behind it.  So the first run of zeros is the
one that `::` stands for, be it of a single group.

* `insertLoop_eq` -- what the loop prints of any groups;
* `IPv6Address.insert_faithful` -- the text denotes the address, and the port
  follows it.
-/

namespace Mingo.Address

open Http (decimal)

/-- `os << std::hex << n`. -/
def hexadecimal (n : Nat) : List UInt8 := (Nat.toDigits 16 n).map fun c => UInt8.ofNat c.toNat

/-- `s6_addr` as an array of eight `uint16_t`. -/
def IPv6Address.words (host : Endian) (a : IPv6Address) : List (BitVec (8 * 2)) :=
  (List.finRange 8).map fun i =>
    have hi := i.isLt
    ofMemory host 2 [UInt8.ofBitVec a.addr[2 * i.val], UInt8.ofBitVec a.addr[2 * i.val + 1]]

/-- The loop of `IPv6Address::insert` and the test behind it.  `prev` is `addr[i - 1]`, unless
`i` is 0, and `used` is `used_zeros`. -/
def insertLoop (host : Endian) :
    Option (BitVec (8 * 2)) → Bool → List (BitVec (8 * 2)) → List UInt8
  | prev, used, [] => if used = false ∧ prev = some 0 then [58, 58] else []
  | prev, used, g :: gs =>
      if g = 0 ∧ used = false then insertLoop host (some g) used gs
      else
        let zeros := decide (prev = some 0 ∧ used = false)
        (if zeros then [58] else []) ++ (if prev.isSome then [58] else []) ++
          hexadecimal (byteswapOnLittleEndian host g).toNat ++
          insertLoop host (some g) (used || zeros) gs

/-- `IPv6Address::insert`, on a stream with the flags that it has at first. -/
def IPv6Address.insert (host : Endian) (a : IPv6Address) : List UInt8 :=
  [91] ++ insertLoop host none false (a.words host) ++ [93, 58] ++
    decimal (byteswapOnLittleEndian host a.port).toNat

/-! ### Groups -/

theorem digitChar_isDigit : ∀ d < 16, Ipv6Text.isDigit (UInt8.ofNat d.digitChar.toNat) = true ∧
    Ipv6Text.digit (UInt8.ofNat d.digitChar.toNat) = d := by
  decide

/-- The digits of a number, by induction on their count. -/
theorem value_hexadecimal (n : Nat) :
    (hexadecimal n).all Ipv6Text.isDigit = true ∧ Ipv6Text.value 0 (hexadecimal n) = n := by
  induction n using Nat.strongRecOn with
  | ind n ih =>
      by_cases hn : n < 16
      · obtain ⟨hdigit, hvalue⟩ := digitChar_isDigit n hn
        rw [hexadecimal, Nat.toDigits_of_lt_base hn]
        simp [Ipv6Text.value, hdigit, hvalue]
      · obtain ⟨hall, hrest⟩ := ih (n / 16) (by omega)
        obtain ⟨hdigit, hvalue⟩ := digitChar_isDigit (n % 16) (Nat.mod_lt _ (by decide))
        have hsplit : hexadecimal n =
            hexadecimal (n / 16) ++ [UInt8.ofNat (n % 16).digitChar.toNat] := by
          rw [hexadecimal, Nat.toDigits_of_base_le (by decide) (by omega), List.map_append]
          rfl
        rw [hsplit]
        constructor
        · rw [List.all_append, hall]
          simp [hdigit]
        · rw [Ipv6Text.value] at hrest ⊢
          rw [List.foldl_append, hrest, List.foldl_cons, List.foldl_nil, hvalue]
          omega

theorem group?_hexadecimal {n : Nat} (hn : n < 2 ^ 16) :
    Ipv6Text.group? (hexadecimal n) = some n := by
  obtain ⟨hall, hvalue⟩ := value_hexadecimal n
  refine Ipv6Text.group?_eq_some.mpr ⟨⟨?_, ?_, hall⟩, hvalue⟩
  · rw [hexadecimal, ne_eq, List.map_eq_nil_iff]
    exact Nat.toDigits_ne_nil
  · rw [hexadecimal, List.length_map, Nat.length_toDigits_le_iff (by decide) (by decide)]
    exact hn

section Loop

variable (host : Endian)

/-- The number that a word is printed as. -/
def groupValue (g : BitVec (8 * 2)) : Nat := (byteswapOnLittleEndian host g).toNat

/-- The text that it is printed as. -/
def groupText (g : BitVec (8 * 2)) : List UInt8 := hexadecimal (groupValue host g)

theorem groups?_groupText (gs : List (BitVec (8 * 2))) :
    Ipv6Text.groups? (gs.map (groupText host)) = some (gs.map (groupValue host)) := by
  induction gs with
  | nil => rfl
  | cons g gs ih => exact Ipv6Text.groups?_cons (group?_hexadecimal (BitVec.isLt _)) ih

theorem groupValue_zero : groupValue host 0 = 0 := by
  cases host <;> rfl

/-! ### The loop -/

/-- Behind the `::` every group is printed. -/
theorem insertLoop_used (p : BitVec (8 * 2)) (gs : List (BitVec (8 * 2))) :
    insertLoop host (some p) true gs = gs.flatMap fun g => 58 :: groupText host g := by
  induction gs generalizing p with
  | nil => rfl
  | cons g gs ih =>
      have hskip : ¬ (g = 0 ∧ true = false) := by simp
      rw [insertLoop, if_neg hskip, List.flatMap_cons, ← ih g]
      simp [groupText, groupValue]

/-- The words are separated by colons. -/
def joinedText (gs : List (BitVec (8 * 2))) : List UInt8 :=
  Ipv6Text.joined (gs.map (groupText host))

theorem joinedText_cons (g : BitVec (8 * 2)) (gs : List (BitVec (8 * 2))) :
    joinedText host (g :: gs) = groupText host g ++ gs.flatMap fun g => 58 :: groupText host g := by
  rw [joinedText, List.map_cons, Ipv6Text.joined_cons, List.flatMap_map]

/-- In a run of zeros: it is over with the next group, or at the end. -/
theorem insertLoop_zero (gs : List (BitVec (8 * 2))) :
    ∃ k rest, gs = List.replicate k 0 ++ rest ∧
      insertLoop host (some 0) false gs = 58 :: 58 :: joinedText host rest := by
  induction gs with
  | nil => exact ⟨0, [], rfl, rfl⟩
  | cons g gs ih =>
      by_cases hg : g = 0
      · obtain ⟨k, rest, rfl, htext⟩ := ih
        refine ⟨k + 1, rest, by rw [hg]; rfl, ?_⟩
        rw [insertLoop, if_pos ⟨hg, rfl⟩, hg, htext]
      · refine ⟨0, g :: gs, rfl, ?_⟩
        have hskip : ¬ (g = 0 ∧ false = false) := fun h => hg h.1
        rw [insertLoop, if_neg hskip, joinedText_cons, ← insertLoop_used host g gs]
        simp [groupText, groupValue]

/-- The text of the groups in front of the first zero, behind an earlier group or none. -/
def frontText (prev : Option (BitVec (8 * 2))) (gs : List (BitVec (8 * 2))) : List UInt8 :=
  if prev.isSome then gs.flatMap fun g => 58 :: groupText host g else joinedText host gs

theorem frontText_cons (prev : Option (BitVec (8 * 2))) (g : BitVec (8 * 2))
    (gs : List (BitVec (8 * 2))) : frontText host prev (g :: gs) =
      (if prev.isSome then [58] else []) ++ groupText host g ++ frontText host (some g) gs := by
  cases prev with
  | none => exact joinedText_cons host g gs
  | some p => simp [frontText]

/-- **The loop**: by induction on the groups, as long as none is zero. -/
theorem insertLoop_eq (prev : Option (BitVec (8 * 2))) (hprev : prev ≠ some 0)
    (gs : List (BitVec (8 * 2))) :
    insertLoop host prev false gs = frontText host prev gs ∨
    ∃ front k rest, gs = front ++ List.replicate (k + 1) 0 ++ rest ∧
      insertLoop host prev false gs =
        frontText host prev front ++ 58 :: 58 :: joinedText host rest := by
  induction gs generalizing prev with
  | nil =>
      refine Or.inl ?_
      rw [insertLoop, if_neg (fun h => hprev h.2)]
      cases prev <;> rfl
  | cons g gs ih =>
      by_cases hg : g = 0
      · obtain ⟨k, rest, rfl, htext⟩ := insertLoop_zero host gs
        refine Or.inr ⟨[], k, rest, by rw [hg]; rfl, ?_⟩
        rw [insertLoop, if_pos ⟨hg, rfl⟩, hg, htext]
        cases prev <;> rfl
      · have hskip : ¬ (g = 0 ∧ false = false) := fun h => hg h.1
        have hstep : insertLoop host prev false (g :: gs) =
            (if prev.isSome then [58] else []) ++ groupText host g ++
              insertLoop host (some g) false gs := by
          have hzeros : decide (prev = some 0 ∧ false = false) = false :=
            decide_eq_false fun h => hprev h.1
          rw [insertLoop, if_neg hskip, hzeros]
          rfl
        rcases ih (some g) (by simpa using hg) with hall | ⟨front, k, rest, rfl, htext⟩
        · exact Or.inl (by rw [hstep, hall, frontText_cons])
        · refine Or.inr ⟨g :: front, k, rest, rfl, ?_⟩
          rw [hstep, htext, frontText_cons]
          simp only [List.append_assoc]

/-- The text of eight words denotes them. -/
theorem denotes_insertLoop {gs : List (BitVec (8 * 2))} (hlen : gs.length = 8) :
    Ipv6Text.Denotes (insertLoop host none false gs) (gs.map (groupValue host)) := by
  have hnone : (none : Option (BitVec (8 * 2))) ≠ some 0 := nofun
  rcases insertLoop_eq host none hnone gs with htext | ⟨front, k, rest, rfl, htext⟩
  · rw [htext]
    refine .full (groups?_groupText host gs) ?_
    rw [List.length_map, hlen]
  · rw [List.length_append, List.length_append, List.length_replicate] at hlen
    have hvalues : (front ++ List.replicate (k + 1) 0 ++ rest).map (groupValue host) =
        front.map (groupValue host) ++
          List.replicate (8 - ((front.map (groupValue host)).length +
            (rest.map (groupValue host)).length)) 0 ++ rest.map (groupValue host) := by
      have hcount : 8 - ((front.map (groupValue host)).length +
          (rest.map (groupValue host)).length) = k + 1 := by
        rw [List.length_map, List.length_map]
        omega
      rw [hcount, List.map_append, List.map_append, List.map_replicate, groupValue_zero]
    rw [htext, hvalues]
    refine .compressed (groups?_groupText host front) (groups?_groupText host rest) ?_
    rw [List.length_map, List.length_map]
    omega

end Loop

/-! ### Addresses -/

/-- The eight groups that the bytes form. -/
def IPv6Address.groups (a : IPv6Address) : List Nat :=
  (List.finRange 8).map fun i =>
    have hi := i.isLt
    a.addr[2 * i.val].toNat * 256 + a.addr[2 * i.val + 1].toNat

variable (host : Endian)

/-- A word is printed as its bytes in network order. -/
theorem groupValue_ofMemory (x y : BitVec 8) :
    groupValue host (ofMemory host 2 [UInt8.ofBitVec x, UInt8.ofBitVec y]) =
      x.toNat * 256 + y.toNat := by
  have hx : (UInt8.ofBitVec x).toNat = x.toNat := rfl
  have hy : (UInt8.ofBitVec y).toNat = y.toNat := rfl
  have hxlt := x.isLt
  have hylt := y.isLt
  have hlittle : Words.ofBytesLE [UInt8.ofBitVec x, UInt8.ofBitVec y] =
      x.toNat + 256 * y.toNat := by
    simp [Words.ofBytesLE, hx, hy]
  have hbig : Words.ofBytesLE [UInt8.ofBitVec y, UInt8.ofBitVec x] = y.toNat + 256 * x.toNat := by
    simp [Words.ofBytesLE, hx, hy]
  cases host with
  | little =>
      have hdigits := Words.bytesLE_ofBytesLE [UInt8.ofBitVec x, UInt8.ofBitVec y]
      rw [hlittle] at hdigits
      have hvalue : (ofMemory .little 2 [UInt8.ofBitVec x, UInt8.ofBitVec y]).toNat =
          x.toNat + 256 * y.toNat := by
        rw [ofMemory, hlittle, BitVec.toNat_ofNat]
        omega
      rw [groupValue, byteswapOnLittleEndian, byteswap, hvalue]
      rw [show [UInt8.ofBitVec x, UInt8.ofBitVec y].length = 2 from rfl] at hdigits
      rw [hdigits, List.reverse_cons, List.reverse_singleton, List.singleton_append, hbig,
        BitVec.toNat_ofNat]
      omega
  | big =>
      rw [groupValue, byteswapOnLittleEndian, ofMemory, List.reverse_cons, List.reverse_singleton,
        List.singleton_append, hbig, BitVec.toNat_ofNat]
      omega

theorem IPv6Address.words_values (a : IPv6Address) :
    (a.words host).map (groupValue host) = a.groups := by
  rw [words, groups, List.map_map]
  refine List.map_congr_left fun i _ => ?_
  exact groupValue_ofMemory host _ _

/-- The groups determine the bytes. -/
theorem IPv6Address.groups_inj {a b : IPv6Address} (h : a.groups = b.groups) : a.addr = b.addr := by
  rw [groups, groups] at h
  apply Vector.ext
  intro j hj
  have hlt : j / 2 < 8 := by omega
  have hgroup := List.map_inj_left.mp h ⟨j / 2, hlt⟩ (List.mem_finRange _)
  dsimp only at hgroup
  have hlow := a.addr[2 * (j / 2) + 1].isLt
  have hlow' := b.addr[2 * (j / 2) + 1].isLt
  obtain heven | hodd : 2 * (j / 2) = j ∨ 2 * (j / 2) + 1 = j := by omega
  · apply BitVec.eq_of_toNat_eq
    simp only [heven] at hgroup hlow hlow'
    omega
  · apply BitVec.eq_of_toNat_eq
    simp only [hodd] at hgroup hlow hlow'
    omega

/-- What is printed between the brackets. -/
def IPv6Address.text (a : IPv6Address) : List UInt8 := insertLoop host none false (a.words host)

theorem IPv6Address.denotes_text (a : IPv6Address) : Ipv6Text.Denotes (a.text host) a.groups := by
  rw [← a.words_values host]
  apply denotes_insertLoop
  rw [words, List.length_map, List.length_finRange]

/-- The closing bracket is not part of the address. -/
theorem IPv6Address.takeWhile_insert (a : IPv6Address) (rest : List UInt8) :
    (a.text host ++ 93 :: rest).takeWhile Ipv6Text.isText = a.text host := by
  rw [List.takeWhile_append_of_pos (List.all_eq_true.mp (a.denotes_text host).all),
    List.takeWhile_cons_of_neg (by decide), List.append_nil]

/-- **Printing an IPv6 address.** -/
theorem IPv6Address.insert_faithful :
    (∀ a : IPv6Address, ∃ text, Ipv6Text.Denotes text a.groups ∧
      a.insert host = [91] ++ text ++ [93, 58] ++ decimal (a.getPort host).toNat) ∧
    ∀ a b : IPv6Address, a.insert host = b.insert host →
      a.addr = b.addr ∧ a.getPort host = b.getPort host := by
  refine ⟨fun a => ⟨a.text host, a.denotes_text host, rfl⟩, ?_⟩
  intro a b h
  have hshape : ∀ c : IPv6Address, c.insert host =
      91 :: (c.text host ++ 93 :: 58 :: decimal (c.getPort host).toNat) := by
    intro c
    simp [insert, text, getPort]
  rw [hshape, hshape] at h
  have htail := (List.cons.inj h).2
  have htext : a.text host = b.text host := by
    rw [← a.takeWhile_insert host (58 :: decimal (a.getPort host).toNat), htail,
      b.takeWhile_insert]
  rw [htext, List.append_cancel_left_eq] at htail
  have hport := Http.decimal_injective (List.cons.inj (List.cons.inj htail).2).2
  refine ⟨groups_inj ?_, BitVec.eq_of_toNat_eq hport⟩
  exact (htext ▸ a.denotes_text host).unique (b.denotes_text host)

end Mingo.Address
