import Mathlib.Data.List.Basic
import Mathlib.Tactic.Ring

/-!
# Words as byte strings

The base-256 digits of a number, least significant first.  The digits of a
word determine it (`ofBytesLE_bytesLE`), and every byte string is the digits
of its value (`bytesLE_ofBytesLE`).
-/

namespace Words

/-- The `n` low bytes of `v`, least significant first. -/
def bytesLE : Nat → Nat → List UInt8
  | 0, _ => []
  | n + 1, v => UInt8.ofNat v :: bytesLE n (v / 256)

/-- The number with these bytes, least significant first. -/
def ofBytesLE : List UInt8 → Nat
  | [] => 0
  | b :: bs => b.toNat + 256 * ofBytesLE bs

@[simp]
theorem length_bytesLE (n v : Nat) : (bytesLE n v).length = n := by
  induction n generalizing v with
  | zero => rfl
  | succ n ih => simp [bytesLE, ih]

theorem ofBytesLE_lt (bs : List UInt8) : ofBytesLE bs < 256 ^ bs.length := by
  induction bs with
  | nil => simp [ofBytesLE]
  | cons b bs ih =>
      have hb : b.toNat < 256 := b.toNat_lt
      have hpow : 256 ^ (b :: bs).length = 256 * 256 ^ bs.length := by
        rw [List.length_cons]; ring
      rw [hpow, ofBytesLE]
      omega

/-- The digits of a word determine it. -/
theorem ofBytesLE_bytesLE {n v : Nat} (h : v < 256 ^ n) : ofBytesLE (bytesLE n v) = v := by
  induction n generalizing v with
  | zero =>
      simp at h
      simp [bytesLE, ofBytesLE, h]
  | succ n ih =>
      have hlt : v / 256 < 256 ^ n := by
        apply Nat.div_lt_of_lt_mul
        calc v < 256 ^ (n + 1) := h
          _ = 256 * 256 ^ n := by ring
      rw [bytesLE, ofBytesLE, ih hlt, UInt8.toNat_ofNat']
      omega

/-- A byte string is the digits of its value. -/
theorem bytesLE_ofBytesLE (bs : List UInt8) : bytesLE bs.length (ofBytesLE bs) = bs := by
  induction bs with
  | nil => rfl
  | cons b bs ih =>
      have hb : b.toNat < 256 := b.toNat_lt
      have hdiv : ofBytesLE (b :: bs) / 256 = ofBytesLE bs := by
        rw [ofBytesLE]
        omega
      have hhead : UInt8.ofNat (ofBytesLE (b :: bs)) = b := by
        apply UInt8.toNat_inj.mp
        rw [UInt8.toNat_ofNat', ofBytesLE]
        omega
      rw [List.length_cons, bytesLE, hdiv, hhead, ih]

/-- The digits of the complement of a word are complements. -/
theorem bytesLE_compl {n v : Nat} (h : v < 256 ^ n) :
    bytesLE n (256 ^ n - 1 - v) = (bytesLE n v).map (~~~ ·) := by
  induction n generalizing v with
  | zero => rfl
  | succ n ih =>
      have hpow : 256 ^ (n + 1) = 256 * 256 ^ n := by ring
      have hlt : v / 256 < 256 ^ n := by omega
      have hhead : UInt8.ofNat (256 ^ (n + 1) - 1 - v) = ~~~ UInt8.ofNat v := by
        apply UInt8.toNat_inj.mp
        rw [UInt8.toNat_not, UInt8.toNat_ofNat', UInt8.toNat_ofNat', UInt8.size]
        omega
      have htail : (256 ^ (n + 1) - 1 - v) / 256 = 256 ^ n - 1 - v / 256 := by omega
      rw [bytesLE, bytesLE, List.map_cons, hhead, htail, ih hlt]

theorem ofBytesLE_compl (bs : List UInt8) :
    ofBytesLE (bs.map (~~~ ·)) = 256 ^ bs.length - 1 - ofBytesLE bs := by
  have hlt := ofBytesLE_lt bs
  have hdigits := bytesLE_compl hlt
  rw [bytesLE_ofBytesLE] at hdigits
  rw [← hdigits, ofBytesLE_bytesLE (by omega)]

end Words
