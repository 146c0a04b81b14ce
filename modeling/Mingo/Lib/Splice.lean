import Mathlib.Data.List.Basic

/-!
# Overwriting and reading across blocks

`List.splice xs p ys` overwrites the elements of `xs` from `p` on by `ys`.
The lemmas say how it, and reading a slice, meet the seam of a concatenation:
what lies before the seam, behind it, or across it.
-/

namespace List

variable {α : Type*}

/-- `xs` with its elements from index `p` on overwritten by `ys`. -/
def splice (xs : List α) (p : Nat) (ys : List α) : List α :=
  xs.take p ++ ys ++ xs.drop (p + ys.length)

@[simp]
theorem splice_nil (xs : List α) (p : Nat) : xs.splice p [] = xs := by
  simp [splice]

/-- Overwriting at the very end appends. -/
theorem splice_length (xs ys : List α) : xs.splice xs.length ys = xs ++ ys := by
  rw [splice, take_length, drop_eq_nil_of_le (Nat.le_add_right _ _), append_nil]

theorem length_splice {xs ys : List α} {p : Nat} (h : p + ys.length ≤ xs.length) :
    (xs.splice p ys).length = xs.length := by
  simp only [splice, length_append, length_take, length_drop]
  omega

/-- What lies from the overwritten place on. -/
theorem drop_splice {xs : List α} {p : Nat} (ys : List α) (h : p ≤ xs.length) :
    (xs.splice p ys).drop p = ys ++ xs.drop (p + ys.length) := by
  have hlen : (xs.take p).length = p := by
    rw [length_take, Nat.min_eq_left h]
  rw [splice, append_assoc, drop_append_of_le_length (Nat.le_of_eq hlen.symm),
    drop_eq_nil_of_le (Nat.le_of_eq hlen), nil_append]

/-- Overwriting behind the seam. -/
theorem splice_append_right (xs zs ys : List α) (p : Nat) :
    (xs ++ zs).splice (xs.length + p) ys = xs ++ zs.splice p ys := by
  have hdrop : (xs ++ zs).drop (xs.length + p + ys.length) = zs.drop (p + ys.length) := by
    rw [Nat.add_assoc, drop_append]
    simp
  have htake : (xs ++ zs).take (xs.length + p) = xs ++ zs.take p := by
    rw [take_append, take_of_length_le (by omega)]
    simp
  rw [splice, hdrop, htake]
  simp [splice]

/-- Overwriting before the seam. -/
theorem splice_append_left {xs : List α} (zs : List α) {ys : List α} {p : Nat}
    (h : p + ys.length ≤ xs.length) :
    (xs ++ zs).splice p ys = xs.splice p ys ++ zs := by
  have htake : (xs ++ zs).take p = xs.take p := take_append_of_le_length (by omega)
  have hdrop : (xs ++ zs).drop (p + ys.length) = xs.drop (p + ys.length) ++ zs :=
    drop_append_of_le_length h
  simp [splice, htake, hdrop]

/-- Overwriting across the seam. -/
theorem splice_append_across {xs : List α} (zs : List α) {ys ys' : List α} {p : Nat}
    (h : p + ys.length = xs.length) :
    (xs ++ zs).splice p (ys ++ ys') = xs.splice p ys ++ zs.splice 0 ys' := by
  have htake : (xs ++ zs).take p = xs.take p := take_append_of_le_length (by omega)
  have hdrop : (xs ++ zs).drop (p + (ys ++ ys').length) = zs.drop ys'.length := by
    rw [length_append, ← Nat.add_assoc, h, drop_append]
    simp
  have hnil : xs.drop (p + ys.length) = [] := drop_eq_nil_of_le (by omega)
  rw [splice, hdrop, htake]
  simp [splice, hnil]

theorem length_take_append {xs : List α} {p : Nat} (ys : List α) (h : p ≤ xs.length) :
    (xs.take p ++ ys).length = p + ys.length := by
  rw [length_append, length_take, Nat.min_eq_left h]

/-- Up to where the overwriting stopped, it extends a prefix. -/
theorem take_splice_end {xs : List α} {p : Nat} (ys : List α) (h : p ≤ xs.length) :
    (xs.splice p ys).take (p + ys.length) = xs.take p ++ ys := by
  rw [splice, ← length_take_append ys h, take_left']
  rfl

/-- Overwriting goes on where it stopped. -/
theorem splice_splice {xs : List α} {p : Nat} (ys zs : List α) (h : p ≤ xs.length) :
    (xs.splice p ys).splice (p + ys.length) zs = xs.splice p (ys ++ zs) := by
  have hdrop : (xs.splice p ys).drop (p + ys.length + zs.length) =
      xs.drop (p + (ys ++ zs).length) := by
    have hsum : p + ys.length + zs.length = (xs.take p ++ ys).length + zs.length := by
      rw [length_take_append ys h]
    rw [splice, hsum, drop_length_add_append, drop_drop, length_append, Nat.add_assoc]
  rw [splice, take_splice_end ys h, hdrop]
  simp [splice]

/-- A prefix that is overwritten, and extended where the new elements reach behind it. -/
theorem take_splice {xs ys : List α} {n p : Nat} (zs : List α) (hp : p ≤ n) (hn : n ≤ xs.length) :
    ((xs ++ zs).splice p ys).take (max n (p + ys.length)) = (xs.take n).splice p ys := by
  have hfront : ((xs ++ zs).take p ++ ys).length = p + ys.length := by
    rw [length_append, length_take, length_append]
    omega
  have htake : (xs ++ zs).take p = (xs.take n).take p := by
    rw [take_append_of_le_length (by omega), take_take, Nat.min_eq_left hp]
  have hrest : ((xs ++ zs).drop (p + ys.length)).take (max n (p + ys.length) - (p + ys.length)) =
      (xs.take n).drop (p + ys.length) := by
    have hmax : max n (p + ys.length) - (p + ys.length) = n - (p + ys.length) := by omega
    rw [hmax, ← drop_take, take_append_of_le_length hn]
  rw [splice, take_append, hfront, hrest, take_of_length_le (by omega), htake, splice]

end List
