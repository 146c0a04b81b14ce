import Mingo.Stream.Basic

/-!
# Messages in read results

A message is a header block and a body.  Its header block comes with the first `read`, and its
body in any pieces, the last of which ends with it.

* `readFixSize_pieces` -- `readFixSize` takes the pieces of the body and no others.
-/

namespace Mingo

/-- The read results bring a message: the first, into a buffer of `size` bytes, has the header
block, and all of them together the body. -/
def Brings (size : Nat) (head body : List UInt8) (pieces : List (List UInt8)) : Prop :=
  ∃ more rest, pieces = (head ++ more) :: rest ∧ more ++ rest.flatten = body ∧
    (head ++ more).length ≤ size ∧ (head ++ more).length ≤ maxRead ∧ ∀ piece ∈ rest, piece ≠ []

/-- The read results bring the data and nothing else; the first, into a buffer of `size` bytes, has
the first `front` bytes. -/
structure Cut (size front : Nat) (data : List UInt8) (pieces : List (List UInt8)) : Prop where
  whole : pieces.flatten = data
  nonempty : ∀ piece ∈ pieces, piece ≠ []
  first : ∃ piece, pieces.head? = some piece ∧ front ≤ piece.length ∧ piece.length ≤ size ∧
    piece.length ≤ maxRead

/-- A message that is cut behind its header block is brought. -/
theorem Cut.brings {size : Nat} {head body : List UInt8} {pieces : List (List UInt8)}
    (h : Cut size head.length (head ++ body) pieces) : Brings size head body pieces := by
  obtain ⟨hwhole, hne, piece, hfirst, hfront, hsize, hmax⟩ := h
  obtain ⟨rest, rfl⟩ := List.head?_eq_some_iff.mp hfirst
  rw [List.flatten_cons] at hwhole
  have hprefix : head <+: piece := by
    refine List.prefix_of_prefix_length_le (List.prefix_append head body) ?_ hfront
    rw [← hwhole]
    exact List.prefix_append _ _
  obtain ⟨more, rfl⟩ := hprefix
  rw [List.append_assoc] at hwhole
  exact ⟨more, rest, rfl, List.append_cancel_left hwhole, hsize, hmax,
    fun p hp => hne p (List.mem_cons_of_mem _ hp)⟩

namespace SocketStream

variable {rest later : List (List UInt8)} {turns left : Nat}

/-- **The loop over the pieces of a body** leaves those behind them. -/
theorem readLoop_pieces (hne : ∀ piece ∈ rest, piece ≠ []) (hlen : rest.flatten.length = left)
    (hturns : left ≤ turns) :
    readLoop turns left ⟨rest ++ later, true⟩ = (some rest.flatten, ⟨later, true⟩) := by
  induction turns generalizing left rest with
  | zero =>
      obtain rfl : left = 0 := by omega
      cases rest with
      | nil => rfl
      | cons piece rest =>
          have hpos : 0 < piece.length := List.length_pos_iff.mpr (hne piece (by simp))
          rw [List.flatten_cons, List.length_append] at hlen
          omega
  | succ turns ih =>
      cases rest with
      | nil =>
          obtain rfl : left = 0 := hlen.symm
          rfl
      | cons piece rest =>
          have hpos : 0 < piece.length := List.length_pos_iff.mpr (hne piece (by simp))
          have hrest : ∀ p ∈ rest, p ≠ [] := fun p hp => hne p (by simp [hp])
          rw [List.flatten_cons, List.length_append] at hlen
          obtain ⟨left, rfl⟩ : ∃ n, left = n + 1 := Nat.exists_eq_succ_of_ne_zero (by omega)
          rw [readLoop]
          by_cases hfit : piece.length ≤ maxRead
          · have hread : (⟨piece :: rest ++ later, true⟩ : SocketStream).read (left + 1) =
                (piece, ⟨rest ++ later, true⟩) := read_piece rfl rfl (by omega) hfit
            have hleft : rest.flatten.length = left + 1 - piece.length := by omega
            have hloop := ih hrest hleft (by omega)
            simp only [hread, if_neg (hne piece (by simp)), hloop, Option.map_some,
              List.flatten_cons]
          · -- a `read` returns no more than an `int` can say
            have hmax : 0 < maxRead := by decide
            have hmin : min (left + 1) maxRead = maxRead := by omega
            have hread : (⟨piece :: rest ++ later, true⟩ : SocketStream).read (left + 1) =
                (piece.take maxRead, ⟨piece.drop maxRead :: rest ++ later, true⟩) := by
              simp [read, hmin, hfit]
            have htake : (piece.take maxRead).length = maxRead := by
              rw [List.length_take]
              omega
            have hne' : piece.take maxRead ≠ [] := by
              rw [← List.length_pos_iff, htake]
              exact hmax
            have hdrop : ∀ p ∈ piece.drop maxRead :: rest, p ≠ [] := by
              intro p hp
              rcases List.mem_cons.mp hp with rfl | hp
              · rw [← List.length_pos_iff, List.length_drop]
                omega
              · exact hrest p hp
            have hleft : (piece.drop maxRead :: rest).flatten.length = left + 1 - maxRead := by
              rw [List.flatten_cons, List.length_append, List.length_drop]
              omega
            have hloop := ih hdrop hleft (by omega)
            simp only [hread, if_neg hne', htake, hloop, Option.map_some, List.flatten_cons]
            rw [← List.append_assoc, List.take_append_drop]

/-- **`readFixSize`** for what the pieces hold. -/
theorem readFixSize_pieces (hne : ∀ piece ∈ rest, piece ≠ []) (later : List (List UInt8)) :
    readFixSize ⟨rest ++ later, true⟩ rest.flatten.length =
      (toInt32 rest.flatten.length, rest.flatten, ⟨later, true⟩) := by
  rw [readFixSize, readLoop_pieces hne rfl (Nat.le_refl _)]

end SocketStream

end Mingo
