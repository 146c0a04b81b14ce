import Mingo.Stream.Basic

/-!
# Bytes in pieces

The bytes a peer sends are one list, and a split of it into results of `read` a
list of pieces.  Where in the pieces a byte lies decides what a parser sees at
once: `readStart` and `overshoot` say how far the piece with it reaches to the
front and to the back.
-/

namespace Mingo

/-- Of two splits of the same bytes, one has the longer first part. -/
theorem split_of_le {a b c d : List UInt8} (h : a ++ b = c ++ d) (hle : c.length ≤ a.length) :
    ∃ more, a = c ++ more ∧ d = more ++ b := by
  rcases List.append_eq_append_iff.mp h with ⟨rest, hc, hb⟩ | ⟨more, ha, hd⟩
  · have hnil : rest = [] := by
      rw [hc, List.length_append] at hle
      exact List.length_eq_zero_iff.mp (by omega)
    rw [hnil, List.append_nil] at hc
    rw [hnil, List.nil_append] at hb
    exact ⟨[], by rw [hc, List.append_nil], hb.symm⟩
  · exact ⟨more, ha, hd⟩

/-- The index at which the read result with byte `x` begins. -/
def readStart : List (List UInt8) → Nat → Nat
  | [], _ => 0
  | piece :: pieces, x =>
      if x < piece.length then 0 else piece.length + readStart pieces (x - piece.length)

/-- The bytes that the read result with the last of the first `n` bytes has
behind it. -/
def overshoot : List (List UInt8) → Nat → Nat
  | [], _ => 0
  | piece :: pieces, n =>
      if n ≤ piece.length then piece.length - n else overshoot pieces (n - piece.length)

/-- `pieces` can be successive results of `read` when the first `n` bytes are read
into a buffer of `size` bytes and the others wherever they go. -/
def Readable (size : Nat) : Nat → List (List UInt8) → Prop
  | _, [] => True
  | 0, piece :: pieces =>
      piece ≠ [] ∧ piece.length ≤ maxRead ∧ Readable size 0 pieces
  | n + 1, piece :: pieces =>
      piece ≠ [] ∧ piece.length ≤ maxRead ∧ piece.length ≤ size ∧
        Readable size (n + 1 - piece.length) pieces

instance decidableReadable (size : Nat) :
    ∀ (n : Nat) (pieces : List (List UInt8)), Decidable (Readable size n pieces)
  | 0, [] => isTrue trivial
  | _ + 1, [] => isTrue trivial
  | 0, _ :: pieces =>
      have := decidableReadable size 0 pieces
      inferInstanceAs (Decidable (_ ∧ _ ∧ _))
  | n + 1, piece :: pieces =>
      have := decidableReadable size (n + 1 - piece.length) pieces
      inferInstanceAs (Decidable (_ ∧ _ ∧ _ ∧ _))

/-- `pieces` can be results of `read` into a buffer of `size` bytes. -/
def ReadResults (size : Nat) (pieces : List (List UInt8)) : Prop :=
  ∀ piece ∈ pieces, piece ≠ [] ∧ piece.length ≤ maxRead ∧ piece.length ≤ size

instance (size : Nat) (pieces : List (List UInt8)) : Decidable (ReadResults size pieces) :=
  inferInstanceAs (Decidable (∀ piece ∈ pieces, _))

/-- What is left of the pieces behind the first `n` bytes. -/
def dropBytes : List (List UInt8) → Nat → List (List UInt8)
  | [], _ => []
  | piece :: pieces, n =>
      if n < piece.length then piece.drop n :: pieces else dropBytes pieces (n - piece.length)

/-- The first read result holds the first `n` bytes. -/
def AtOnce (pieces : List (List UInt8)) (n : Nat) : Prop :=
  ∃ piece rest, pieces = piece :: rest ∧ n ≤ piece.length

variable {pieces : List (List UInt8)} {n : Nat}

/-- A piece has at least one byte. -/
theorem Readable.nonempty {size : Nat} (h : Readable size n pieces) : ∀ p ∈ pieces, p ≠ [] := by
  induction pieces generalizing n with
  | nil => simp
  | cons piece pieces ih =>
      intro p hp
      cases n with
      | zero =>
          obtain ⟨hne, _, hrest⟩ := h
          rcases List.mem_cons.mp hp with rfl | hp
          · exact hne
          · exact ih hrest p hp
      | succ n =>
          obtain ⟨hne, _, _, hrest⟩ := h
          rcases List.mem_cons.mp hp with rfl | hp
          · exact hne
          · exact ih hrest p hp

/-- There are at most as many nonempty pieces as bytes. -/
theorem length_le_flatten {α : Type} {xss : List (List α)} (h : ∀ xs ∈ xss, xs ≠ []) :
    xss.length ≤ xss.flatten.length := by
  induction xss with
  | nil => simp
  | cons xs xss ih =>
      have hpos : 0 < xs.length := List.length_pos_iff.mpr (h xs (by simp))
      have hrest := ih fun xs' hxs' => h xs' (by simp [hxs'])
      simp only [List.length_cons, List.flatten_cons, List.length_append]
      omega

/-- What is left of the pieces is what is left of the bytes. -/
theorem flatten_dropBytes (pieces : List (List UInt8)) (n : Nat) :
    (dropBytes pieces n).flatten = pieces.flatten.drop n := by
  induction pieces generalizing n with
  | nil => simp [dropBytes]
  | cons piece pieces ih =>
      by_cases hn : n < piece.length
      · rw [dropBytes, if_pos hn, List.flatten_cons, List.flatten_cons,
          List.drop_append_of_le_length (by omega)]
      · have hpiece : piece.drop n = [] := List.drop_eq_nil_of_le (by omega)
        rw [dropBytes, if_neg hn, ih, List.flatten_cons, List.drop_append, hpiece,
          List.nil_append]

/-- Nothing is dropped. -/
theorem dropBytes_zero (hne : ∀ piece ∈ pieces, piece ≠ []) : dropBytes pieces 0 = pieces := by
  cases pieces with
  | nil => rfl
  | cons piece pieces =>
      have hpos : 0 < piece.length := List.length_pos_iff.mpr (hne piece (by simp))
      rw [dropBytes, if_pos hpos, List.drop_zero]

/-- The piece with a later byte reaches as far as before. -/
theorem overshoot_dropBytes {x : Nat} (hx : 0 < x) :
    overshoot (dropBytes pieces n) x = overshoot pieces (n + x) := by
  induction pieces generalizing n with
  | nil => rfl
  | cons piece pieces ih =>
      by_cases hn : n < piece.length
      · rw [dropBytes, if_pos hn, overshoot, overshoot, List.length_drop]
        by_cases hx' : x ≤ piece.length - n
        · rw [if_pos hx', if_pos (by omega), Nat.sub_sub]
        · have hout : ¬ n + x ≤ piece.length := by omega
          have hsame : x - (piece.length - n) = n + x - piece.length := by omega
          rw [if_neg hx', if_neg hout, hsame]
      · have hout : ¬ n + x ≤ piece.length := by omega
        have hsame : n - piece.length + x = n + x - piece.length := by omega
        rw [dropBytes, if_neg hn, ih, overshoot, if_neg hout, hsame]

/-- A piece that is left is part of a piece. -/
theorem mem_dropBytes {p : List UInt8} (h : p ∈ dropBytes pieces n)
    (hne : ∀ piece ∈ pieces, piece ≠ []) :
    p ≠ [] ∧ ∃ piece ∈ pieces, p.length ≤ piece.length := by
  induction pieces generalizing n with
  | nil => cases h
  | cons piece pieces ih =>
      rw [dropBytes] at h
      split at h
      · next hn =>
          rcases List.mem_cons.mp h with rfl | h
          · refine ⟨?_, piece, by simp, by simp⟩
            rw [← List.length_pos_iff, List.length_drop]
            omega
          · exact ⟨hne p (by simp [h]), p, by simp [h], Nat.le_refl _⟩
      · obtain ⟨hp, piece', hmem, hle⟩ := ih h fun q hq => hne q (by simp [hq])
        exact ⟨hp, piece', by simp [hmem], hle⟩

/-! ### What a stream hands over -/

namespace SocketStream

/-- The bytes of the pieces, as large as a `read` returns them, up to the one with byte `n`. -/
def coverPieces : List (List UInt8) → Nat → Nat
  | [], _ => 0
  | piece :: rest, n =>
      if n = 0 ∨ piece = [] then 0
      else if n ≤ piece.length then min piece.length maxRead
      else piece.length + coverPieces rest (n - piece.length)

/-- What reads of any size hand over until they have `n` bytes, or one fails. -/
def cover (s : SocketStream) (n : Nat) : Nat :=
  if s.connected then coverPieces s.pending n else 0

/-- No piece is needed for nothing. -/
@[simp]
theorem cover_zero (s : SocketStream) : s.cover 0 = 0 := by
  rw [cover]
  split
  · cases s.pending with
    | nil => rfl
    | cons piece rest => simp [coverPieces]
  · rfl

/-- A `read` of no byte. -/
@[simp]
theorem read_zero (s : SocketStream) : (s.read 0).1 = [] :=
  List.eq_nil_of_length_eq_zero (Nat.le_zero.mp (s.length_read_le 0))

/-- A `read` of more than there can be takes the first piece. -/
theorem read_cover {n q : Nat} (s : SocketStream) (hpos : 0 < n) (hn : n ≤ maxRead)
    (hq : maxRead ≤ q) :
    ((s.read q).1 = [] ∧ s.cover n = 0) ∨
      (s.read q).1 ≠ [] ∧ s.cover n =
        (s.read q).1.length + (s.read q).2.cover (n - (s.read q).1.length) := by
  obtain ⟨pending, connected⟩ := s
  cases connected with
  | false => exact .inl ⟨rfl, rfl⟩
  | true =>
      cases pending with
      | nil => exact .inl ⟨rfl, rfl⟩
      | cons piece rest =>
          have hmin : min q maxRead = maxRead := Nat.min_eq_right hq
          have hzero : n ≠ 0 := by omega
          by_cases hpiece : piece = []
          · subst hpiece
            left
            simp [read, cover, coverPieces]
          · have hlen : 0 < piece.length := List.length_pos_iff.mpr hpiece
            right
            by_cases hfit : piece.length ≤ maxRead
            · refine ⟨by simp [read, hmin, hfit, hpiece], ?_⟩
              simp only [read, hmin, hfit, if_true, cover, coverPieces, hpiece, hzero, or_self,
                if_false]
              by_cases hle : n ≤ piece.length
              · have hnone : n - piece.length = 0 := by omega
                have hcover := cover_zero ⟨rest, true⟩
                simp only [cover, if_true] at hcover
                rw [if_pos hle, Nat.min_eq_left hfit, hnone, hcover, Nat.add_zero]
              · rw [if_neg hle]
            · have hcut : (piece.take maxRead).length = maxRead := by
                rw [List.length_take]
                omega
              have hnone : n - maxRead = 0 := by omega
              refine ⟨?_, ?_⟩
              · simp only [read, if_true, hmin, if_neg hfit]
                rw [← List.length_pos_iff, hcut]
                decide
              · simp only [read, if_true, hmin, if_neg hfit, hcut, hnone, cover_zero]
                simp only [cover, if_true, coverPieces, hpiece, hzero, or_self, if_false]
                rw [if_pos (by omega)]
                omega

end SocketStream

end Mingo
