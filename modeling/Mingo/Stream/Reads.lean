import Mingo.Stream.Pieces

/-!
# What is left of the reads

A buffer with bytes that are not parsed yet counts as the first read.  Behind the first bytes
of the reads, the others are those of `dropBytes`, and end where they did before.
-/

namespace Mingo

/-- The reads of which `data` is the first, if it has bytes. -/
def reads (data : List UInt8) (pieces : List (List UInt8)) : List (List UInt8) :=
  if data = [] then pieces else data :: pieces

/-- A read ends behind the first `n` bytes. -/
def EndsAt (pieces : List (List UInt8)) (n : Nat) : Prop :=
  ∃ pre post, pieces = pre ++ post ∧ pre.flatten.length = n

variable {data piece : List UInt8} {pieces : List (List UInt8)} {size m n : Nat}

/-- The reads bring these bytes. -/
theorem flatten_reads (data : List UInt8) (pieces : List (List UInt8)) :
    (reads data pieces).flatten = data ++ pieces.flatten := by
  rw [reads]
  split
  · next h => rw [h, List.nil_append]
  · rw [List.flatten_cons]

/-- A read has at least one byte. -/
theorem ReadResults.nonempty (h : ReadResults size pieces) : ∀ piece ∈ pieces, piece ≠ [] :=
  fun piece hpiece => (h piece hpiece).1

/-- The reads behind the first one are read results too. -/
theorem ReadResults.of_reads (h : ReadResults size (reads data pieces)) :
    ReadResults size pieces := by
  rw [reads] at h
  split at h
  · exact h
  · exact fun piece hpiece => h piece (by simp [hpiece])

/-- What is left of read results behind a number of bytes. -/
theorem ReadResults.dropBytes (h : ReadResults size pieces) (n : Nat) :
    ReadResults size (dropBytes pieces n) := by
  intro p hp
  obtain ⟨hne, piece, hmem, hle⟩ := mem_dropBytes hp h.nonempty
  obtain ⟨_, hmax, hsize⟩ := h piece hmem
  exact ⟨hne, by omega, by omega⟩

/-- Bytes dropped in two steps. -/
theorem dropBytes_dropBytes (pieces : List (List UInt8)) (m n : Nat) :
    dropBytes (dropBytes pieces m) n = dropBytes pieces (m + n) := by
  induction pieces generalizing m with
  | nil => rfl
  | cons piece pieces ih =>
      by_cases hm : m < piece.length
      · by_cases hn : m + n < piece.length
        · rw [dropBytes, if_pos hm, dropBytes, if_pos (by rw [List.length_drop]; omega), dropBytes,
            if_pos hn, List.drop_drop]
        · have hrest : n - (piece.drop m).length = m + n - piece.length := by
            rw [List.length_drop]
            omega
          rw [dropBytes, if_pos hm, dropBytes, if_neg (by rw [List.length_drop]; omega), hrest,
            dropBytes, if_neg hn]
      · have hrest : m - piece.length + n = m + n - piece.length := by omega
        rw [dropBytes, if_neg hm, ih, hrest, dropBytes, if_neg (by omega)]

/-- Behind the first read. -/
theorem dropBytes_reads (data : List UInt8) (pieces : List (List UInt8)) (n : Nat) :
    dropBytes (reads data pieces) (data.length + n) = dropBytes pieces n := by
  rw [reads]
  split
  · next h => rw [h, List.length_nil, Nat.zero_add]
  · rw [dropBytes, if_neg (by omega), Nat.add_sub_cancel_left]

/-- What is left of the first read, and the others. -/
theorem reads_drop (hne : ∀ p ∈ pieces, p ≠ []) (hn : n ≤ piece.length) :
    reads (piece.drop n) pieces = dropBytes (piece :: pieces) n := by
  rw [reads, dropBytes]
  by_cases hlt : n < piece.length
  · have hdrop : piece.drop n ≠ [] := by
      rw [← List.length_pos_iff, List.length_drop]
      omega
    rw [if_neg hdrop, if_pos hlt]
  · have hzero : n - piece.length = 0 := by omega
    rw [if_pos (List.drop_eq_nil_of_le (by omega)), if_neg hlt, hzero, dropBytes_zero hne]

/-- The reads behind the first bytes end where the reads do. -/
theorem EndsAt.of_dropBytes (hn : 0 < n) (h : EndsAt (dropBytes pieces m) n) :
    EndsAt pieces (m + n) := by
  induction pieces generalizing m with
  | nil =>
      obtain ⟨pre, post, heq, hlen⟩ := h
      obtain ⟨rfl, _⟩ := List.append_eq_nil_iff.mp heq.symm
      simp at hlen
      omega
  | cons piece pieces ih =>
      rw [dropBytes] at h
      split at h
      · next hm =>
          obtain ⟨pre, post, heq, hlen⟩ := h
          cases pre with
          | nil =>
              simp at hlen
              omega
          | cons p pre =>
              obtain ⟨rfl, rfl⟩ := List.cons.inj heq
              refine ⟨piece :: pre, post, rfl, ?_⟩
              simp only [List.flatten_cons, List.length_append, List.length_drop] at hlen ⊢
              omega
      · next hm =>
          obtain ⟨pre, post, rfl, hlen⟩ := ih h
          refine ⟨piece :: pre, post, rfl, ?_⟩
          rw [List.flatten_cons, List.length_append, hlen]
          omega

/-- The first read does not end before the reads first end. -/
theorem le_head_of_uncut (hpiece : piece ≠ [])
    (h : ∀ e, EndsAt (piece :: pieces) e → ¬ (0 < e ∧ e < n)) : n ≤ piece.length := by
  have hends : EndsAt (piece :: pieces) piece.length := ⟨[piece], pieces, rfl, by simp⟩
  have hpos : 0 < piece.length := List.length_pos_iff.mpr hpiece
  have := h _ hends
  omega

/-- No read ends in the middle of what the first read holds whole. -/
theorem uncut_of_le_head (hn : n ≤ piece.length) :
    ∀ e, EndsAt (piece :: pieces) e → ¬ (0 < e ∧ e < n) := by
  rintro e ⟨pre, post, heq, rfl⟩ ⟨hpos, hlt⟩
  cases pre with
  | nil => simp at hpos
  | cons p pre =>
      obtain ⟨rfl, _⟩ := List.cons.inj heq
      rw [List.flatten_cons, List.length_append] at hlt
      omega

end Mingo
