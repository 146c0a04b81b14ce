import Mathlib.Data.List.Basic

/-!
# Lines that end with two symbols

Text is split at every pair of symbols `r`, `n`, the first of which is not the second, so
that no two such pairs overlap.

* `split_append`, `flatMap_split` -- the split of text in parts, and what it was split from;
* `block_iff` -- text that is written part by part, with an empty line at the end, reads as
  the block of the lines of the parts.
-/

namespace Lines

variable {α : Type*}

/-- The symbol joins the first line. -/
def consHead (b : α) : List (List α) → List (List α)
  | [] => [[b]]
  | l :: ls => (b :: l) :: ls

theorem consHead_append (b : α) {ls ls' : List (List α)} (h : ls ≠ []) :
    consHead b (ls ++ ls') = consHead b ls ++ ls' := by
  cases ls with
  | nil => exact absurd rfl h
  | cons l ls => rfl

theorem consHead_ne_nil (b : α) (ls : List (List α)) : consHead b ls ≠ [] := by
  cases ls with
  | nil => simp [consHead]
  | cons l ls => simp [consHead]

variable [DecidableEq α] {r n : α}

/-- The lines of a text; behind the last pair there is one more. -/
def split (r n : α) : List α → List (List α)
  | [] => [[]]
  | [b] => [[b]]
  | b :: c :: rest =>
      if b = r ∧ c = n then [] :: split r n rest else consHead b (split r n (c :: rest))

/-- `text` is a block of `lines`, the empty line that ends it, and `rest`. -/
structure Block (r n : α) (text : List α) (lines : List (List α)) (rest : List α) : Prop where
  text_eq : text = lines.flatMap (· ++ [r, n]) ++ r :: n :: rest
  line : ∀ l ∈ lines, l ≠ [] ∧ split r n l = [l]

theorem split_ne_nil (text : List α) : split r n text ≠ [] := by
  induction text using split.induct r n with
  | case1 => simp [split]
  | case2 b => simp [split]
  | case3 b c rest h ih => simp [split, h]
  | case4 b c rest h ih =>
      rw [split, if_neg h]
      exact consHead_ne_nil b _

/-- **Text in parts**, the first of which ends with a pair. -/
theorem split_append (hne : r ≠ n) (a b : List α) :
    split r n (a ++ r :: n :: b) = split r n a ++ split r n b := by
  induction a using split.induct r n with
  | case1 => simp [split]
  | case2 x =>
      have hno : ¬ (x = r ∧ r = n) := fun h => hne h.2
      simp [split, hno, consHead]
  | case3 x y rest h ih => simp [split, h, ih]
  | case4 x y rest h ih =>
      rw [List.cons_append] at ih
      simp only [List.cons_append, split, if_neg h, ih, consHead_append x (split_ne_nil _)]

theorem split_flatMap (hne : r ≠ n) (parts : List (List α)) (rest : List α) :
    split r n (parts.flatMap (· ++ [r, n]) ++ rest) =
      parts.flatMap (split r n) ++ split r n rest := by
  induction parts with
  | nil => rfl
  | cons part parts ih =>
      have hassoc : (part :: parts).flatMap (· ++ [r, n]) ++ rest =
          part ++ r :: n :: (parts.flatMap (· ++ [r, n]) ++ rest) := by simp
      rw [hassoc, split_append hne, ih, List.flatMap_cons, List.append_assoc]

/-- What was split. -/
theorem flatMap_split (text : List α) :
    (split r n text).flatMap (· ++ [r, n]) = text ++ [r, n] := by
  induction text using split.induct r n with
  | case1 => simp [split]
  | case2 b => simp [split]
  | case3 b c rest h ih => simp [split, h, ih]
  | case4 b c rest h ih =>
      rw [split, if_neg h]
      cases hs : split r n (c :: rest) with
      | nil => exact absurd hs (split_ne_nil _)
      | cons l ls =>
          rw [hs] at ih
          simp only [consHead, List.flatMap_cons, List.cons_append] at ih ⊢
          rw [ih]

/-- The first line begins as the text does. -/
theorem head_split {b : α} {text l : List α} {ls : List (List α)}
    (h : split r n (b :: text) = l :: ls) : l = [] ∧ b = r ∨ ∃ t, l = b :: t := by
  cases text with
  | nil =>
      cases h
      exact .inr ⟨[], rfl⟩
  | cons c rest =>
      rw [split] at h
      split at h
      · next hpair =>
          cases h
          exact .inl ⟨rfl, hpair.1⟩
      · right
        cases hs : split r n (c :: rest) with
        | nil => exact absurd hs (split_ne_nil _)
        | cons l' ls' =>
            rw [hs] at h
            cases h
            exact ⟨l', rfl⟩

/-- A line is not split again. -/
theorem split_line {text l : List α} (h : l ∈ split r n text) : split r n l = [l] := by
  induction text using split.induct r n generalizing l with
  | case1 =>
      rw [split, List.mem_singleton] at h
      rw [h, split]
  | case2 b =>
      rw [split, List.mem_singleton] at h
      rw [h, split]
  | case3 b c rest hpair ih =>
      rw [split, if_pos hpair, List.mem_cons] at h
      rcases h with rfl | h
      · rw [split]
      · exact ih h
  | case4 b c rest hno ih =>
      rw [split, if_neg hno] at h
      cases hs : split r n (c :: rest) with
      | nil => exact absurd hs (split_ne_nil _)
      | cons l' ls =>
          rw [hs, consHead, List.mem_cons] at h
          rcases h with rfl | h
          · have hline := ih (l := l') (by simp [hs])
            cases l' with
            | nil => rw [split]
            | cons d t =>
                -- the second symbol is the one behind `b` in the text
                have hsecond : d = c := by
                  rcases head_split hs with ⟨hnil, -⟩ | ⟨t', ht⟩
                  · cases hnil
                  · exact (List.cons.inj ht).1
                rw [split, if_neg (by rwa [hsecond]), hline, consHead]
          · exact ih (by rw [hs]; exact List.mem_cons_of_mem _ h)

theorem split_of_not_mem {text : List α} (h : r ∉ text) : split r n text = [text] := by
  induction text using split.induct r n with
  | case1 => rw [split]
  | case2 b => rw [split]
  | case3 b c rest hpair ih => exact absurd (by simp [hpair.1]) h
  | case4 b c rest hno ih =>
      rw [split, if_neg hno, ih fun hmem => h (List.mem_cons_of_mem b hmem), consHead]

/-- **Text that is written part by part** is the block of the lines of its parts, if none of
them is empty, and no other. -/
theorem block_iff (hne : r ≠ n) (parts lines : List (List α)) (rest : List α) :
    Block r n (parts.flatMap (· ++ [r, n]) ++ r :: n :: rest) lines rest ↔
      lines = parts.flatMap (split r n) ∧ ∀ l ∈ lines, l ≠ [] := by
  have hend : ∀ ls : List (List α), split r n (ls.flatMap (· ++ [r, n]) ++ r :: n :: rest) =
      ls.flatMap (split r n) ++ [] :: split r n rest := by
    intro ls
    rw [split_flatMap hne, ← List.nil_append (r :: n :: rest), split_append hne, split]
    rfl
  constructor
  · rintro ⟨htext, hlines⟩
    have hsplit := congrArg (split r n) htext
    rw [hend, hend] at hsplit
    have hsame : lines.flatMap (split r n) = lines := by
      calc lines.flatMap (split r n)
          = lines.flatMap fun l => [l] := List.flatMap_congr fun l hl => (hlines l hl).2
        _ = lines := List.flatMap_singleton' lines
    rw [hsame] at hsplit
    exact ⟨(List.append_cancel_right hsplit).symm, fun l hl => (hlines l hl).1⟩
  · rintro ⟨rfl, hlines⟩
    refine ⟨?_, fun l hl => ⟨hlines l hl, ?_⟩⟩
    · congr 1
      rw [List.flatMap_assoc]
      exact List.flatMap_congr fun part _ => (flatMap_split part).symm
    · obtain ⟨part, -, hmem⟩ := List.mem_flatMap.mp hl
      exact split_line hmem

end Lines
