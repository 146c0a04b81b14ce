import Mathlib.Data.List.Basic

/-!
# Texts with delimiters

A text that begins with a part, and goes on behind it with a delimiter or not at all, has no
other part of this kind.
-/

namespace Delimited

variable {α : Type} {delim : α → Prop} {a a' x x' : List α}

/-- The part has no delimiter, and what follows begins with one. -/
structure Splits (delim : α → Prop) (a x : List α) : Prop where
  part : ∀ b ∈ a, ¬ delim b
  rest : ∀ b, x.head? = some b → delim b

/-- An empty part. -/
theorem splits_nil (hx : ∀ b, x.head? = some b → delim b) : Splits delim [] x := ⟨by simp, hx⟩

/-- A part up to the end. -/
theorem splits_all (ha : ∀ b ∈ a, ¬ delim b) : Splits delim a [] := ⟨ha, by simp⟩

/-- A part in front of a delimiter. -/
theorem splits_cons {b : α} (ha : ∀ b ∈ a, ¬ delim b) (hb : delim b) : Splits delim a (b :: x) := by
  refine ⟨ha, ?_⟩
  rintro c ⟨⟩
  exact hb

/-- **The part is unique.** -/
theorem Splits.unique (h : Splits delim a x) (h' : Splits delim a' x') (heq : a ++ x = a' ++ x') :
    a = a' ∧ x = x' := by
  rcases List.append_eq_append_iff.mp heq with ⟨c, rfl, rfl⟩ | ⟨c, rfl, rfl⟩
  · cases c with
    | nil => simp
    | cons b c => exact absurd (h.rest b rfl) (h'.part b (by simp))
  · cases c with
    | nil => simp
    | cons b c => exact absurd (h'.rest b rfl) (h.part b (by simp))

/-! ### Pieces -/

/-- What is in a piece is in the list. -/
theorem mem_of_mem_splitOn [BEq α] [LawfulBEq α] {s b : α} (ha : a ∈ x.splitOn s) (hb : b ∈ a) :
    b ∈ x := by
  have hjoined {as : List (List α)} (ha : a ∈ as) : b ∈ [s].intercalate as := by
    induction as with
    | nil => cases ha
    | cons c as ih =>
        cases as with
        | nil =>
            obtain rfl := List.mem_singleton.mp ha
            simpa using hb
        | cons c' as =>
            rw [List.intercalate_cons_cons]
            rcases List.mem_cons.mp ha with rfl | ha
            · simp [hb]
            · simp [ih ha]
  have hx : [s].intercalate (x.splitOn s) = x := List.intercalate_splitOn s
  rw [← hx]
  exact hjoined ha

/-- Two separators in a row are where they are first. -/
theorem gap_unique [BEq α] [LawfulBEq α] {s : α} (ha : [] ∉ a.splitOn s) (ha' : [] ∉ a'.splitOn s)
    (heq : a ++ s :: s :: x = a' ++ s :: s :: x') : a = a' ∧ x = x' := by
  have hpieces {a : List α} (x : List α) :
      (a ++ s :: s :: x).splitOn s = a.splitOn s ++ [] :: x.splitOn s := by
    rw [List.splitOn_append_cons_self]
    congr 1
    exact List.splitOn_append_cons_self_of_not_mem List.not_mem_nil x
  have hsplits {a : List α} (ha : [] ∉ a.splitOn s) (x : List α) :
      Splits (· = []) (a.splitOn s) ([] :: x.splitOn s) :=
    splits_cons (fun c hc hnil => ha (hnil ▸ hc)) rfl
  obtain ⟨hfront, hback⟩ := (hsplits ha x).unique (hsplits ha' x')
    (by rw [← hpieces, ← hpieces, heq])
  have hinj {a a' : List α} (h : a.splitOn s = a'.splitOn s) : a = a' := by
    have hjoined (a : List α) : [s].intercalate (a.splitOn s) = a := List.intercalate_splitOn s
    rw [← hjoined a, h, hjoined]
  exact ⟨hinj hfront, hinj (List.cons.inj hback).2⟩

end Delimited
