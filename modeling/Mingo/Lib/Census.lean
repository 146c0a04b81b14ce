import Mathlib.Data.List.Range
import Mathlib.Logic.Function.Basic

/-!
# Counting the members of a finite family

A family of `n` members, each in some state; `census` counts those whose state
satisfies a predicate.  It is what a shared counter should hold when every
member adds one as it enters a phase and takes one off as it leaves.  Nothing
here names a particular program.

* `census_update` -- one member changes its state;
* `census_eq_zero`, `census_pos` -- when nobody, or somebody, is counted.
-/

variable {β : Type*}

/-- How many of the first `n` members satisfy the predicate. -/
def census (n : Nat) (p : β → Bool) (f : Nat → β) : Nat :=
  (List.range n).countP fun w => p (f w)

/-- One member more is counted if it satisfies the predicate. -/
theorem census_succ (n : Nat) (p : β → Bool) (f : Nat → β) :
    census (n + 1) p f = census n p f + (p (f n)).toNat := by
  cases h : p (f n) <;> simp [census, List.range_succ, h]

/-- The count depends on the answers about the members only. -/
theorem census_congr {n : Nat} {p : β → Bool} {f g : Nat → β} (h : ∀ w < n, p (f w) = p (g w)) :
    census n p f = census n p g := by
  refine List.countP_congr fun w hw => ?_
  rw [h w (List.mem_range.mp hw)]

/-- One member changes its state. -/
theorem census_update {n w : Nat} (p : β → Bool) (f : Nat → β) (b : β) (hw : w < n) :
    census n p (Function.update f w b) + (p (f w)).toNat = census n p f + (p b).toNat := by
  induction n with
  | zero => omega
  | succ n ih =>
      rw [census_succ, census_succ]
      by_cases heq : w = n
      · subst heq
        have hothers : census w p (Function.update f w b) = census w p f := by
          refine census_congr fun v hv => ?_
          rw [Function.update_of_ne (by omega)]
        rw [hothers, Function.update_self]
        omega
      · have hrest := ih (by omega)
        rw [Function.update_of_ne (Ne.symm heq)]
        omega

/-- Nothing is counted where no member satisfies the predicate. -/
theorem census_eq_zero {n : Nat} {p : β → Bool} {f : Nat → β} :
    census n p f = 0 ↔ ∀ w < n, p (f w) = false := by
  simp [census, List.countP_eq_zero]

/-- Something is counted where a member satisfies the predicate. -/
theorem census_pos {n : Nat} {p : β → Bool} {f : Nat → β} :
    0 < census n p f ↔ ∃ w < n, p (f w) = true := by
  simp [census, List.countP_pos_iff]
