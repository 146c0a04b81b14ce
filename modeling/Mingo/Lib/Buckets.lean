import Mathlib.Data.List.Basic

/-!
# Buckets

Values under numbers, in a tree over the low bits of the number.  `find` gives the bucket
of a number, which it shares with the numbers that have the same low bits: `find_insert`
says so, and `lookup_find_ofList` that a lookup in the bucket is one in the list the tree was
made from.  The tree is for computations that the kernel repeats: its operations are
structural and use no comparison.
-/

/-- A tree with a list at every node, and a branch for each low bit. -/
inductive Buckets (α : Type)
  | leaf
  | node (here : List α) (even odd : Buckets α)

namespace Buckets

variable {α : Type}

/-- The list at the root. -/
def here : Buckets α → List α
  | leaf => []
  | node xs _ _ => xs

/-- The branch of the even numbers. -/
def even : Buckets α → Buckets α
  | leaf => leaf
  | node _ t _ => t

/-- The branch of the odd numbers. -/
def odd : Buckets α → Buckets α
  | leaf => leaf
  | node _ _ t => t

/-- The bucket of `k` at depth `d`. -/
def find : Nat → Nat → Buckets α → List α
  | 0, _, t => t.here
  | d + 1, k, t =>
      match k % 2 with
      | 0 => find d (k / 2) t.even
      | _ + 1 => find d (k / 2) t.odd

/-- Put `x` in front of the bucket of `k`. -/
def insert (x : α) : Nat → Nat → Buckets α → Buckets α
  | 0, _, t => node (x :: t.here) t.even t.odd
  | d + 1, k, t =>
      match k % 2 with
      | 0 => node t.here (insert x d (k / 2) t.even) t.odd
      | _ + 1 => node t.here t.even (insert x d (k / 2) t.odd)

/-- Numbers that share a bucket. -/
def shared : Nat → Nat → Nat → Bool
  | 0, _, _ => true
  | d + 1, k, l => k % 2 == l % 2 && shared d (k / 2) (l / 2)

/-- A number shares its bucket with itself. -/
theorem shared_self (d k : Nat) : shared d k k = true := by
  induction d generalizing k with
  | zero => rfl
  | succ d ih => simp [shared, ih]

/-- Every bucket of the empty tree is empty. -/
theorem find_leaf (d k : Nat) : find d k (leaf : Buckets α) = [] := by
  induction d generalizing k with
  | zero => rfl
  | succ d ih =>
      rw [find]
      split
      · exact ih _
      · exact ih _

/-- **An insertion** is seen in the buckets of the numbers that share the one it is made in.
-/
theorem find_insert (x : α) (d k l : Nat) (t : Buckets α) :
    find d l (insert x d k t) = if shared d k l then x :: find d l t else find d l t := by
  induction d generalizing k l t with
  | zero => rfl
  | succ d ih =>
      rw [insert, find, find, shared]
      rcases Nat.mod_two_eq_zero_or_one k with hk | hk <;>
        rcases Nat.mod_two_eq_zero_or_one l with hl | hl <;>
        simp [hk, hl, even, odd, ih]

/-- A list of entries as a tree. -/
def ofList {β : Type} (d : Nat) : List (Nat × β) → Buckets (Nat × β)
  | [] => leaf
  | e :: es => insert e d e.1 (ofList d es)

/-- **Lookup** in the bucket of the key. -/
theorem lookup_find_ofList {β : Type} (d k : Nat) (es : List (Nat × β)) :
    (find d k (ofList d es)).lookup k = es.lookup k := by
  induction es with
  | nil => rw [ofList, find_leaf]
  | cons e es ih =>
      rw [ofList, find_insert]
      have hcons (l : List (Nat × β)) :
          (e :: l).lookup k = if k == e.1 then some e.2 else l.lookup k := by
        change List.lookup k ((e.1, e.2) :: l) = _
        rw [List.lookup_cons]
        cases k == e.1 <;> rfl
      rw [hcons es]
      by_cases hk : k = e.1
      · have hshared : shared d e.1 k = true := hk ▸ shared_self d k
        rw [if_pos hshared, hcons, if_pos (by simpa using hk), if_pos (by simpa using hk)]
      · have hne : ¬(k == e.1) = true := by simpa using hk
        rw [if_neg hne]
        split
        · rw [hcons, if_neg hne, ih]
        · exact ih

/-- What is in the bucket of its own number after an insertion. -/
theorem mem_find_insert (key : α → Nat) {x y : α} {d : Nat} {t : Buckets α} :
    x ∈ find d (key x) (insert y d (key y) t) ↔ x = y ∨ x ∈ find d (key x) t := by
  rw [find_insert]
  split
  · exact List.mem_cons
  · next hshared =>
      refine ⟨.inr, fun h => h.resolve_left ?_⟩
      rintro rfl
      exact hshared (shared_self d (key x))

end Buckets
