import Mathlib.Data.List.Nodup
import Mathlib.Data.List.TakeWhile
import Mathlib.Tactic.Tauto

/-!
# Ordered sets as lists

A `std::set` is the list of its elements in iteration order, an iterator an
index into it and `end()` the missing index.  The comparator `lt` is passed to
every operation anew, as the elements may be keys into a state that changes
between two calls.

For a comparator that is a strict linear order, and a list sorted by it
(`Sorted`), `find` finds every element (`find_of_mem`), `erase` removes just
the element found (`erase_find`) and `insert` adds just the new one
(`insert_of_not_mem`); both keep the list sorted.
-/

namespace OrderedSet

variable {α : Type*}

/-- Strictly increasing with respect to the comparator. -/
def Sorted (lt : α → α → Bool) (xs : List α) : Prop :=
  xs.Pairwise fun a b => lt a b = true

/-- The elements before `lower_bound(k)`. -/
def below (lt : α → α → Bool) (xs : List α) (k : α) : List α :=
  xs.takeWhile (lt · k)

/-- The elements from `lower_bound(k)` on. -/
def lowerBound (lt : α → α → Bool) (xs : List α) (k : α) : List α :=
  xs.dropWhile (lt · k)

/-- The iterator to the element equivalent to `k`. -/
def find (lt : α → α → Bool) (xs : List α) (k : α) : Option Nat :=
  match lowerBound lt xs k with
  | [] => none
  | x :: _ => if lt k x then none else some (below lt xs k).length

/-- Erase at an iterator; undefined at `end()`. -/
def erase (xs : List α) (it : Option Nat) : Option (List α) :=
  it.map xs.eraseIdx

/-- Insert `k` unless an equivalent element is there; also the position of the
element that is in the set afterwards. -/
def insert (lt : α → α → Bool) (xs : List α) (k : α) : List α × Nat :=
  match lowerBound lt xs k with
  | [] => (xs ++ [k], xs.length)
  | x :: hi =>
      if lt k x then (below lt xs k ++ k :: x :: hi, (below lt xs k).length)
      else (xs, (below lt xs k).length)

/-- A comparator that is a strict linear order. -/
structure StrictLinear (lt : α → α → Bool) : Prop where
  irrefl : ∀ a, lt a a = false
  trans : ∀ a b c, lt a b = true → lt b c = true → lt a c = true
  total : ∀ a b, a ≠ b → lt a b = true ∨ lt b a = true

variable {lt : α → α → Bool} {xs : List α} {k : α}

theorem below_append_lowerBound (lt : α → α → Bool) (xs : List α) (k : α) :
    below lt xs k ++ lowerBound lt xs k = xs :=
  List.takeWhile_append_dropWhile

theorem lt_of_mem_below {a : α} (h : a ∈ below lt xs k) : lt a k = true :=
  List.mem_takeWhile_imp (p := (lt · k)) h

theorem Sorted.nodup (hlt : StrictLinear lt) (h : Sorted lt xs) : xs.Nodup := by
  apply List.Pairwise.imp _ h
  intro a b hab heq
  subst heq
  rw [hlt.irrefl] at hab
  cases hab

/-- Two comparators that agree on the elements sort them alike. -/
theorem Sorted.congr {lt' : α → α → Bool} (h : Sorted lt xs)
    (heq : ∀ a ∈ xs, ∀ b ∈ xs, lt' a b = lt a b) : Sorted lt' xs := by
  apply List.Pairwise.imp_of_mem _ h
  intro a b ha hb hab
  rw [heq a ha b hb, hab]

/-- The first element that is not below `k`. -/
theorem not_lt_head_lowerBound {x : α} {hi : List α} (h : lowerBound lt xs k = x :: hi) :
    lt x k = false := by
  have hne : xs.dropWhile (lt · k) ≠ [] := by
    intro hnil
    rw [lowerBound, hnil] at h
    cases h
  have hhead := List.head_dropWhile_not (lt · k) hne
  have hx : (xs.dropWhile (lt · k)).head hne = x := by
    simp only [lowerBound] at h
    simp [h]
  rwa [hx] at hhead

/-- In a sorted list an element stands at its lower bound. -/
theorem Sorted.lowerBound_of_mem (hlt : StrictLinear lt) (h : Sorted lt xs) (hk : k ∈ xs) :
    ∃ hi, lowerBound lt xs k = k :: hi := by
  induction xs with
  | nil => cases hk
  | cons x xs ih =>
      obtain ⟨hx, hxs⟩ := List.pairwise_cons.mp h
      rcases List.mem_cons.mp hk with rfl | hk
      · exact ⟨xs, by simp [lowerBound, hlt.irrefl]⟩
      · obtain ⟨hi, hhi⟩ := ih hxs hk
        refine ⟨hi, ?_⟩
        have hxk : lt x k = true := hx k hk
        simpa [lowerBound, hxk] using hhi

/-- The elements of a sorted list with a property that passes on to smaller ones stand at
its front. -/
theorem Sorted.takeWhile_eq_filter {p : α → Bool} (h : Sorted lt xs)
    (hp : ∀ a ∈ xs, ∀ b ∈ xs, lt a b = true → p b = true → p a = true) :
    xs.takeWhile p = xs.filter p := by
  induction xs with
  | nil => rfl
  | cons x xs ih =>
      obtain ⟨hx, hxs⟩ := List.pairwise_cons.mp h
      have hrest := ih hxs fun a ha b hb => hp a (List.mem_cons_of_mem x ha) b
        (List.mem_cons_of_mem x hb)
      cases hpx : p x with
      | true => rw [List.takeWhile_cons_of_pos hpx, List.filter_cons_of_pos hpx, hrest]
      | false =>
          have hnone : xs.filter p = [] := by
            rw [List.filter_eq_nil_iff]
            intro b hb hpb
            have hpx' := hp x List.mem_cons_self b (List.mem_cons_of_mem x hb) (hx b hb) hpb
            rw [hpx] at hpx'
            cases hpx'
          rw [List.takeWhile_cons_of_neg (by simp [hpx]), List.filter_cons_of_neg (by simp [hpx]),
            hnone]

/-- No element from the lower bound on is below `k`. -/
theorem Sorted.not_lt_of_mem_lowerBound (hlt : StrictLinear lt) (h : Sorted lt xs) {a : α}
    (ha : a ∈ lowerBound lt xs k) : lt a k = false := by
  cases hhi : lowerBound lt xs k with
  | nil =>
      rw [hhi] at ha
      cases ha
  | cons x hi =>
      have hx := not_lt_head_lowerBound hhi
      rw [hhi] at ha
      rcases List.mem_cons.mp ha with rfl | ha
      · exact hx
      · have hsorted : Sorted lt (below lt xs k ++ x :: hi) := by
          rw [← hhi, below_append_lowerBound]
          exact h
        have hxa := (List.pairwise_cons.mp (List.pairwise_append.mp hsorted).2.1).1 a ha
        cases hak : lt a k with
        | false => rfl
        | true =>
            rw [hlt.trans x a k hxa hak] at hx
            cases hx

/-- **An element is found**, at the index where it stands. -/
theorem find_of_mem (hlt : StrictLinear lt) (h : Sorted lt xs) (hk : k ∈ xs) :
    ∃ lo hi, xs = lo ++ k :: hi ∧ find lt xs k = some lo.length := by
  obtain ⟨hi, hhi⟩ := h.lowerBound_of_mem hlt hk
  refine ⟨below lt xs k, hi, ?_, ?_⟩
  · rw [← hhi, below_append_lowerBound]
  · simp [find, hhi, hlt.irrefl]

/-- **Erasing at the found iterator** removes the element and nothing else. -/
theorem erase_find (hlt : StrictLinear lt) (h : Sorted lt xs) (hk : k ∈ xs) :
    ∃ ys, erase xs (find lt xs k) = some ys ∧ Sorted lt ys ∧
      ∀ a, a ∈ ys ↔ a ∈ xs ∧ a ≠ k := by
  obtain ⟨lo, hi, hxs, hfind⟩ := find_of_mem hlt h hk
  have herase : xs.eraseIdx lo.length = lo ++ hi := by
    rw [hxs, List.eraseIdx_append_of_length_le (Nat.le_refl _)]
    simp
  have hnodup := h.nodup hlt
  rw [hxs] at hnodup
  refine ⟨lo ++ hi, by simp [erase, hfind, herase], ?_, ?_⟩
  · rw [← herase]
    exact List.Pairwise.sublist (List.eraseIdx_sublist _ _) h
  · intro a
    rw [hxs]
    have hmid := List.nodup_middle.mp hnodup
    have hk' : k ∉ lo ++ hi := (List.nodup_cons.mp hmid).1
    constructor
    · intro ha
      refine ⟨?_, fun heq => hk' (heq ▸ ha)⟩
      rcases List.mem_append.mp ha with h | h
      · exact List.mem_append_left _ h
      · exact List.mem_append_right _ (List.mem_cons_of_mem _ h)
    · rintro ⟨ha, hne⟩
      simpa [hne] using ha

/-- Erasing adds nothing. -/
theorem mem_of_mem_erase {ys : List α} {it : Option Nat} {a : α} (h : erase xs it = some ys)
    (ha : a ∈ ys) : a ∈ xs := by
  obtain ⟨i, -, rfl⟩ := Option.map_eq_some_iff.mp h
  exact List.mem_of_mem_eraseIdx ha

/-- A new element is below its lower bound. -/
theorem lt_head_lowerBound (hlt : StrictLinear lt) (hk : k ∉ xs) {x : α} {hi : List α}
    (h : lowerBound lt xs k = x :: hi) : lt k x = true := by
  have hx : x ∈ xs := by
    rw [← below_append_lowerBound lt xs k, h]
    simp
  rcases hlt.total k x (fun heq => hk (heq ▸ hx)) with hkx | hxk
  · exact hkx
  · rw [not_lt_head_lowerBound h] at hxk
    cases hxk

/-- **Inserting a new element** keeps the set sorted and adds just it. -/
theorem insert_of_not_mem (hlt : StrictLinear lt) (h : Sorted lt xs) (hk : k ∉ xs) :
    Sorted lt (insert lt xs k).1 ∧ ∀ a, a ∈ (insert lt xs k).1 ↔ a = k ∨ a ∈ xs := by
  have hsplit := below_append_lowerBound lt xs k
  have hform : (insert lt xs k).1 = below lt xs k ++ k :: lowerBound lt xs k := by
    cases hhi : lowerBound lt xs k with
    | nil =>
        rw [hhi, List.append_nil] at hsplit
        simp [insert, hhi, hsplit]
    | cons x hi =>
        simp [insert, hhi, lt_head_lowerBound hlt hk hhi]
  have hsorted : Sorted lt (below lt xs k ++ lowerBound lt xs k) := by rwa [hsplit]
  obtain ⟨hlo, hhi, hcross⟩ := List.pairwise_append.mp hsorted
  have habove : ∀ b ∈ lowerBound lt xs k, lt k b = true := by
    intro b hb
    cases hhd : lowerBound lt xs k with
    | nil => rw [hhd] at hb; cases hb
    | cons x hi =>
        have hkx : lt k x = true := lt_head_lowerBound hlt hk hhd
        rw [hhd] at hb hhi
        rcases List.mem_cons.mp hb with rfl | hb
        · exact hkx
        · exact hlt.trans k x b hkx ((List.pairwise_cons.mp hhi).1 b hb)
  rw [hform]
  constructor
  · refine List.pairwise_append.mpr ⟨hlo, List.pairwise_cons.mpr ⟨habove, hhi⟩, ?_⟩
    intro a ha b hb
    rcases List.mem_cons.mp hb with rfl | hb
    · exact lt_of_mem_below ha
    · exact hcross a ha b hb
  · intro a
    have hmem : a ∈ xs ↔ a ∈ below lt xs k ∨ a ∈ lowerBound lt xs k := by
      rw [← List.mem_append, hsplit]
    rw [hmem, List.mem_append, List.mem_cons]
    tauto

/-- Nothing but the new element is added. -/
theorem mem_of_mem_insert {a : α} (h : a ∈ (insert lt xs k).1) : a = k ∨ a ∈ xs := by
  have hsplit := below_append_lowerBound lt xs k
  cases hhi : lowerBound lt xs k with
  | nil =>
      simp only [insert, hhi, List.mem_append, List.mem_singleton] at h
      exact h.symm
  | cons x hi =>
      rw [hhi] at hsplit
      simp only [insert, hhi] at h
      split at h
      · rw [← hsplit]
        simp only [List.mem_append, List.mem_cons] at h ⊢
        tauto
      · exact .inr h

/-- An element that is not inserted at the front stands behind another one. -/
theorem exists_lt_of_insert_ne_zero (h : (insert lt xs k).2 ≠ 0) : ∃ b ∈ xs, lt b k = true := by
  have hsplit := below_append_lowerBound lt xs k
  have hne : below lt xs k ≠ [] := by
    intro hnil
    cases hhi : lowerBound lt xs k with
    | nil =>
        rw [hnil, hhi, List.append_nil] at hsplit
        apply h
        simp only [insert, hhi]
        rw [← hsplit, List.length_nil]
    | cons x hi =>
        simp only [insert, hhi] at h
        split at h
        · simp [hnil] at h
        · simp [hnil] at h
  obtain ⟨b, hb⟩ := List.exists_mem_of_ne_nil _ hne
  refine ⟨b, ?_, lt_of_mem_below hb⟩
  rw [← hsplit]
  exact List.mem_append_left _ hb

end OrderedSet
