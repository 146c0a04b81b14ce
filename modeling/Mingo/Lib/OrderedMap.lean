import Mathlib.Data.List.Lex
import Mathlib.Order.Defs.LinearOrder
import Mathlib.Order.Lattice

/-!
# Ordered maps whose keys are compared up to a folding

A `std::map` whose comparator compares keys by what a function `fold` makes of
them is the list of its entries in iteration order.  Assigning to a key that is
there under another spelling keeps the spelling and replaces the value.

* `entry_ofList` -- after a list of assignments a key has the spelling of the
  first and the value of the last assignment to it;
* `ofList_eq_iff` -- two lists of assignments build the same map exactly when
  they agree on these for every key.
-/

namespace OrderedMap

variable {α β κ : Type*} [LinearOrder κ]

/-- `m[k] = v`. -/
def assign (fold : α → κ) : List (α × β) → α → β → List (α × β)
  | [], k, v => [(k, v)]
  | e :: m, k, v =>
      if fold e.1 < fold k then e :: assign fold m k v
      else if fold k < fold e.1 then (k, v) :: e :: m
      else (e.1, v) :: m

/-- The entry of the key `k`. -/
def entry (fold : α → κ) : List (α × β) → α → Option (α × β)
  | [], _ => none
  | e :: m, k =>
      if fold e.1 < fold k then entry fold m k
      else if fold k < fold e.1 then none
      else some e

/-- A list of assignments to the empty map. -/
def ofList (fold : α → κ) (fs : List (α × β)) : List (α × β) :=
  fs.foldl (fun m f => assign fold m f.1 f.2) []

/-- The first key and the last value of a list of assignments. -/
def firstLast (fs : List (α × β)) : Option (α × β) :=
  fs.head?.bind fun f => fs.getLast?.map fun l => (f.1, l.2)

/-- The assignments to the key `k`. -/
def assignments (fold : α → κ) (fs : List (α × β)) (k : α) : List (α × β) :=
  fs.filter fun f => fold f.1 = fold k

/-- The keys are in order. -/
def Sorted (fold : α → κ) (m : List (α × β)) : Prop :=
  m.Pairwise fun a b => fold a.1 < fold b.1

instance (fold : α → κ) (m : List (α × β)) : Decidable (Sorted fold m) :=
  inferInstanceAs (Decidable (m.Pairwise _))

variable {fold : α → κ} {m m' : List (α × β)} {k k' : α} {v : β}

theorem entry_assign (m : List (α × β)) (k : α) (v : β) (k' : α) :
    entry fold (assign fold m k v) k' =
      if fold k' = fold k then some (((entry fold m k).map Prod.fst).getD k, v)
      else entry fold m k' := by
  induction m with
  | nil =>
      by_cases heq : fold k' = fold k
      · simp [assign, entry, heq]
      · rcases lt_or_gt_of_ne heq with hlt | hgt
        · simp [assign, entry, heq, hlt, hlt.not_gt]
        · simp [assign, entry, heq, hgt]
  | cons e m ih =>
      rcases lt_trichotomy (fold e.1) (fold k) with hlt | heq | hgt
      · by_cases hk : fold k' = fold k
        · simpa [assign, entry, hlt, hk] using ih
        · simp only [assign, hlt, if_true, entry, ih, hk, if_false]
      · by_cases hk : fold k' = fold k
        · simp [assign, entry, heq, hk]
        · simp only [assign, heq, lt_irrefl, if_false, entry, hk]
          rcases lt_or_gt_of_ne hk with hlt | hgt
          · simp [hlt, hlt.not_gt]
          · simp [hgt]
      · have hng := hgt.not_gt
        by_cases hk : fold k' = fold k
        · simp [assign, entry, hgt, hng, hk]
        · rcases lt_or_gt_of_ne hk with hlt | hgt'
          · have hlt' := hlt.trans hgt
            simp [assign, entry, hgt, hng, hk, hlt, hlt.not_gt, hlt', hlt'.not_gt]
          · simp [assign, entry, hgt, hng, hk, hgt']

theorem mem_assign {e : α × β} (h : e ∈ assign fold m k v) :
    e ∈ m ∨ fold e.1 = fold k := by
  induction m with
  | nil =>
      rw [assign, List.mem_singleton] at h
      exact .inr (by rw [h])
  | cons e' m ih =>
      simp only [assign] at h
      split at h
      · rcases List.mem_cons.mp h with rfl | h
        · exact .inl (by simp)
        · exact (ih h).imp (List.mem_cons_of_mem e') id
      · next hge =>
          split at h
          · rcases List.mem_cons.mp h with rfl | h
            · exact .inr rfl
            · exact .inl h
          · next hle =>
              rcases List.mem_cons.mp h with rfl | h
              · exact .inr (le_antisymm (not_lt.mp hle) (not_lt.mp hge))
              · exact .inl (List.mem_cons_of_mem e' h)

theorem Sorted.assign (h : Sorted fold m) (k : α) (v : β) :
    Sorted fold (OrderedMap.assign fold m k v) := by
  induction m with
  | nil => exact List.pairwise_singleton _ _
  | cons e m ih =>
      obtain ⟨hfirst, hrest⟩ := List.pairwise_cons.mp h
      simp only [OrderedMap.assign]
      split
      · next hlt =>
          refine List.pairwise_cons.mpr ⟨fun e' he' => ?_, ih hrest⟩
          rcases mem_assign he' with he' | heq
          · exact hfirst e' he'
          · rwa [heq]
      · split
        · next hgt =>
            refine List.pairwise_cons.mpr ⟨fun e' he' => ?_, h⟩
            rcases List.mem_cons.mp he' with rfl | he'
            · exact hgt
            · exact hgt.trans (hfirst e' he')
        · exact List.pairwise_cons.mpr ⟨hfirst, hrest⟩

theorem foldl_sorted (fs : List (α × β)) (h : Sorted fold m) :
    Sorted fold (fs.foldl (fun m f => OrderedMap.assign fold m f.1 f.2) m) := by
  induction fs generalizing m with
  | nil => exact h
  | cons f fs ih => exact ih (h.assign f.1 f.2)

theorem ofList_sorted (fs : List (α × β)) : Sorted fold (ofList fold fs) :=
  foldl_sorted fs List.Pairwise.nil

/-- Below its first key a map has no entry. -/
theorem entry_of_lt {e : α × β} (h : Sorted fold (e :: m)) (hk : fold k ≤ fold e.1) :
    entry fold m k = none := by
  cases m with
  | nil => rfl
  | cons e' m =>
      have hlt : fold k < fold e'.1 := hk.trans_lt ((List.pairwise_cons.mp h).1 e' (by simp))
      simp [entry, hlt, hlt.not_gt]

/-- **A map is determined by its entries.** -/
theorem Sorted.ext (h : Sorted fold m) (h' : Sorted fold m')
    (heq : ∀ k, entry fold m k = entry fold m' k) : m = m' := by
  induction m generalizing m' with
  | nil =>
      cases m' with
      | nil => rfl
      | cons e' m' =>
          have := heq e'.1
          simp [entry] at this
  | cons e m ih =>
      cases m' with
      | nil =>
          have := heq e.1
          simp [entry] at this
      | cons e' m' =>
          have he := heq e.1
          have he' := heq e'.1
          rcases lt_trichotomy (fold e.1) (fold e'.1) with hlt | hsame | hgt
          · simp [entry, hlt, hlt.not_gt] at he
          · have hee : e = e' := by simpa [entry, hsame] using he
            subst hee
            have htail : m = m' := by
              refine ih (List.pairwise_cons.mp h).2 (List.pairwise_cons.mp h').2 fun k => ?_
              rcases lt_or_ge (fold e.1) (fold k) with hlt | hle
              · simpa [entry, hlt] using heq k
              · rw [entry_of_lt h hle, entry_of_lt h' hle]
            rw [htail]
          · simp [entry, hgt, hgt.not_gt] at he'

theorem entry_congr (h : fold k = fold k') : entry fold m k = entry fold m k' := by
  induction m with
  | nil => rfl
  | cons e m ih => simp only [entry, h, ih]

/-- The entry of a key after further assignments: its spelling is that of the
first of all, its value that of the last. -/
theorem entry_foldl (fs : List (α × β)) (m : List (α × β)) (k : α) :
    entry fold (fs.foldl (fun m f => OrderedMap.assign fold m f.1 f.2) m) k =
      firstLast ((entry fold m k).toList ++ assignments fold fs k) := by
  induction fs generalizing m with
  | nil =>
      cases h : entry fold m k <;> simp [assignments, firstLast, h]
  | cons f fs ih =>
      rw [List.foldl_cons, ih, entry_assign]
      by_cases hk : fold k = fold f.1
      · have hm : entry fold m f.1 = entry fold m k := entry_congr hk.symm
        have hfirst : assignments fold (f :: fs) k = f :: assignments fold fs k := by
          simp [assignments, hk]
        rw [if_pos hk, hfirst, hm]
        cases entry fold m k with
        | none => rfl
        | some e =>
            cases assignments fold fs k with
            | nil => rfl
            | cons g gs => simp [firstLast, List.getLast?_cons_cons]
      · have hk' : ¬ fold f.1 = fold k := fun h => hk h.symm
        simp [assignments, hk, hk']

/-- **The entries of a map**: the spelling of the first and the value of the last
assignment to the key. -/
theorem entry_ofList (fs : List (α × β)) (k : α) :
    entry fold (ofList fold fs) k = firstLast (assignments fold fs k) := by
  rw [ofList, entry_foldl]
  rfl

/-- The value of the last. -/
theorem firstLast_snd (fs : List (α × β)) :
    (firstLast fs).map Prod.snd = fs.getLast?.map Prod.snd := by
  cases fs with
  | nil => rfl
  | cons f fs => simp [firstLast, Function.comp_def]

/-- **Two lists of assignments build the same map** exactly when they agree, for
every key, on the first spelling and the last value. -/
theorem ofList_eq_iff {fs fs' : List (α × β)} :
    ofList fold fs = ofList fold fs' ↔
      ∀ k, firstLast (assignments fold fs k) = firstLast (assignments fold fs' k) := by
  constructor
  · intro h k
    rw [← entry_ofList, ← entry_ofList, h]
  · intro h
    refine (ofList_sorted fs).ext (ofList_sorted fs') fun k => ?_
    rw [entry_ofList, entry_ofList, h k]

/-- In a map a key has one assignment at most, its entry. -/
theorem Sorted.assignments_eq (h : Sorted fold m) (k : α) :
    assignments fold m k = (entry fold m k).toList := by
  induction m with
  | nil => rfl
  | cons e m ih =>
      obtain ⟨hfirst, hrest⟩ := List.pairwise_cons.mp h
      have hnone : fold k ≤ fold e.1 → assignments fold m k = [] := by
        intro hle
        rw [ih hrest, entry_of_lt h hle]
        rfl
      rcases lt_trichotomy (fold e.1) (fold k) with hlt | heq | hgt
      · simpa [assignments, entry, hlt, hlt.ne] using ih hrest
      · have htail := hnone heq.ge
        rw [assignments] at htail ⊢
        simp [entry, heq, htail]
      · have htail := hnone hgt.le
        rw [assignments] at htail ⊢
        simp [entry, hgt, hgt.not_gt, hgt.ne', htail]

theorem Sorted.entry_eq_none (h : Sorted fold m) (hk : ∀ e ∈ m, fold e.1 ≠ fold k) :
    entry fold m k = none := by
  have hnil : assignments fold m k = [] := by simpa [assignments] using hk
  rw [h.assignments_eq] at hnil
  simpa using hnil

/-- **Entering a map behind another key** comes to entering that key into it. -/
theorem Sorted.foldl_assign (h : Sorted fold m) (hk : ∀ e ∈ m, fold e.1 ≠ fold k) (v : β) :
    m.foldl (fun m f => OrderedMap.assign fold m f.1 f.2) [(k, v)] =
      OrderedMap.assign fold m k v := by
  refine (foldl_sorted m (List.pairwise_singleton _ _)).ext (h.assign k v) fun k' => ?_
  have hmissing : entry fold m k = none := h.entry_eq_none hk
  have hone : entry fold (OrderedMap.assign fold [] k v) k' =
      if fold k' = fold k then some (k, v) else none := entry_assign [] k v k'
  rw [OrderedMap.assign] at hone
  rw [entry_foldl, entry_assign, h.assignments_eq, hone, hmissing]
  by_cases heq : fold k' = fold k
  · rw [if_pos heq, if_pos heq, entry_congr heq, hmissing]
    rfl
  · rw [if_neg heq, if_neg heq]
    cases entry fold m k' with
    | none => rfl
    | some e => rfl

/-- An entry of a map has the key of one assignment and the value of another. -/
theorem mem_ofList {fs : List (α × β)} {e : α × β} (h : e ∈ ofList fold fs) :
    (∃ f ∈ fs, f.1 = e.1) ∧ ∃ f ∈ fs, f.2 = e.2 := by
  have hsorted : Sorted fold (ofList fold fs) := ofList_sorted fs
  have hmem : e ∈ assignments fold (ofList fold fs) e.1 := List.mem_filter.mpr ⟨h, by simp⟩
  rw [hsorted.assignments_eq, Option.mem_toList, entry_ofList, firstLast] at hmem
  obtain ⟨f, hf, hlast⟩ := Option.bind_eq_some_iff.mp hmem
  obtain ⟨l, hl, rfl⟩ := Option.map_eq_some_iff.mp hlast
  have hfirst := List.mem_filter.mp (List.mem_of_mem_head? hf)
  have hlast := List.mem_filter.mp (List.mem_of_mem_getLast? hl)
  exact ⟨⟨f, hfirst.1, rfl⟩, ⟨l, hlast.1, rfl⟩⟩

end OrderedMap
