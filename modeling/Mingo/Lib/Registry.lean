import Mathlib.Data.List.Nodup
import Mathlib.Logic.Function.Basic

/-!
# Registries

A registry is a list of values under distinct keys.  Adding a value takes out what its key
had and puts the value at the back.  After any history of changes the list holds the values
that stand: those whose key no later change names, in the order in which they were added.

* `foldl_apply` -- the list after a history, and `foldl_assign` -- a map after one;
* `mem_standing` -- the values that stand, and `mem_standing_filterMap` where the changes are
  those of some calls;
* `standing_append` -- what stands of a history in two parts.
-/

namespace Registry

variable {κ υ : Type*} [DecidableEq κ]

/-- A change of the registry. -/
inductive Change (κ υ : Type*)
  | add (k : κ) (v : υ)
  | remove (k : κ)

/-- The key that a change names. -/
def Change.key : Change κ υ → κ
  | .add k _ => k
  | .remove k => k

/-- The entries with other keys. -/
def without (k : κ) (l : List (κ × υ)) : List (κ × υ) := l.filter fun e => e.1 ≠ k

def apply (l : List (κ × υ)) : Change κ υ → List (κ × υ)
  | .add k v => without k l ++ [(k, v)]
  | .remove k => without k l

/-- The same change of a map. -/
def assign (f : κ → Option υ) : Change κ υ → κ → Option υ
  | .add k v => Function.update f k (some v)
  | .remove k => Function.update f k none

/-- The value of the key. -/
def find (k : κ) (l : List (κ × υ)) : Option υ := (l.find? fun e => e.1 = k).map Prod.snd

/-- The key is named by one of the changes. -/
def names (k : κ) (cs : List (Change κ υ)) : Bool := cs.any fun c => c.key = k

/-- The values whose key no later change names. -/
def standing : List (Change κ υ) → List (κ × υ)
  | [] => []
  | .remove _ :: cs => standing cs
  | .add k v :: cs => if names k cs then standing cs else (k, v) :: standing cs

variable {k : κ} {v : υ} {c : Change κ υ} {cs ds : List (Change κ υ)} {l : List (κ × υ)}

@[simp]
theorem find_nil : find k ([] : List (κ × υ)) = none := rfl

@[simp]
theorem find_cons (e : κ × υ) (l : List (κ × υ)) :
    find k (e :: l) = if e.1 = k then some e.2 else find k l := by
  rw [find, List.find?_cons]
  by_cases hk : e.1 = k
  · simp [hk]
  · simp [hk, find]

/-- With distinct keys the entries say what the registry holds. -/
theorem find_eq_some (h : (l.map Prod.fst).Nodup) : find k l = some v ↔ (k, v) ∈ l := by
  induction l with
  | nil => simp
  | cons e l ih =>
      obtain ⟨hhead, htail⟩ := List.nodup_cons.mp h
      rw [find_cons, List.mem_cons]
      by_cases hk : e.1 = k
      · have hnot : (k, v) ∉ l := fun hmem => hhead (List.mem_map.mpr ⟨_, hmem, hk.symm⟩)
        rw [if_pos hk, or_iff_left hnot, Option.some.injEq, Prod.ext_iff, ← hk]
        simp [eq_comm]
      · have hne : (k, v) ≠ e := fun heq => hk (by rw [← heq])
        rw [if_neg hk, ih htail, or_iff_right hne]

@[simp]
theorem names_nil : names k ([] : List (Change κ υ)) = false := rfl

@[simp]
theorem names_cons : names k (c :: cs) = (decide (c.key = k) || names k cs) := rfl

theorem names_eq_false : names k cs = false ↔ ∀ c ∈ cs, c.key ≠ k := by
  simp [names]

/-- With distinct keys the first entry of a key is its only one. -/
theorem eraseP_eq_without (h : (l.map Prod.fst).Nodup) :
    l.eraseP (fun e => e.1 = k) = without k l := by
  induction l with
  | nil => rfl
  | cons e l ih =>
      obtain ⟨hhead, htail⟩ := List.nodup_cons.mp h
      rw [without, List.eraseP_cons, List.filter_cons]
      by_cases hk : e.1 = k
      · have hother : ∀ e' ∈ l, e'.1 ≠ k := by
          intro e' he' heq
          exact hhead (List.mem_map.mpr ⟨e', he', heq.trans hk.symm⟩)
        have hall : l.filter (fun e' => e'.1 ≠ k) = l := by
          apply List.filter_eq_self.mpr
          intro e' he'
          exact decide_eq_true (hother e' he')
        rw [if_neg (by simpa using hk), hall]
        simp [hk]
      · simp [hk, ih htail, without]

theorem nodup_without (h : (l.map Prod.fst).Nodup) (k : κ) :
    ((without k l).map Prod.fst).Nodup :=
  (List.filter_sublist.map Prod.fst).nodup h

/-- Every change keeps the keys distinct. -/
theorem nodup_apply (h : (l.map Prod.fst).Nodup) (c : Change κ υ) :
    ((apply l c).map Prod.fst).Nodup := by
  cases c with
  | add k v =>
      have hnot : k ∉ (without k l).map Prod.fst := by
        intro hmem
        obtain ⟨e, he, heq⟩ := List.mem_map.mp hmem
        have := (List.mem_filter.mp he).2
        simp [heq] at this
      rw [apply, List.map_append]
      apply List.Nodup.append (nodup_without h k) (List.nodup_singleton _)
      simpa using hnot
  | remove k => exact nodup_without h k

/-- **The list after a history** has what was there before and was never named, and the
values that stand. -/
theorem foldl_apply (cs : List (Change κ υ)) (l : List (κ × υ)) :
    cs.foldl apply l = l.filter (fun e => !names e.1 cs) ++ standing cs := by
  induction cs generalizing l with
  | nil => simp [standing]
  | cons c cs ih =>
      have hkept : (without c.key l).filter (fun e => !names e.1 cs) =
          l.filter fun e => !names e.1 (c :: cs) := by
        rw [without, List.filter_filter]
        apply List.filter_congr
        intro e _
        simp [Bool.and_comm, eq_comm]
      rw [List.foldl_cons, ih]
      cases c with
      | remove k =>
          rw [apply, standing, ← hkept]
          rfl
      | add k v =>
          rw [apply, standing, List.filter_append, ← hkept, List.append_assoc]
          cases hnamed : names k cs with
          | true => simp [hnamed, Change.key]
          | false => simp [hnamed, Change.key]

/-- A key that no change names has no value that stands. -/
theorem find_standing_of_not_names (h : names k cs = false) : find k (standing cs) = none := by
  induction cs with
  | nil => rfl
  | cons c cs ih =>
      rw [names_cons, Bool.or_eq_false_iff, decide_eq_false_iff_not] at h
      cases c with
      | remove k' => exact ih h.2
      | add k' v =>
          rw [standing]
          split
          · exact ih h.2
          · have hne : k' ≠ k := h.1
            rw [find_cons, if_neg hne]
            exact ih h.2

/-- **A map after a history** has the value that stands, or where no change named the key
what it had. -/
theorem foldl_assign (cs : List (Change κ υ)) (f : κ → Option υ) (k : κ) :
    cs.foldl assign f k = if names k cs then find k (standing cs) else f k := by
  induction cs generalizing f with
  | nil => rfl
  | cons c cs ih =>
      rw [List.foldl_cons, ih, names_cons]
      cases hlater : names k cs with
      | true =>
          rw [Bool.or_true, if_pos rfl, if_pos rfl]
          cases c with
          | remove k' => rfl
          | add k' v =>
              rw [standing]
              split
              · rfl
              · next hnamed =>
                  have hne : k' ≠ k := fun hk => hnamed (hk ▸ hlater)
                  rw [find_cons, if_neg hne]
      | false =>
          have hnone := find_standing_of_not_names hlater
          rw [Bool.or_false, if_neg Bool.false_ne_true]
          cases c with
          | remove k' =>
              by_cases hk : k' = k
              · simp [assign, Change.key, hk, standing, hnone]
              · simp [assign, Change.key, hk, Function.update_of_ne (Ne.symm hk)]
          | add k' v =>
              by_cases hk : k' = k
              · simp [assign, Change.key, hk, standing, hlater]
              · simp [assign, Change.key, hk, Function.update_of_ne (Ne.symm hk)]

theorem standing_append (cs ds : List (Change κ υ)) :
    standing (cs ++ ds) = (standing cs).filter (fun e => !names e.1 ds) ++ standing ds := by
  have hempty := foldl_apply (cs ++ ds) ([] : List (κ × υ))
  rw [List.foldl_append, foldl_apply, foldl_apply] at hempty
  simpa using hempty.symm

/-- **The values that stand.** -/
theorem mem_standing : (k, v) ∈ standing cs ↔
    ∃ before after, cs = before ++ .add k v :: after ∧ ∀ c ∈ after, c.key ≠ k := by
  constructor
  · intro h
    induction cs with
    | nil => simp [standing] at h
    | cons c cs ih =>
        have hlater (hmem : (k, v) ∈ standing cs) : ∃ before after,
            c :: cs = before ++ .add k v :: after ∧ ∀ c ∈ after, c.key ≠ k := by
          obtain ⟨before, after, heq, hafter⟩ := ih hmem
          exact ⟨c :: before, after, by rw [heq, List.cons_append], hafter⟩
        cases c with
        | remove k' => exact hlater h
        | add k' v' =>
            rw [standing] at h
            split at h
            · exact hlater h
            · next hnamed =>
                rcases List.mem_cons.mp h with heq | hmem
                · cases heq
                  refine ⟨[], cs, rfl, names_eq_false.mp ?_⟩
                  simpa using hnamed
                · exact hlater hmem
  · intro ⟨before, after, heq, hafter⟩
    rw [heq, standing_append, standing, names_eq_false.mpr hafter]
    simp

/-- The values that stand after calls some of which change the registry. -/
theorem mem_standing_filterMap {γ : Type*} {change : γ → Option (Change κ υ)} {calls : List γ} :
    (k, v) ∈ standing (calls.filterMap change) ↔
      ∃ before call after, calls = before ++ call :: after ∧ change call = some (.add k v) ∧
        ∀ call' ∈ after, ∀ c, change call' = some c → c.key ≠ k := by
  rw [mem_standing]
  constructor
  · intro ⟨before, after, heq, hafter⟩
    obtain ⟨calls₁, rest, rfl, -, hrest⟩ := List.filterMap_eq_append_iff.mp heq
    obtain ⟨skipped, call, calls₂, rfl, hskipped, hcall, rfl⟩ := List.filterMap_eq_cons_iff.mp hrest
    refine ⟨calls₁ ++ skipped, call, calls₂, by simp, hcall, ?_⟩
    intro call' hmem c hc
    exact hafter c (List.mem_filterMap.mpr ⟨call', hmem, hc⟩)
  · intro ⟨before, call, after, heq, hcall, hafter⟩
    refine ⟨before.filterMap change, after.filterMap change, ?_, ?_⟩
    · rw [heq, List.filterMap_append, List.filterMap_cons_some hcall]
    · intro c hc
      obtain ⟨call', hmem, hc'⟩ := List.mem_filterMap.mp hc
      exact hafter call' hmem c hc'

theorem nodup_standing (cs : List (Change κ υ)) : ((standing cs).map Prod.fst).Nodup := by
  have hall : ∀ l : List (κ × υ), (l.map Prod.fst).Nodup →
      ((cs.foldl apply l).map Prod.fst).Nodup := by
    induction cs with
    | nil => exact fun l hl => hl
    | cons c cs ih => exact fun l hl => ih _ (nodup_apply hl c)
  have hnil := hall [] List.nodup_nil
  rwa [foldl_apply, List.filter_nil, List.nil_append] at hnil

end Registry
