import Mathlib.Data.List.Dedup
import Mathlib.Data.Set.Card
import Mathlib.Logic.Function.Basic

/-!
# Objects on a heap and the places that own them

A heap maps addresses to objects.  `Owns heap l` says that the list `l` holds
the addresses of the live objects, each exactly once: when `l` is the
concatenation of what several places hold, every live object is in exactly one
of them.  Nothing here names a particular program.

* `Owns.perm` -- objects move between owners;
* `Owns.free`, `Owns.alloc`, `Owns.write` -- an object is deleted, created,
  overwritten;
* `Owns.ncard` -- the number of live objects.
-/

variable {α β : Type*} [DecidableEq α]

/-- The addresses of the live objects are those of the list, each once. -/
structure Owns (heap : α → Option β) (l : List α) : Prop where
  nodup : l.Nodup
  live : ∀ a, (heap a).isSome ↔ a ∈ l

namespace Owns

variable {heap : α → Option β} {l l' : List α} {a : α}

omit [DecidableEq α] in
theorem perm (h : Owns heap l) (hperm : l.Perm l') : Owns heap l' where
  nodup := hperm.nodup_iff.mp h.nodup
  live b := (h.live b).trans hperm.mem_iff

omit [DecidableEq α] in
theorem exists_of_mem (h : Owns heap l) (ha : a ∈ l) : ∃ c, heap a = some c :=
  Option.isSome_iff_exists.mp ((h.live a).mpr ha)

/-- An owner deletes its object. -/
theorem free (h : Owns heap (a :: l)) : Owns (Function.update heap a none) l where
  nodup := (List.nodup_cons.mp h.nodup).2
  live b := by
    have ha := (List.nodup_cons.mp h.nodup).1
    by_cases hb : b = a
    · subst hb
      simp [ha]
    · rw [Function.update_of_ne hb, h.live b, List.mem_cons]
      simp [hb]

/-- An object is created at a free address. -/
theorem alloc (h : Owns heap l) (ha : heap a = none) (c : β) :
    Owns (Function.update heap a (some c)) (a :: l) where
  nodup := by
    refine List.nodup_cons.mpr ⟨fun hmem => ?_, h.nodup⟩
    have hsome := (h.live a).mpr hmem
    simp [ha] at hsome
  live b := by
    by_cases hb : b = a
    · subst hb
      simp
    · rw [Function.update_of_ne hb, h.live b, List.mem_cons]
      simp [hb]

/-- An object is overwritten. -/
theorem write (h : Owns heap l) (ha : a ∈ l) (c : β) :
    Owns (Function.update heap a (some c)) l where
  nodup := h.nodup
  live b := by
    by_cases hb : b = a
    · subst hb
      simp [ha]
    · rw [Function.update_of_ne hb, h.live b]

/-- The number of live objects. -/
theorem ncard (h : Owns heap l) : Set.ncard {a | (heap a).isSome} = l.length := by
  have hset : {a | (heap a).isSome} = (l.toFinset : Set α) := by
    ext a
    simp [h.live a]
  rw [hset, Set.ncard_coe_finset, List.toFinset_card_of_nodup h.nodup]

end Owns
