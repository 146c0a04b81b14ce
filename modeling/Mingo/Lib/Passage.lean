import Mingo.Lib.Scanner

/-!
# Passages of a scanner

The actions of a scanner look at the buffer around the byte that they stand at.  A passage says
what a scanner does on some bytes in the middle of a buffer, whatever is behind them: it goes on
over each of them, and its actions turn one state into another.

* `Passes.append` -- passages are joined end to end;
* `Passes.walk` -- and one from the start of the buffer, with a byte that ends the scan, is all
  of it.
-/

namespace Scanner

variable {A σ : Type} {m : Scanner A} {act : List UInt8 → Nat → A → σ → Option σ}

/-- Behind `pre` the scanner reads `bs` from state `q` to `q'`: it takes a rule on every byte,
none of them ends the scan, and their actions turn `s` into `s'`. -/
def Passes (m : Scanner A) (act : List UInt8 → Nat → A → σ → Option σ) (pre bs : List UInt8)
    (q : Nat) (s : σ) (q' : Nat) (s' : σ) : Prop :=
  ∃ rs, m.follow q bs = some rs ∧ lastState q rs = q' ∧ (∀ r ∈ rs, m.ends r = false) ∧
    ∀ post, perform (act (pre ++ bs ++ post)) (events pre.length rs) s = some s'

variable {pre bs bs' : List UInt8} {q q' q'' : Nat} {s s' s'' : σ} {b : UInt8} {r : Rule A}

theorem Passes.nil (pre : List UInt8) (q : Nat) (s : σ) : m.Passes act pre [] q s q s :=
  ⟨[], rfl, rfl, by simp, fun _ => rfl⟩

theorem Passes.append (h : m.Passes act pre bs q s q' s')
    (h' : m.Passes act (pre ++ bs) bs' q' s' q'' s'') :
    m.Passes act pre (bs ++ bs') q s q'' s'' := by
  obtain ⟨rs, hfollow, hlast, hends, hperform⟩ := h
  obtain ⟨rs', hfollow', hlast', hends', hperform'⟩ := h'
  have hpos : pre.length + rs.length = (pre ++ bs).length := by
    rw [length_of_follow hfollow, List.length_append]
  refine ⟨rs ++ rs', ?_, ?_, ?_, ?_⟩
  · rw [follow_append_eq hfollow, hlast, hfollow']
    rfl
  · rw [lastState_append, hlast, hlast']
  · intro r hr
    rcases List.mem_append.mp hr with hr | hr
    · exact hends r hr
    · exact hends' r hr
  · intro post
    have hfirst := hperform (bs' ++ post)
    have hinput : pre ++ (bs ++ bs') ++ post = pre ++ bs ++ (bs' ++ post) := by
      simp only [List.append_assoc]
    rw [events_append, perform_append, hpos, hinput, hfirst, Option.bind_some,
      ← List.append_assoc]
    exact hperform' post

/-- Bytes without actions. -/
theorem Passes.silent (h : m.Silent q bs q') (pre : List UInt8) (s : σ) :
    m.Passes act pre bs q s q' s := by
  obtain ⟨rs, hfollow, hlast, hacts⟩ := h
  refine ⟨rs, hfollow, hlast, fun r hr => ?_, fun post => ?_⟩
  · rw [ends, hacts r hr]
    rfl
  · rw [events_of_silent hacts]
    rfl

/-- A single byte. -/
theorem Passes.byte (hrule : m.rule q b = some r) (hends : m.ends r = false)
    (hperform : ∀ post,
      perform (act (pre ++ b :: post)) (r.acts.map (pre.length, ·)) s = some s') :
    m.Passes act pre [b] q s r.next s' := by
  refine ⟨[r], by simp [follow, hrule], rfl, fun r' hr' => ?_, fun post => ?_⟩
  · obtain rfl := List.mem_singleton.mp hr'
    exact hends
  · simpa [events] using hperform post

/-- **A passage from the start of a buffer**, and a byte that ends the scan behind it. -/
theorem Passes.walk (h : m.Passes act [] bs q s q' s') (hrule : m.rule q' b = some r)
    (hends : m.ends r = true) :
    ∃ rs, m.walk q (bs ++ [b]) = some rs ∧ lastState q rs = r.next ∧
      ∀ post, perform (act (bs ++ post)) (events 0 rs) s =
        perform (act (bs ++ post)) (r.acts.map (bs.length, ·)) s' := by
  obtain ⟨rs, hfollow, rfl, hrs, hperform⟩ := h
  refine ⟨rs ++ [r], walk_of_follow hfollow hrs hrule hends, ?_, fun post => ?_⟩
  · rw [lastState_append]
    rfl
  · have hall := hperform post
    rw [List.nil_append, List.length_nil] at hall
    rw [events_append, perform_append, hall, Option.bind_some, Nat.zero_add,
      length_of_follow hfollow]
    simp [events]

end Scanner
