import Mathlib.Data.List.Basic

/-!
# Partial machines and their runs

A machine is a partial step function on states that consumes an input and
produces an output.  `run` feeds it a list of inputs; a run is undefined as
soon as one step is.  Nothing here names a particular machine.

* `run_invariant` and `run_outputs` -- what every step preserves (and says)
  holds of every run;
* `run_invariant_of_meets` -- the same for the runs all of whose steps meet a
  side condition on the state before the step;
* `run_defined_of_meets`, `run_inputs_of_meets` -- such a run never gets stuck,
  if no step does;
* `meets_iff_meets` -- when two side conditions are met by the same runs;
* `run_split`, `run_stays`, `run_since` -- a run taken apart at an output, and what has
  held since;
* `run_history_of_meets`, `run_history` -- invariants of the state and the
  outputs so far;
* `run_simulates` -- a step-by-step simulation of a relational specification
  lifts to whole runs.
-/

namespace Machine

variable {σ α ω τ : Type*}

/-- A partial step: from a state and an input to an output and a state. -/
abbrev Step (σ α ω : Type*) := σ → α → Option (ω × σ)

/-- Feed a list of inputs to a machine, collecting the outputs. -/
def run (step : Step σ α ω) : σ → List α → Option (List ω × σ)
  | s, [] => some ([], s)
  | s, a :: as =>
      match step s a with
      | none => none
      | some (o, t) => (run step t as).map fun r => (o :: r.1, r.2)

variable {step : Step σ α ω}

/-- A nonempty run is a first step followed by the rest of the run. -/
theorem run_cons_some {s u : σ} {a : α} {as : List α} {os : List ω} :
    run step s (a :: as) = some (os, u) ↔
      ∃ o t os', step s a = some (o, t) ∧ run step t as = some (os', u) ∧
        os = o :: os' := by
  constructor
  · intro h
    cases hstep : step s a with
    | none => simp [run, hstep] at h
    | some p =>
        obtain ⟨o, t⟩ := p
        simp only [run, hstep, Option.map_eq_some_iff] at h
        obtain ⟨⟨os', u'⟩, hrest, heq⟩ := h
        obtain ⟨rfl, rfl⟩ := Prod.mk.inj heq
        exact ⟨o, t, os', rfl, hrest, rfl⟩
  · rintro ⟨o, t, os', hstep, hrest, rfl⟩
    simp [run, hstep, hrest]

/-- A run over a concatenation is a run followed by another. -/
theorem run_append_some {s u : σ} {as bs : List α} {os : List ω} :
    run step s (as ++ bs) = some (os, u) ↔
      ∃ os₁ t os₂, run step s as = some (os₁, t) ∧ run step t bs = some (os₂, u) ∧
        os = os₁ ++ os₂ := by
  induction as generalizing s os with
  | nil => simp [run]
  | cons a as ih =>
      constructor
      · intro h
        obtain ⟨o, t, os', hfirst, hrest, rfl⟩ := run_cons_some.mp h
        obtain ⟨os₁, t', os₂, h₁, h₂, rfl⟩ := ih.mp hrest
        exact ⟨o :: os₁, t', os₂, run_cons_some.mpr ⟨o, t, os₁, hfirst, h₁, rfl⟩, h₂, rfl⟩
      · rintro ⟨os₁, t', os₂, h₁, h₂, rfl⟩
        obtain ⟨o, t, os', hfirst, hrest, rfl⟩ := run_cons_some.mp h₁
        exact run_cons_some.mpr
          ⟨o, t, os' ++ os₂, hfirst, ih.mpr ⟨os', t', os₂, hrest, h₂, rfl⟩, rfl⟩

/-- A run is taken apart at one of its outputs. -/
theorem run_split {s u : σ} {as : List α} {os₁ os₂ : List ω} {o : ω}
    (hrun : run step s as = some (os₁ ++ o :: os₂, u)) :
    ∃ as₁ a as₂ t t', as = as₁ ++ a :: as₂ ∧ run step s as₁ = some (os₁, t) ∧
      step t a = some (o, t') ∧ run step t' as₂ = some (os₂, u) := by
  induction as generalizing s os₁ with
  | nil => simp [run] at hrun
  | cons a as ih =>
      obtain ⟨o', t, os', hfirst, hrest, heq⟩ := run_cons_some.mp hrun
      cases os₁ with
      | nil =>
          obtain ⟨rfl, rfl⟩ := List.cons.inj heq
          exact ⟨[], a, as, s, t, rfl, rfl, hfirst, hrest⟩
      | cons o₁ os₁ =>
          obtain ⟨rfl, rfl⟩ := List.cons.inj heq
          obtain ⟨as₁, b, as₂, t₁, t₂, rfl, hbefore, hstep, hafter⟩ := ih hrest
          exact ⟨a :: as₁, b, as₂, t₁, t₂, rfl,
            run_cons_some.mpr ⟨o₁, t, os₁, hfirst, hbefore, rfl⟩, hstep, hafter⟩

/-- The side condition `ok` holds before every step the machine takes on these
inputs. -/
def Meets (step : Step σ α ω) (ok : σ → α → Prop) : σ → List α → Prop
  | _, [] => True
  | s, a :: as => ok s a ∧ ∀ o t, step s a = some (o, t) → Meets step ok t as

instance decidableMeets {ok : σ → α → Prop} [hok : ∀ s a, Decidable (ok s a)] :
    ∀ (s : σ) (as : List α), Decidable (Meets step ok s as)
  | _, [] => isTrue trivial
  | s, a :: as =>
      match hstep : step s a with
      | none => decidable_of_iff (ok s a) ⟨fun h => ⟨h, by simp [hstep]⟩, And.left⟩
      | some (o, t) =>
          have : Decidable (Meets step ok t as) := decidableMeets t as
          decidable_of_iff (ok s a ∧ Meets step ok t as)
            ⟨fun h => ⟨h.1, fun o' t' h' => by simp_all⟩, fun h => ⟨h.1, h.2 o t hstep⟩⟩

/-- **Guarded invariant rule.**  An invariant that every step meeting the side
condition preserves holds at the end of every run whose steps all meet it, and
so does whatever the invariant makes each such step output. -/
theorem run_invariant_of_meets {ok : σ → α → Prop} {inv : σ → Prop}
    {good : ω → Prop}
    (hstep : ∀ s a o t, inv s → ok s a → step s a = some (o, t) → inv t ∧ good o)
    {s u : σ} {as : List α} {os : List ω}
    (hs : inv s) (hmeets : Meets step ok s as)
    (hrun : run step s as = some (os, u)) :
    inv u ∧ ∀ o ∈ os, good o := by
  induction as generalizing s os with
  | nil =>
      obtain ⟨rfl, rfl⟩ := Prod.mk.inj (Option.some.inj hrun)
      exact ⟨hs, by simp⟩
  | cons a as ih =>
      obtain ⟨o, t, os', hfirst, hrest, rfl⟩ := run_cons_some.mp hrun
      obtain ⟨ht, ho⟩ := hstep s a o t hs hmeets.1 hfirst
      obtain ⟨hu, hos⟩ := ih ht (hmeets.2 o t hfirst) hrest
      refine ⟨hu, ?_⟩
      intro o' ho'
      rcases List.mem_cons.mp ho' with rfl | htail
      · exact ho
      · exact hos o' htail

/-- **Guarded progress rule with inputs.**  If every step that meets the side condition is
defined and keeps an invariant of the state and the inputs so far, so is every run whose
steps all meet it. -/
theorem run_inputs_of_meets {ok : σ → α → Prop} {inv : List α → σ → Prop}
    (hstep : ∀ log s a, inv log s → ok s a → ∃ o t, step s a = some (o, t) ∧ inv (log ++ [a]) t)
    {log : List α} {s : σ} {as : List α} (hs : inv log s) (hmeets : Meets step ok s as) :
    ∃ os u, run step s as = some (os, u) ∧ inv (log ++ as) u := by
  induction as generalizing s log with
  | nil => exact ⟨[], s, rfl, by simpa using hs⟩
  | cons a as ih =>
      obtain ⟨o, t, hfirst, ht⟩ := hstep log s a hs hmeets.1
      obtain ⟨os, u, hrest, hu⟩ := ih ht (hmeets.2 o t hfirst)
      exact ⟨o :: os, u, run_cons_some.mpr ⟨o, t, os, hfirst, hrest, rfl⟩, by simpa using hu⟩

/-- **Guarded progress rule.**  If every step that meets the side condition is
defined and preserves the invariant, so is every run whose steps all meet it. -/
theorem run_defined_of_meets {ok : σ → α → Prop} {inv : σ → Prop}
    (hstep : ∀ s a, inv s → ok s a → ∃ o t, step s a = some (o, t) ∧ inv t)
    {s : σ} {as : List α} (hs : inv s) (hmeets : Meets step ok s as) :
    ∃ os u, run step s as = some (os, u) ∧ inv u :=
  @run_inputs_of_meets σ α ω step ok (fun _ s => inv s) (fun _ => hstep) [] s as hs hmeets

/-- The steps of a run are defined. -/
theorem meets_isSome_of_run {s u : σ} {as : List α} {os : List ω}
    (hrun : run step s as = some (os, u)) :
    Meets step (fun s a => (step s a).isSome) s as := by
  induction as generalizing s os with
  | nil => trivial
  | cons a as ih =>
      obtain ⟨o, t, os', hfirst, hrest, rfl⟩ := run_cons_some.mp hrun
      refine ⟨by simp [hfirst], fun o' t' hfirst' => ?_⟩
      rw [hfirst] at hfirst'
      cases hfirst'
      exact ih hrest

theorem Meets.and {ok ok' : σ → α → Prop} {s : σ} {as : List α} (h : Meets step ok s as)
    (h' : Meets step ok' s as) : Meets step (fun s a => ok s a ∧ ok' s a) s as := by
  induction as generalizing s with
  | nil => trivial
  | cons a as ih =>
      exact ⟨⟨h.1, h'.1⟩, fun o t hfirst => ih (h.2 o t hfirst) (h'.2 o t hfirst)⟩

theorem Meets.mono {ok ok' : σ → α → Prop} (himp : ∀ s a, ok s a → ok' s a) {s : σ} {as : List α}
    (h : Meets step ok s as) : Meets step ok' s as := by
  induction as generalizing s with
  | nil => trivial
  | cons a as ih => exact ⟨himp s a h.1, fun o t hfirst => ih (h.2 o t hfirst)⟩

theorem Meets.append {ok : σ → α → Prop} {s t : σ} {as bs : List α} {os : List ω}
    (h : Meets step ok s (as ++ bs)) (hrun : run step s as = some (os, t)) :
    Meets step ok s as ∧ Meets step ok t bs := by
  induction as generalizing s os with
  | nil =>
      cases hrun
      exact ⟨trivial, h⟩
  | cons a as ih =>
      obtain ⟨o, t', os', hfirst, hrest, -⟩ := run_cons_some.mp hrun
      obtain ⟨-, hafter⟩ := ih (h.2 o t' hfirst) hrest
      exact ⟨⟨h.1, fun o' u hstep => by
        rw [hfirst] at hstep
        cases hstep
        exact (ih (h.2 o t' hfirst) hrest).1⟩, hafter⟩

/-- What every step that meets the side condition and makes no output of one kind keeps is
kept by every run whose outputs are not of this kind. -/
theorem run_stays {ok : σ → α → Prop} {ends : ω → Prop} {inv : σ → Prop}
    (hkeep : ∀ s a o t, inv s → ok s a → step s a = some (o, t) → ¬ ends o → inv t)
    {s u : σ} {as : List α} {os : List ω} (hs : inv s) (hmeets : Meets step ok s as)
    (hrun : run step s as = some (os, u)) (hos : ∀ o ∈ os, ¬ ends o) : inv u := by
  induction as generalizing s os with
  | nil =>
      cases hrun
      exact hs
  | cons a as ih =>
      obtain ⟨o, t, os', hfirst, hrest, rfl⟩ := run_cons_some.mp hrun
      have ht := hkeep s a o t hs hmeets.1 hfirst (hos o List.mem_cons_self)
      exact ih ht (hmeets.2 o t hfirst) hrest fun o' ho' => hos o' (List.mem_cons_of_mem o ho')

/-- **Since rule.**  What the step behind one output brings about, and every step with an
output of another kind keeps, holds at the end of a run with no output of this kind since. -/
theorem run_since (inv : σ → Prop) (ends : ω → Prop) {ok : σ → α → Prop} {o : ω}
    (hstart : ∀ s a t, ok s a → step s a = some (o, t) → inv t)
    (hkeep : ∀ s a o t, inv s → ok s a → step s a = some (o, t) → ¬ ends o → inv t)
    {s u : σ} {as : List α} {os₁ os₂ : List ω} (hmeets : Meets step ok s as)
    (hrun : run step s as = some (os₁ ++ o :: os₂, u)) (hos : ∀ o ∈ os₂, ¬ ends o) : inv u := by
  obtain ⟨as₁, a, as₂, t, t', rfl, hbefore, hstep, hafter⟩ := run_split hrun
  obtain ⟨-, hrest⟩ := hmeets.append hbefore
  exact run_stays hkeep (hstart t a t' hrest.1 hstep) (hrest.2 o t' hstep) hafter hos

/-- **Equivalence of side conditions.**  Two conditions that agree in every
state that satisfies an invariant are met by the same runs, as long as the
steps that meet the second one preserve the invariant. -/
theorem meets_iff_meets {valid ok ok' : σ → α → Prop} {inv : σ → Prop}
    (hiff : ∀ s a, inv s → valid s a → (ok s a ↔ ok' s a))
    (hstep : ∀ s a o t, inv s → valid s a → ok' s a → step s a = some (o, t) → inv t)
    {s : σ} {as : List α} (hs : inv s) (hvalid : Meets step valid s as) :
    Meets step ok s as ↔ Meets step ok' s as := by
  induction as generalizing s with
  | nil => exact Iff.rfl
  | cons a as ih =>
      have hhead := hiff s a hs hvalid.1
      constructor
      · intro h
        have hok' := hhead.mp h.1
        refine ⟨hok', fun o t hfirst => ?_⟩
        have ht := hstep s a o t hs hvalid.1 hok' hfirst
        exact (ih ht (hvalid.2 o t hfirst)).mp (h.2 o t hfirst)
      · intro h
        refine ⟨hhead.mpr h.1, fun o t hfirst => ?_⟩
        have ht := hstep s a o t hs hvalid.1 h.1 hfirst
        exact (ih ht (hvalid.2 o t hfirst)).mpr (h.2 o t hfirst)

theorem meets_of_forall {ok : σ → α → Prop} (h : ∀ s a, ok s a) :
    ∀ (s : σ) (as : List α), Meets step ok s as := by
  intro s as
  induction as generalizing s with
  | nil => trivial
  | cons a as ih => exact ⟨h s a, fun _ t _ => ih t⟩

/-- A side condition on the inputs alone. -/
theorem meets_of_mem {ok : α → Prop} {as : List α} (h : ∀ a ∈ as, ok a) (s : σ) :
    Meets step (fun _ a => ok a) s as := by
  induction as generalizing s with
  | nil => trivial
  | cons a as ih =>
      have hrest : ∀ b ∈ as, ok b := fun b hb => h b (List.mem_cons_of_mem _ hb)
      exact ⟨h a List.mem_cons_self, fun _ t _ => ih hrest t⟩

theorem meets_true (s : σ) (as : List α) : Meets step (fun _ _ => True) s as :=
  meets_of_forall (fun _ _ => trivial) s as

/-- **Invariant rule with outputs.**  What every step preserves holds of every
run, and what every step says is said by every run. -/
theorem run_outputs {inv : σ → Prop} {good : ω → Prop}
    (hstep : ∀ s a o t, inv s → step s a = some (o, t) → inv t ∧ good o)
    {s u : σ} {as : List α} {os : List ω}
    (hs : inv s) (hrun : run step s as = some (os, u)) :
    inv u ∧ ∀ o ∈ os, good o :=
  run_invariant_of_meets (fun s a o t hinv _ h => hstep s a o t hinv h) hs
    (meets_true s as) hrun

/-- **Invariant rule.**  What every step preserves holds of every run. -/
theorem run_invariant {inv : σ → Prop}
    (hstep : ∀ s a o t, inv s → step s a = some (o, t) → inv t)
    {s u : σ} {as : List α} {os : List ω}
    (hs : inv s) (hrun : run step s as = some (os, u)) : inv u := by
  have hstep' : ∀ s a o t, inv s → step s a = some (o, t) → inv t ∧ True :=
    fun s a o t hinv h => ⟨hstep s a o t hinv h, trivial⟩
  exact (run_outputs hstep' hs hrun).1

/-- **Guarded history rule.**  An invariant of the state and of what has been output so
far, kept by every step that meets the side condition, holds at the end of every run whose
steps all meet it. -/
theorem run_history_of_meets {ok : σ → α → Prop} {inv : List ω → σ → Prop}
    (hstep : ∀ log s a o t, inv log s → ok s a → step s a = some (o, t) → inv (log ++ [o]) t)
    {log : List ω} {s u : σ} {as : List α} {os : List ω}
    (hs : inv log s) (hmeets : Meets step ok s as) (hrun : run step s as = some (os, u)) :
    inv (log ++ os) u := by
  induction as generalizing s log os with
  | nil =>
      obtain ⟨rfl, rfl⟩ := Prod.mk.inj (Option.some.inj hrun)
      simpa using hs
  | cons a as ih =>
      obtain ⟨o, t, os', hfirst, hrest, rfl⟩ := run_cons_some.mp hrun
      have ht := ih (hstep log s a o t hs hmeets.1 hfirst) (hmeets.2 o t hfirst) hrest
      simpa using ht

/-- **History rule.**  An invariant of the state and of what has been output so
far, kept by every step, holds at the end of every run. -/
theorem run_history {inv : List ω → σ → Prop}
    (hstep : ∀ log s a o t, inv log s → step s a = some (o, t) → inv (log ++ [o]) t)
    {log : List ω} {s u : σ} {as : List α} {os : List ω}
    (hs : inv log s) (hrun : run step s as = some (os, u)) : inv (log ++ os) u :=
  run_history_of_meets (fun log s a o t hinv _ h => hstep log s a o t hinv h) hs
    (meets_true s as) hrun

/-- A run of a relational specification: inputs, outputs and states. -/
inductive SpecRun (spec : τ → α → ω → τ → Prop) :
    τ → List α → List ω → τ → Prop
  | nil (x : τ) : SpecRun spec x [] [] x
  | cons {x y z : τ} {a : α} {as : List α} {o : ω} {os : List ω}
      (head : spec x a o y) (tail : SpecRun spec y as os z) :
      SpecRun spec x (a :: as) (o :: os) z

/-- **Simulation rule.**  A machine whose every step is matched, with the same
output, by a step of the specification between related states has all its runs
matched by runs of the specification. -/
theorem run_simulates {spec : τ → α → ω → τ → Prop} {rel : σ → τ → Prop}
    (hstep : ∀ s x a o t, rel s x → step s a = some (o, t) →
      ∃ y, spec x a o y ∧ rel t y)
    {s u : σ} {x : τ} {as : List α} {os : List ω}
    (hs : rel s x) (hrun : run step s as = some (os, u)) :
    ∃ z, SpecRun spec x as os z ∧ rel u z := by
  induction as generalizing s x os with
  | nil =>
      obtain ⟨rfl, rfl⟩ := Prod.mk.inj (Option.some.inj hrun)
      exact ⟨x, SpecRun.nil x, hs⟩
  | cons a as ih =>
      obtain ⟨o, t, os', hfirst, hrest, rfl⟩ := run_cons_some.mp hrun
      obtain ⟨y, hspec, hy⟩ := hstep s x a o t hs hfirst
      obtain ⟨z, htail, hz⟩ := ih hy hrest
      exact ⟨z, SpecRun.cons hspec htail, hz⟩

end Machine
