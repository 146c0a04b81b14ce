import Mingo.Scheduler.Basic

/-!
# Which interleavings keep fibers apart

A fiber must not be resumed while it is still on the stack of another worker,
and `m_state` must be `EXEC` while its body runs (`Safe`).  The code relies on
`m_state` alone for this, but a yield changes `m_state` before the context is
saved, and the fix-up of `run` changes it after the fiber may be running
elsewhere again.

`Timely` names the two steps that go wrong: a `swapIn` between another
worker's yield and its context save, and a fix-up while another worker runs
the fiber.  A run is safe exactly when it takes no such step
(`run_safe_iff`).
-/

namespace Mingo

namespace Scheduler

/-- No fiber is on the stack of two workers, and the fiber whose body a worker
executes is in state `EXEC`. -/
structure Safe (s : Scheduler) : Prop where
  apart : ∀ w v f, w ≠ v → (s.workers w).phase.unsaved = some f →
    (s.workers v).phase.unsaved ≠ some f
  exec : ∀ w f, (s.workers w).phase.runs = some f → s.state f = some .exec

/-- The state after a step is safe. -/
def StaysSafe (s : Scheduler) (op : Op) : Prop :=
  ∀ out t, step s op = some (out, t) → t.Safe

/-- No worker swaps in a fiber that has yielded on another worker and whose
context is not saved, and no worker fixes up a fiber that runs on another
worker. -/
def Timely (s : Scheduler) : Op → Prop
  | .swapIn w => ∀ v, v ≠ w → ∀ f role role', (s.workers w).phase = .entering f role →
      (s.workers v).phase ≠ .saving f role'
  | .fixUp w => ∀ v, v ≠ w → ∀ f role role', (s.workers w).phase = .returned f role →
      (s.workers v).phase ≠ .running f role'
  | _ => True

/-- The phase in which a fiber runs. -/
theorem runs_eq_some {p : WorkerPhase} {f : Nat} :
    p.runs = some f ↔ ∃ role, p = .running f role := by
  cases p <;> simp [WorkerPhase.runs, eq_comm]

/-- The context of a running fiber is not saved. -/
theorem unsaved_of_runs {p : WorkerPhase} {f : Nat} (h : p.runs = some f) :
    p.unsaved = some f := by
  obtain ⟨role, rfl⟩ := runs_eq_some.mp h
  rfl

/-- The two phases in which a context is not saved. -/
theorem unsaved_eq_some {p : WorkerPhase} {f : Nat} :
    p.unsaved = some f ↔ p.runs = some f ∨ ∃ role, p = .saving f role := by
  cases p <;> simp [WorkerPhase.unsaved, WorkerPhase.runs, eq_comm]

/-- No worker has a fiber at the start. -/
theorem new_safe : new.Safe := by
  constructor
  · intro w v f _ h
    cases h
  · intro w f h
    cases h

/-- **What a step of one worker owes.**  If only the phase of `w` changes, the
new state is safe exactly when the fiber that `w` has on its stack is on no
other, and the fibers that run are still in state `EXEC`. -/
theorem Safe.update_iff {s t : Scheduler} (h : s.Safe) {w : Nat}
    (hother : ∀ v, v ≠ w → (t.workers v).phase = (s.workers v).phase) :
    t.Safe ↔
      (∀ v f, v ≠ w → (t.workers w).phase.unsaved = some f →
        (s.workers v).phase.unsaved ≠ some f) ∧
      (∀ v f, v ≠ w → (s.workers v).phase.runs = some f → t.state f = some .exec) ∧
      ∀ f, (t.workers w).phase.runs = some f → t.state f = some .exec := by
  constructor
  · intro ht
    refine ⟨?_, ?_, ht.exec w⟩
    · intro v f hv hw
      rw [← hother v hv]
      exact ht.apart w v f (Ne.symm hv) hw
    · intro v f hv hruns
      rw [← hother v hv] at hruns
      exact ht.exec v f hruns
  · rintro ⟨hstack, hstate, hself⟩
    constructor
    · intro u v f hne hu hv
      by_cases huw : u = w
      · subst huw
        rw [hother v (Ne.symm hne)] at hv
        exact hstack v f (Ne.symm hne) hu hv
      · rw [hother u huw] at hu
        by_cases hvw : v = w
        · subst hvw
          exact hstack u f huw hv hu
        · rw [hother v hvw] at hv
          exact h.apart u v f hne hu hv
    · intro v f hruns
      by_cases hvw : v = w
      · subst hvw
        exact hself f hruns
      · rw [hother v hvw] at hruns
        exact hstate v f hvw hruns

/-- A worker that has no fiber on its stack after the step, and leaves the
fibers that run elsewhere alone, keeps the state safe. -/
theorem Safe.idle_update {s t : Scheduler} (h : s.Safe) {w : Nat}
    (hother : ∀ v, v ≠ w → (t.workers v).phase = (s.workers v).phase)
    (hself : (t.workers w).phase.unsaved = none)
    (hstate : ∀ v f, v ≠ w → (s.workers v).phase.runs = some f → t.state f = some .exec) :
    t.Safe := by
  apply (h.update_iff hother).mpr
  refine ⟨?_, hstate, ?_⟩
  · intro v f _ hw
    rw [hself] at hw
    cases hw
  · intro f hruns
    rw [unsaved_of_runs hruns] at hself
    cases hself

section Fields

variable (s : Scheduler) (w v f g : Nat) (p : WorkerPhase) (st : FiberState) (wk : Worker)

/-- A write to the state of a fiber leaves the workers. -/
@[simp]
theorem setState_workers : (s.setState f st).workers = s.workers := rfl

/-- A write to a phase leaves the states. -/
@[simp]
theorem setPhase_state : (s.setPhase w p).state = s.state := rfl

/-- A write to a worker leaves the states. -/
@[simp]
theorem setWorker_state : (s.setWorker w wk).state = s.state := rfl

/-- The phase behind a write to it. -/
@[simp]
theorem setPhase_phase_self : ((s.setPhase w p).workers w).phase = p := by
  simp [setPhase, setWorker]

/-- The worker behind a write to it. -/
@[simp]
theorem setWorker_workers_self : (s.setWorker w wk).workers w = wk := by
  simp [setWorker]

/-- A write to a phase leaves the other workers. -/
theorem setPhase_workers_ne (h : v ≠ w) : (s.setPhase w p).workers v = s.workers v := by
  simp [setPhase, setWorker, h]

/-- A write to a worker leaves the others. -/
theorem setWorker_workers_ne (h : v ≠ w) : (s.setWorker w wk).workers v = s.workers v := by
  simp [setWorker, h]

/-- The state behind a write to it. -/
theorem setState_self : (s.setState f st).state f = some st := by
  simp [setState]

/-- A write to a state leaves the others. -/
theorem setState_ne (h : g ≠ f) : (s.setState f st).state g = s.state g := by
  simp [setState, h]

end Fields

/-- Writing the state of a fiber that no other worker runs. -/
theorem Safe.exec_setState {s : Scheduler} (h : s.Safe) {w f : Nat} {st : FiberState}
    (hfree : ∀ v, v ≠ w → (s.workers v).phase.runs ≠ some f) :
    ∀ v g, v ≠ w → (s.workers v).phase.runs = some g → (s.setState f st).state g = some .exec := by
  intro v g hv hruns
  have hne : g ≠ f := fun heq => hfree v hv (heq ▸ hruns)
  rw [setState_ne s f g st hne]
  exact h.exec v g hruns

/-- A fiber whose state is not `EXEC` runs nowhere. -/
theorem Safe.not_runs {s : Scheduler} (h : s.Safe) {f : Nat} (hst : s.state f ≠ some .exec)
    (v : Nat) : (s.workers v).phase.runs ≠ some f :=
  fun hruns => hst (h.exec v f hruns)

/-- Writing the state of a fiber that runs nowhere. -/
theorem Safe.setState {s : Scheduler} (h : s.Safe) {f : Nat} (st : FiberState)
    (hfree : s.state f ≠ some .exec) : (s.setState f st).Safe := by
  refine ⟨h.apart, ?_⟩
  intro v g hruns
  have hne : g ≠ f := fun heq => h.not_runs hfree v (heq ▸ hruns)
  rw [setState_ne s f g st hne]
  exact h.exec v g hruns

/-- Moving a worker to a phase without a fiber on its stack. -/
theorem Safe.setWorker {s : Scheduler} (h : s.Safe) (w : Nat) {wk : Worker}
    (hidle : wk.phase.unsaved = none) : (s.setWorker w wk).Safe := by
  apply h.idle_update (fun v hv => by rw [setWorker_workers_ne s w v wk hv])
  · simpa using hidle
  · intro v f _ hruns
    exact h.exec v f hruns

/-- A worker that goes to a phase without a fiber. -/
theorem Safe.setPhase {s : Scheduler} (h : s.Safe) (w : Nat) {p : WorkerPhase}
    (hidle : p.unsaved = none) : (s.setPhase w p).Safe :=
  h.setWorker w hidle

/-- The queue and the counters play no part. -/
theorem Safe.congr {s t : Scheduler} (h : s.Safe) (hstate : t.state = s.state)
    (hworkers : t.workers = s.workers) : t.Safe := by
  constructor
  · rw [hworkers]
    exact h.apart
  · rw [hworkers, hstate]
    exact h.exec

/-- Taking an entry swaps nothing in. -/
theorem dequeue_safe {s : Scheduler} (h : s.Safe) (w : Nat) : (s.dequeue w).2.Safe := by
  unfold dequeue
  have hqueue : ∀ p fibers active, WorkerPhase.unsaved p = none → (({ s with
      fibers := fibers, activeThreadCount := active } : Scheduler).setPhase w p).Safe := by
    intro p fibers active hp
    have hsame : ({ s with fibers := fibers, activeThreadCount := active } : Scheduler).Safe :=
      h.congr rfl rfl
    exact hsame.setPhase w hp
  dsimp only
  split
  · exact hqueue .nothingTaken _ _ rfl
  · next f _ => exact hqueue (.fiberTaken f) _ _ rfl
  · next c _ => exact hqueue (.cbTaken c) _ _ rfl

/-- Neither does a dispatch: the worker has yet to enter the fiber. -/
theorem dispatch_safe {s t : Scheduler} (h : s.Safe) {w fresh : Nat}
    (hstep : s.dispatch w fresh = some t) : t.Safe := by
  have hactive : ({ s with
      activeThreadCount := s.activeThreadCount - 1 } : Scheduler).Safe := h.congr rfl rfl
  have hidle : ({ s with
      idleThreadCount := s.idleThreadCount + 1 } : Scheduler).Safe := h.congr rfl rfl
  unfold dispatch at hstep
  split at hstep
  · split at hstep
    · cases hstep
      exact hactive.setPhase w rfl
    · cases hstep
      exact h.setPhase w rfl
  · split at hstep
    · next f hcb =>
      split at hstep
      · next hst =>
        cases hstep
        have hfree : s.state f ≠ some .exec := by
          rcases hst with hst | hst | hst <;> simp [hst]
        exact (h.setState .init hfree).setPhase w rfl
      · cases hstep
    · split at hstep
      · next hst =>
        cases hstep
        exact (h.setState .init (by simp [hst])).setWorker w rfl
      · cases hstep
  · split at hstep
    · cases hstep
      exact h.setPhase w rfl
    · cases hstep
      exact hidle.setPhase w rfl
  · cases hstep

/-- The worker that yields keeps its fiber on its stack, and no other worker
runs that fiber. -/
theorem yield_safe {s t : Scheduler} (h : s.Safe) {w : Nat} {how : Yield}
    (hstep : s.yield w how = some t) : t.Safe := by
  unfold yield at hstep
  split at hstep
  · next f role hphase =>
    have hstack : (s.workers w).phase.unsaved = some f := by rw [hphase]; rfl
    have hfree : ∀ v, v ≠ w → (s.workers v).phase.runs ≠ some f := by
      intro v hv hruns
      exact h.apart w v f (Ne.symm hv) hstack (unsaved_of_runs hruns)
    have hsaving : (s.setPhase w (.saving f role)).Safe := by
      apply (h.update_iff fun v hv => by rw [setPhase_workers_ne s w v _ hv]).mpr
      refine ⟨?_, fun v g _ hruns => h.exec v g hruns, ?_⟩
      · intro v g hv hw
        rw [setPhase_phase_self] at hw
        cases hw
        exact h.apart w v f (Ne.symm hv) hstack
      · intro g hruns
        rw [setPhase_phase_self] at hruns
        cases hruns
    have hwrite : ∀ st, ((s.setPhase w (.saving f role)).setState f st).Safe := by
      intro st
      refine ⟨hsaving.apart, ?_⟩
      intro v g hruns
      have hne : g ≠ f := by
        rintro rfl
        by_cases hv : v = w
        · subst hv
          rw [setState_workers, setPhase_phase_self] at hruns
          cases hruns
        · rw [setState_workers, setPhase_workers_ne s w v _ hv] at hruns
          exact hfree v hv hruns
      rw [setState_ne _ f g st hne]
      exact hsaving.exec v g hruns
    split at hstep
    · split at hstep
      · cases hstep
        exact hwrite .hold
      · cases hstep
    · split at hstep
      · cases hstep
        exact hwrite .ready
      · cases hstep
    · cases hstep
      exact hsaving
    · cases hstep
      exact hwrite .term
    · cases hstep
      exact hwrite .except
  · cases hstep

/-- A worker that has saved the context is off its stack. -/
theorem save_safe {s t : Scheduler} (h : s.Safe) {w : Nat} (hstep : s.save w = some t) :
    t.Safe := by
  unfold save at hstep
  split at hstep
  · cases hstep
    exact h.setPhase w rfl
  · cases hstep

/-- **A `swapIn` is safe** exactly when no other worker is about to save the
context of the fiber; its own assertion keeps it off a fiber that runs. -/
theorem swapIn_safe_iff {s t : Scheduler} (h : s.Safe) {w : Nat} (hstep : s.swapIn w = some t) :
    t.Safe ↔ s.Timely (.swapIn w) := by
  unfold swapIn at hstep
  split at hstep
  · next f role hphase =>
    split at hstep
    · cases hstep
    · next hnot =>
      cases hstep
      have hother : ∀ v, v ≠ w → (((s.setState f .exec).setPhase w (.running f role)).workers
          v).phase = (s.workers v).phase := by
        intro v hv
        rw [setPhase_workers_ne _ w v _ hv, setState_workers]
      rw [h.update_iff hother]
      constructor
      · rintro ⟨hstack, _⟩ v hv g role₁ role₂ hw hsaving
        rw [hphase] at hw
        cases hw
        refine hstack v f hv (by rw [setPhase_phase_self]; rfl) ?_
        rw [hsaving]
        rfl
      · intro htimely
        refine ⟨?_, ?_, ?_⟩
        · intro v g hv hw hunsaved
          rw [setPhase_phase_self] at hw
          cases hw
          rcases unsaved_eq_some.mp hunsaved with hruns | ⟨role', hsaving⟩
          · exact h.not_runs hnot v hruns
          · exact htimely v hv f role role' hphase hsaving
        · exact h.exec_setState fun v _ => h.not_runs hnot v
        · intro g hruns
          rw [setPhase_phase_self] at hruns
          cases hruns
          exact setState_self s f .exec
  · cases hstep

/-- What a fix-up leaves behind: the worker polls again, and unless the fiber
was `READY`, `TERM` or `EXCEPT`, it is in state `HOLD`. -/
theorem fixUp_cases {s t : Scheduler} {w : Nat} {out : Bool}
    (hstep : s.fixUp w = some (out, t)) :
    ∃ f role, (s.workers w).phase = .returned f role ∧ (t.workers w).phase = .polling ∧
      (∀ v, v ≠ w → (t.workers v).phase = (s.workers v).phase) ∧
      (∀ g, g ≠ f → t.state g = s.state g) ∧
      (s.state f = some .exec → t.state f = some .hold) := by
  unfold fixUp at hstep
  split at hstep
  · next f hphase =>
    refine ⟨f, .fiber, hphase, ?_⟩
    dsimp only at hstep
    split at hstep
    · next hst =>
      cases hstep
      have hready : s.state f = some .ready := hst
      simp +contextual [setPhase, setWorker, hready]
    · split at hstep
      · cases hstep
        simp +contextual [setPhase, setWorker, setState]
      · next hst =>
        cases hstep
        rw [setPhase_state] at hst
        simp +contextual [setPhase, setWorker]
        grind
  · next f hphase =>
    refine ⟨f, .cbFiber, hphase, ?_⟩
    dsimp only at hstep
    split at hstep
    · next hst =>
      cases hstep
      have hready : s.state f = some .ready := hst
      simp +contextual [setPhase, setWorker, hready]
    · split at hstep
      · next hst =>
        cases hstep
        rw [setPhase_state] at hst
        simp +contextual [setPhase, setWorker, setState]
        grind
      · cases hstep
        simp +contextual [setPhase, setWorker, setState]
  · next f hphase =>
    refine ⟨f, .idleFiber, hphase, ?_⟩
    dsimp only at hstep
    split at hstep
    · cases hstep
      simp +contextual [setPhase, setWorker, setState]
    · next hst =>
      cases hstep
      rw [setPhase_state] at hst
      simp +contextual [setPhase, setWorker]
      grind
  · cases hstep

/-- **A fix-up is safe** exactly when no other worker runs the fiber again. -/
theorem fixUp_safe_iff {s t : Scheduler} (h : s.Safe) {w : Nat} {out : Bool}
    (hstep : s.fixUp w = some (out, t)) : t.Safe ↔ s.Timely (.fixUp w) := by
  obtain ⟨f, role, hphase, hpolling, hother, hstate, hhold⟩ := fixUp_cases hstep
  constructor
  · intro ht v hv g role₁ role₂ hw hrunning
    rw [hphase] at hw
    cases hw
    have hruns : (s.workers v).phase.runs = some f := by rw [hrunning]; rfl
    have hexec : t.state f = some .exec := ht.exec v f (by rw [hother v hv]; exact hruns)
    rw [hhold (h.exec v f hruns)] at hexec
    cases hexec
  · intro htimely
    apply h.idle_update hother (by rw [hpolling]; rfl)
    intro v g hv hruns
    have hne : g ≠ f := by
      rintro rfl
      obtain ⟨role', hrunning⟩ := runs_eq_some.mp hruns
      exact htimely v hv g role role' hphase hrunning
    rw [hstate g hne]
    exact h.exec v g hruns

/-- The steps other than `swapIn` and the fix-up are always safe. -/
theorem step_safe {s t : Scheduler} (h : s.Safe) {op : Op} {out : Bool}
    (hswap : ∀ w, op ≠ .swapIn w) (hfix : ∀ w, op ≠ .fixUp w)
    (hstep : step s op = some (out, t)) : t.Safe := by
  cases op with
  | create f =>
      simp only [step] at hstep
      split at hstep
      · next hst =>
        cases hstep
        exact h.setState .init (by simp [hst])
      · cases hstep
  | schedule ft =>
      cases hstep
      exact h.congr rfl rfl
  | start w idleFiber =>
      simp only [step] at hstep
      split at hstep
      · next hst =>
        cases hstep
        exact (h.setState .init (by simp [hst.2])).setWorker w rfl
      · cases hstep
  | dequeue w =>
      simp only [step] at hstep
      split at hstep
      · have hsafe := dequeue_safe h w
        rw [Option.some.inj hstep] at hsafe
        exact hsafe
      · cases hstep
  | dispatch w fresh =>
      obtain ⟨t', hcall, heq⟩ := Option.map_eq_some_iff.mp hstep
      cases heq
      exact dispatch_safe h hcall
  | swapIn w => exact absurd rfl (hswap w)
  | yield w how =>
      obtain ⟨t', hcall, heq⟩ := Option.map_eq_some_iff.mp hstep
      cases heq
      exact yield_safe h hcall
  | save w =>
      obtain ⟨t', hcall, heq⟩ := Option.map_eq_some_iff.mp hstep
      cases heq
      exact save_safe h hcall
  | fixUp w => exact absurd rfl (hfix w)

/-- **When a step keeps the state safe.** -/
theorem safe_iff_timely {s t : Scheduler} (h : s.Safe) {op : Op} {out : Bool}
    (hstep : step s op = some (out, t)) : t.Safe ↔ s.Timely op := by
  cases op with
  | swapIn w =>
      obtain ⟨t', hcall, heq⟩ := Option.map_eq_some_iff.mp hstep
      cases heq
      exact swapIn_safe_iff h hcall
  | fixUp w => exact fixUp_safe_iff h hstep
  | create f => exact iff_of_true (step_safe h (by simp) (by simp) hstep) trivial
  | schedule ft => exact iff_of_true (step_safe h (by simp) (by simp) hstep) trivial
  | start w idleFiber => exact iff_of_true (step_safe h (by simp) (by simp) hstep) trivial
  | dequeue w => exact iff_of_true (step_safe h (by simp) (by simp) hstep) trivial
  | dispatch w fresh => exact iff_of_true (step_safe h (by simp) (by simp) hstep) trivial
  | yield w how => exact iff_of_true (step_safe h (by simp) (by simp) hstep) trivial
  | save w => exact iff_of_true (step_safe h (by simp) (by simp) hstep) trivial

/-- **One step** stays safe exactly when it is timely. -/
theorem staysSafe_iff_timely {s : Scheduler} (h : s.Safe) {op : Op}
    (hdef : (step s op).isSome) : s.StaysSafe op ↔ s.Timely op := by
  obtain ⟨⟨out, t⟩, hstep⟩ := Option.isSome_iff_exists.mp hdef
  rw [← safe_iff_timely h hstep]
  constructor
  · intro hall
    exact hall out t hstep
  · intro ht out' t' hstep'
    rw [hstep] at hstep'
    cases hstep'
    exact ht

/-- The two conditions are met by the same runs. -/
theorem meets_staysSafe_iff {ops : List Op} {outs : List Bool} {s : Scheduler}
    (hrun : Machine.run step new ops = some (outs, s)) :
    Machine.Meets step StaysSafe new ops ↔ Machine.Meets step Timely new ops :=
  Machine.meets_iff_meets (fun _ _ h hdef => staysSafe_iff_timely h hdef)
    (fun _ _ _ _ h _ htimely hstep => (safe_iff_timely h hstep).mpr htimely) new_safe
    (Machine.meets_isSome_of_run hrun)

/-- A run that meets the condition ends in a safe state. -/
theorem safe_of_meets_timely {ops : List Op} {outs : List Bool} {s : Scheduler}
    (hrun : Machine.run step new ops = some (outs, s))
    (htimely : Machine.Meets step Timely new ops) :
    s.Safe := by
  have hstep : ∀ s op out t, Safe s → s.Timely op → step s op = some (out, t) → t.Safe ∧ True :=
    fun s op out t h ht hone => ⟨(safe_iff_timely h hone).mpr ht, trivial⟩
  exact (Machine.run_invariant_of_meets hstep new_safe htimely hrun).1

/-- **Which runs keep fibers apart.**  Take any run of any number of workers
and of other threads that create and schedule fibers.  In every state it
passes through, no fiber is on the stack of two workers and every fiber whose
body a worker executes is in state `EXEC`, if and only if no step of the run
swaps in a fiber that has yielded on another worker and is not saved there
yet, or fixes up a fiber that runs on another worker. -/
theorem run_safe_iff {ops : List Op} {outs : List Bool} {s : Scheduler}
    (hrun : Machine.run step new ops = some (outs, s)) :
    (Machine.Meets step StaysSafe new ops ↔ Machine.Meets step Timely new ops) ∧
    (Machine.Meets step Timely new ops → s.Safe) :=
  ⟨meets_staysSafe_iff hrun, safe_of_meets_timely hrun⟩

/-- A fiber is scheduled again only after worker 1 has saved and fixed it up, and goes on on
worker 2: the condition is met. -/
theorem run_safe_resumed_after_save :
    let ops : List Op := [.create 5, .start 1 11, .start 2 12, .schedule ⟨.fiber 5, none⟩,
      .dequeue 1, .dispatch 1 0, .swapIn 1, .yield 1 .toHold, .save 1, .fixUp 1,
      .schedule ⟨.fiber 5, none⟩, .dequeue 2, .dispatch 2 0, .swapIn 2]
    ∃ outs s, Machine.run step new ops = some (outs, s) ∧
      (s.workers 1).phase = .polling ∧ (s.workers 2).phase = .running 5 .fiber ∧ s.Safe := by
  intro ops
  have hend : (Machine.run step new ops).map
      (fun r => ((r.2.workers 1).phase, (r.2.workers 2).phase)) =
      some (.polling, .running 5 .fiber) := by
    decide
  obtain ⟨⟨outs, s⟩, hrun, heq⟩ := Option.map_eq_some_iff.mp hend
  obtain ⟨hpolling, hrunning⟩ := Prod.mk.inj heq
  refine ⟨outs, s, hrun, hpolling, hrunning, (run_safe_iff hrun).2 ?_⟩
  refine ⟨trivial, fun _ _ h₁ => ⟨trivial, fun _ _ h₂ => ⟨trivial, fun _ _ h₃ => ⟨trivial,
    fun _ _ h₄ => ⟨trivial, fun _ _ h₅ => ⟨trivial, fun _ _ h₆ => ⟨?_, fun _ _ h₇ => ⟨trivial,
    fun _ _ h₈ => ⟨trivial, fun _ _ h₉ => ⟨?_, fun _ _ h₁₀ => ⟨trivial, fun _ _ h₁₁ => ⟨trivial,
    fun _ _ h₁₂ => ⟨trivial, fun _ _ h₁₃ => ⟨?_, fun _ _ _ => trivial⟩⟩⟩⟩⟩⟩⟩⟩⟩⟩⟩⟩⟩⟩
  all_goals
    cases h₁; cases h₂; cases h₃; cases h₄; cases h₅; cases h₆
  · intro v hv f role role' _ hsaving
    by_cases htwo : v = 2
    · simp [setPhase, setWorker, setState, new, htwo] at hsaving
    · simp [setPhase, setWorker, setState, new, hv, htwo] at hsaving
  all_goals
    cases h₇; cases h₈; cases h₉
  · intro v hv f role role' _ hsaving
    by_cases htwo : v = 2
    · simp [setPhase, setWorker, setState, new, htwo] at hsaving
    · simp [setPhase, setWorker, setState, new, hv, htwo] at hsaving
  cases h₁₀; cases h₁₁; cases h₁₂; cases h₁₃
  intro v hv f role role' _ hsaving
  by_cases hone : v = 1
  · simp [setPhase, setWorker, setState, new, hone] at hsaving
  · simp [setPhase, setWorker, setState, new, hv, hone] at hsaving

/-- A fiber is scheduled a second time while it runs, yields on worker 1, and
is resumed by worker 2 before its context is saved. -/
theorem not_safe_resumed_before_save :
    let ops : List Op := [.create 5, .start 1 11, .start 2 12, .schedule ⟨.fiber 5, none⟩,
      .dequeue 1, .dispatch 1 0, .swapIn 1, .schedule ⟨.fiber 5, none⟩, .yield 1 .toHold,
      .dequeue 2, .dispatch 2 0, .swapIn 2]
    ∃ outs s, Machine.run step new ops = some (outs, s) ∧
      (s.workers 1).phase = .saving 5 .fiber ∧ (s.workers 2).phase = .running 5 .fiber ∧
      ¬ s.Safe ∧ ¬ Machine.Meets step StaysSafe new ops := by
  intro ops
  have hend : (Machine.run step new ops).map
      (fun r => ((r.2.workers 1).phase, (r.2.workers 2).phase)) =
      some (.saving 5 .fiber, .running 5 .fiber) := by
    decide
  obtain ⟨⟨outs, s⟩, hrun, heq⟩ := Option.map_eq_some_iff.mp hend
  obtain ⟨hsaving, hrunning⟩ := Prod.mk.inj heq
  have hunsafe : ¬ s.Safe := by
    intro h
    refine h.apart 1 2 5 (by decide) ?_ ?_
    · rw [hsaving]
      rfl
    · rw [hrunning]
      rfl
  refine ⟨outs, s, hrun, hsaving, hrunning, hunsafe, ?_⟩
  rw [meets_staysSafe_iff hrun]
  intro htimely
  exact hunsafe (safe_of_meets_timely hrun htimely)

end Scheduler

end Mingo
