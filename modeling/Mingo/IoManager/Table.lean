import Mingo.IoManager.Basic

/-!
# Concurrent growth of the context table

`addEvent` tests the size of `m_fdContexts` under the read lock, gives that
lock up, and resizes the table under the write lock to a size that depends on
its own descriptor only.  `Adding` keeps, for every thread, how far its call
of `addEvent` has come; a step is one section of one thread.

A thread that was overtaken by another one that grows the table further cuts
the table off again.  The table is stable, and every registration stays where
the table finds it, exactly in the runs in which no resize is for fewer
entries than the table has (`run_table_stable_iff`).
-/

namespace Mingo

/-- The arguments of a call of `addEvent`, and the scheduler and the fiber of
the thread it is made on. -/
structure AddCall where
  fd : Nat
  event : Event
  cb : Option Nat
  scheduler : Nat
  fiber : Nat
  deriving DecidableEq, Repr

/-- How far a thread has come. -/
inductive Phase
  /-- not in `addEvent` -/
  | outside
  /-- the size test has failed -/
  | tooSmall (call : AddCall)
  /-- `fd_ctx` is found -/
  | located (call : AddCall) (ptr : Nat)
  deriving DecidableEq, Repr

/-- A manager and the phases of the threads that call it. -/
structure Adding where
  io : IoManager
  phase : Nat → Phase

namespace Adding

open IoManager

/-- The lock-protected sections of `addEvent`, by the thread that runs one. -/
inductive Op
  | check (t : Nat) (call : AddCall)
  | resize (t : Nat)
  | register (t : Nat) (ctl : Bool)
  deriving DecidableEq, Repr

/-- A fresh manager and no call. -/
def new : Adding := ⟨IoManager.new, fun _ => .outside⟩

/-- Thread `t` is in phase `p` now. -/
def setPhase (s : Adding) (t : Nat) (p : Phase) : Adding :=
  { s with phase := fun t' => if t' = t then p else s.phase t' }

/-- One section; undefined when the thread is not there or runs into a fault. -/
def step : Machine.Step Adding Op Unit
  | s, .check t call =>
      match s.phase t with
      | .outside =>
          if s.io.fdContexts.length > call.fd then
            match s.io.fdContexts[call.fd]? with
            | none => none
            | some p => some ((), s.setPhase t (.located call p))
          else some ((), s.setPhase t (.tooSmall call))
      | _ => none
  | s, .resize t =>
      match s.phase t with
      | .tooSmall call =>
          let io := s.io.contextResize (grownSize call.fd)
          match io.fdContexts[call.fd]? with
          | none => none
          | some p => some ((), { s with io := io }.setPhase t (.located call p))
      | _ => none
  | s, .register t ctl =>
      match s.phase t with
      | .located call p =>
          (s.io.register p call.fd call.event call.cb call.scheduler call.fiber ctl).toOption.map
            fun r => ((), { s with io := r.2 }.setPhase t .outside)
      | _ => none

/-- The context that holds a registration is the one the table has for its
descriptor. -/
def Held (m : IoManager) : Prop :=
  ∀ (p : Nat) (c : FdContext), m.contexts[p]? = some c → c.events ≠ .none →
    m.fdContexts[c.fd]? = some p

/-- A step is stable: the table does not get shorter, and every registration
is held by the table afterwards. -/
def Stable (s : Adding) (op : Op) : Prop :=
  ∀ out t, step s op = some (out, t) →
    s.io.fdContexts.length ≤ t.io.fdContexts.length ∧ Held t.io

/-- The size a thread is about to give the table. -/
def resizesTo : Phase → Option Nat
  | .tooSmall call => some (grownSize call.fd)
  | _ => none

/-- A resize is for at least as many entries as the table has. -/
def NeverShrinks (s : Adding) : Op → Prop
  | .resize t => ∀ size ∈ resizesTo (s.phase t), s.io.fdContexts.length ≤ size
  | _ => True

instance (s : Adding) : (op : Op) → Decidable (s.NeverShrinks op)
  | .check _ _ => inferInstanceAs (Decidable True)
  | .resize t => inferInstanceAs (Decidable (∀ size ∈ resizesTo (s.phase t),
      s.io.fdContexts.length ≤ size))
  | .register _ _ => inferInstanceAs (Decidable True)

/-- What a thread in a phase relies on: only large descriptors find the table
too small, and a pointer that was found is still in the table. -/
def PhaseOk (m : IoManager) : Phase → Prop
  | .outside => True
  | .tooSmall call => 32 ≤ call.fd
  | .located call p => m.fdContexts[call.fd]? = some p

/-- The invariant of the runs that never shrink the table. -/
structure Wf (s : Adding) : Prop where
  size : 32 ≤ s.io.fdContexts.length
  table : ∀ (fd p : Nat), s.io.fdContexts[fd]? = some p →
    ∃ c, s.io.contexts[p]? = some c ∧ c.fd = fd
  held : Held s.io
  phases : ∀ t, PhaseOk s.io (s.phase t)

@[simp]
theorem setPhase_io (s : Adding) (t : Nat) (p : Phase) : (s.setPhase t p).io = s.io := rfl

theorem length_contextResize (m : IoManager) (size : Nat) :
    (m.contextResize size).fdContexts.length = size := by
  rw [contextResize, List.length_append, List.length_range', List.length_take]
  omega

theorem lt_grownSize {fd : Nat} (h : 32 ≤ fd) : fd < grownSize fd := by
  rw [grownSize]
  omega

/-- What the section under the lock of a context does to the table and the
contexts. -/
theorem register_cases {m m' : IoManager} {p fd : Nat} {event : Event} {cb : Option Nat}
    {scheduler fiber : Nat} {ctl ok : Bool}
    (h : m.register p fd event cb scheduler fiber ctl = .ok (ok, m')) :
    m'.fdContexts = m.fdContexts ∧ ∃ c c' : FdContext, m.contexts[p]? = some c ∧
      m'.contexts = m.contexts.set p c' ∧ c'.fd = c.fd := by
  cases hp : m.contexts[p]? with
  | none => simp [register, hp] at h
  | some c =>
      have hsame : m.contexts = m.contexts.set p c := by
        obtain ⟨hlt, heq⟩ := List.getElem?_eq_some_iff.mp hp
        rw [← heq, List.set_getElem_self]
      simp only [register, hp] at h
      split at h
      · cases h
      · split at h
        · cases h
          exact ⟨rfl, c, c, rfl, hsame, rfl⟩
        · split at h
          · cases h
          · cases h
            refine ⟨rfl, c, _, rfl, rfl, ?_⟩
            cases event <;> rfl

/-- Growing keeps every registration where the table finds it, and every
entry of the table. -/
theorem Wf.resize {s : Adding} (h : s.Wf) {size : Nat} (hsize : s.io.fdContexts.length ≤ size) :
    Held (s.io.contextResize size) ∧
      (∀ fd p : Nat, s.io.fdContexts[fd]? = some p →
        (s.io.contextResize size).fdContexts[fd]? = some p) ∧
      ∀ fd p : Nat, (s.io.contextResize size).fdContexts[fd]? = some p →
        ∃ c, (s.io.contextResize size).contexts[p]? = some c ∧ c.fd = fd := by
  have hresize := contextResize_of_le hsize
  have htable : ∀ fd p : Nat, s.io.fdContexts[fd]? = some p →
      (s.io.contextResize size).fdContexts[fd]? = some p := by
    intro fd p hp
    obtain ⟨hlt, _⟩ := List.getElem?_eq_some_iff.mp hp
    rw [hresize, List.getElem?_append_left hlt]
    exact hp
  refine ⟨?_, htable, ?_⟩
  · intro p c hp hne
    rw [hresize] at hp
    by_cases hlt : p < s.io.contexts.length
    · rw [List.getElem?_append_left hlt] at hp
      exact htable _ _ (h.held p c hp hne)
    · rw [List.getElem?_append_right (by omega), List.getElem?_map] at hp
      obtain ⟨q, _, rfl⟩ := Option.map_eq_some_iff.mp hp
      exact absurd rfl hne
  · intro fd p hp
    by_cases hlt : fd < s.io.fdContexts.length
    · rw [hresize, List.getElem?_append_left hlt] at hp
      obtain ⟨c, hc, hfd⟩ := h.table fd p hp
      refine ⟨c, ?_, hfd⟩
      obtain ⟨hlt', _⟩ := List.getElem?_eq_some_iff.mp hc
      rw [hresize, List.getElem?_append_left hlt']
      exact hc
    · have hin : fd < size := by
        rw [← length_contextResize s.io size]
        exact (List.getElem?_eq_some_iff.mp hp).1
      rw [hresize, List.getElem?_append_right (by omega), List.getElem?_range' (by omega)] at hp
      have hptr : p = s.io.contexts.length + (fd - s.io.fdContexts.length) := by
        have heq := Option.some.inj hp
        omega
      refine ⟨FdContext.new fd, ?_, rfl⟩
      rw [hresize, hptr, List.getElem?_append_right (by omega), Nat.add_sub_cancel_left,
        List.getElem?_map, List.getElem?_range' (by omega), Option.map_some]
      congr 2
      omega

/-- What the threads rely on survives as long as the entries of the table
do. -/
theorem PhaseOk.mono {m m' : IoManager}
    (htab : ∀ fd p : Nat, m.fdContexts[fd]? = some p → m'.fdContexts[fd]? = some p) {p : Phase}
    (h : PhaseOk m p) : PhaseOk m' p := by
  cases p with
  | outside => trivial
  | tooSmall call => exact h
  | located call ptr => exact htab call.fd ptr h

/-- Registering an event in a context that the table has keeps the
registrations held by the table. -/
theorem Wf.setContext {s : Adding} (h : s.Wf) {fd p : Nat} {m' : IoManager} {c c' : FdContext}
    (hp : s.io.fdContexts[fd]? = some p) (htab : m'.fdContexts = s.io.fdContexts)
    (hc : s.io.contexts[p]? = some c) (hset : m'.contexts = s.io.contexts.set p c')
    (hfd : c'.fd = c.fd) :
    Held m' ∧ ∀ fd q : Nat, m'.fdContexts[fd]? = some q →
      ∃ d, m'.contexts[q]? = some d ∧ d.fd = fd := by
  obtain ⟨c₀, hc₀, hfd₀⟩ := h.table fd p hp
  rw [hc] at hc₀
  cases hc₀
  have hself : m'.contexts[p]? = some c' := by
    rw [hset, List.getElem?_set_self (List.getElem?_eq_some_iff.mp hc).1]
  have hother : ∀ q : Nat, q ≠ p → m'.contexts[q]? = s.io.contexts[q]? := by
    intro q hq
    rw [hset, List.getElem?_set_ne (Ne.symm hq)]
  constructor
  · intro q d hq hne
    rw [htab]
    by_cases heq : q = p
    · subst heq
      rw [hself] at hq
      cases hq
      rw [hfd, hfd₀]
      exact hp
    · rw [hother q heq] at hq
      exact h.held q d hq hne
  · intro fd' q hq
    rw [htab] at hq
    obtain ⟨d, hd, hdfd⟩ := h.table fd' q hq
    by_cases heq : q = p
    · subst heq
      rw [hc] at hd
      cases hd
      exact ⟨c', hself, hfd.trans hdfd⟩
    · exact ⟨d, (hother q heq).trans hd, hdfd⟩

/-- A thread moves to a phase whose facts hold. -/
theorem phaseOk_setPhase {s : Adding} {m : IoManager} (hall : ∀ t, PhaseOk m (s.phase t))
    {u : Nat} {p : Phase} (hp : PhaseOk m p) (t : Nat) : PhaseOk m ((s.setPhase u p).phase t) := by
  by_cases heq : t = u
  · simpa [setPhase, heq] using hp
  · simpa [setPhase, heq] using hall t

/-- **A step that does not shrink the table** does not make it shorter and
keeps the invariant. -/
theorem step_wf {s t : Adding} {op : Op} {out : Unit} (h : s.Wf) (hop : s.NeverShrinks op)
    (hstep : step s op = some (out, t)) :
    t.Wf ∧ s.io.fdContexts.length ≤ t.io.fdContexts.length := by
  cases op with
  | check u call =>
      simp only [step] at hstep
      split at hstep
      · split at hstep
        · split at hstep
          · cases hstep
          · next p hp =>
            cases hstep
            exact ⟨⟨h.size, h.table, h.held, phaseOk_setPhase h.phases hp⟩, Nat.le_refl _⟩
        · next hsmall =>
          cases hstep
          have hlarge : 32 ≤ call.fd := Nat.le_trans h.size (Nat.not_lt.mp hsmall)
          exact ⟨⟨h.size, h.table, h.held, phaseOk_setPhase h.phases hlarge⟩, Nat.le_refl _⟩
      · cases hstep
  | resize u =>
      simp only [step] at hstep
      split at hstep
      · next call hphase =>
        have hgrows := hop (grownSize call.fd) (by rw [hphase]; rfl)
        obtain ⟨hheld, hmono, htable⟩ := h.resize hgrows
        have hphases := fun v => PhaseOk.mono hmono (h.phases v)
        split at hstep
        · cases hstep
        · next p hp =>
          cases hstep
          have hlen := length_contextResize s.io (grownSize call.fd)
          refine ⟨⟨?_, htable, hheld, phaseOk_setPhase hphases hp⟩, ?_⟩
          · rw [setPhase_io, hlen]
            exact Nat.le_trans h.size hgrows
          · rw [setPhase_io, hlen]
            exact hgrows
      · cases hstep
  | register u ctl =>
      simp only [step] at hstep
      split at hstep
      · next call p hphase =>
        have hlocated : s.io.fdContexts[call.fd]? = some p := by
          have hu := h.phases u
          rw [hphase] at hu
          exact hu
        cases hreg : s.io.register p call.fd call.event call.cb call.scheduler call.fiber ctl with
        | error f =>
            rw [hreg] at hstep
            cases hstep
        | ok r =>
            obtain ⟨ok, m'⟩ := r
            rw [hreg] at hstep
            cases hstep
            obtain ⟨htab, c, c', hc, hset, hfd⟩ := register_cases hreg
            obtain ⟨hheld, htable⟩ := h.setContext hlocated htab hc hset hfd
            have hphases := fun v =>
              PhaseOk.mono (by rw [htab]; exact fun _ _ hq => hq) (h.phases v)
            refine ⟨⟨?_, htable, hheld, phaseOk_setPhase hphases trivial⟩, ?_⟩
            · rw [setPhase_io, htab]
              exact h.size
            · exact Nat.le_of_eq (congrArg List.length htab.symm)
      · cases hstep

/-- The manager starts with 32 empty contexts. -/
theorem new_wf : new.Wf := by
  have hcontexts : new.io.contexts = (List.range 32).map FdContext.new := by decide
  have htable : new.io.fdContexts = List.range 32 := by decide
  refine ⟨by decide, ?_, ?_, fun _ => trivial⟩
  · intro fd p hp
    rw [htable] at hp
    obtain ⟨hlt, heq⟩ := List.getElem?_eq_some_iff.mp hp
    rw [List.getElem_range] at heq
    subst heq
    exact ⟨FdContext.new fd, by rw [hcontexts, List.getElem?_map, hp]; rfl, rfl⟩
  · intro p c hp hne
    rw [hcontexts, List.getElem?_map] at hp
    obtain ⟨q, _, rfl⟩ := Option.map_eq_some_iff.mp hp
    exact absurd rfl hne

/-- **When a step is stable.** -/
theorem stable_iff_neverShrinks {s : Adding} (h : s.Wf) (op : Op) :
    s.Stable op ↔ s.NeverShrinks op := by
  constructor
  · intro hstable
    cases op with
    | check u call => trivial
    | register u ctl => trivial
    | resize u =>
        intro size hsize
        obtain ⟨call, hphase, rfl⟩ : ∃ call, s.phase u = .tooSmall call ∧
            size = grownSize call.fd := by
          cases hphase : s.phase u with
          | outside => simp [hphase, resizesTo] at hsize
          | located call p => simp [hphase, resizesTo] at hsize
          | tooSmall call =>
              rw [hphase] at hsize
              exact ⟨call, rfl, (Option.some.inj hsize).symm⟩
        have hlarge : 32 ≤ call.fd := by
          have hu := h.phases u
          rw [hphase] at hu
          exact hu
        have hlen := length_contextResize s.io (grownSize call.fd)
        have hin : call.fd < (s.io.contextResize (grownSize call.fd)).fdContexts.length := by
          rw [hlen]
          exact lt_grownSize hlarge
        have hstep : step s (.resize u) = some ((),
            { s with io := s.io.contextResize (grownSize call.fd) }.setPhase u
              (.located call
                ((s.io.contextResize (grownSize call.fd)).fdContexts.get ⟨call.fd, hin⟩))) := by
          simp only [step, hphase, List.getElem?_eq_getElem hin]
          rfl
        have hle := (hstable _ _ hstep).1
        rwa [setPhase_io, hlen] at hle
  · intro hop out t hstep
    obtain ⟨hwf, hle⟩ := step_wf h hop hstep
    exact ⟨hle, hwf.held⟩

/-- The two conditions are met by the same runs. -/
theorem meets_stable_iff (ops : List Op) :
    Machine.Meets step Stable new ops ↔ Machine.Meets step NeverShrinks new ops :=
  Machine.meets_iff_meets (fun _ op h _ => stable_iff_neverShrinks h op)
    (fun _ _ _ _ h _ hop hstep => (step_wf h hop hstep).1) new_wf (Machine.meets_true new ops)

/-- **The table is stable exactly when no resize is overtaken.**  In a run of
sections of concurrent `addEvent` calls, in any order, no step makes the table
shorter or leaves a registration in a context that the table does not hold for
its descriptor, if and only if no `contextResize` is called for fewer entries
than the table has.  In such a run the state reached holds every
registration. -/
theorem run_table_stable_iff (ops : List Op) :
    (Machine.Meets step Stable new ops ↔ Machine.Meets step NeverShrinks new ops) ∧
    (Machine.Meets step NeverShrinks new ops → ∀ outs s,
      Machine.run step new ops = some (outs, s) →
        new.io.fdContexts.length ≤ s.io.fdContexts.length ∧ Held s.io) := by
  refine ⟨meets_stable_iff ops, ?_⟩
  intro hops outs s hrun
  have hstep : ∀ s op out t, Wf s → s.NeverShrinks op → step s op = some (out, t) →
      t.Wf ∧ True :=
    fun s op out t h hop hone => ⟨(step_wf h hop hone).1, trivial⟩
  obtain ⟨hwf, _⟩ := Machine.run_invariant_of_meets hstep new_wf hops hrun
  exact ⟨hwf.size, hwf.held⟩

/-- Two threads find the table too small, for the descriptors 100 and 40; the
first one grows it and registers, then the second one cuts it off. -/
theorem not_stable_overtaken :
    let ops : List Op := [.check 1 ⟨100, .read, none, 7, 1⟩, .check 2 ⟨40, .read, none, 7, 2⟩,
      .resize 1, .register 1 true, .resize 2]
    ¬ Machine.Meets step Stable new ops ∧
      (Machine.run step new (ops.take 4)).map (fun r => (r.2.io.fdContexts.length,
        r.2.io.fdContexts[100]?, r.2.io.contexts[100]?.map FdContext.events)) =
          some (150, some 100, some ⟨true, false⟩) ∧
      (Machine.run step new ops).map (fun r => (r.2.io.fdContexts.length,
        r.2.io.fdContexts[100]?, r.2.io.contexts[100]?.map FdContext.events)) =
          some (60, none, some ⟨true, false⟩) := by
  intro ops
  refine ⟨?_, by decide +kernel, by decide +kernel⟩
  rw [meets_stable_iff]
  decide +kernel

end Adding

end Mingo
