import Mingo.Config.Basic

/-!
# Do the listeners know the value?

A listener such as those of http_parser.cpp mirrors the variable: it keeps the
`new_val` that it was passed last.  The order in which two calls notify need
not be the order in which they store, so the mirror can hold another value
than the variable when both have returned.

* `Agreeing` -- the invariant: what a listener was passed last is what the
  calls that have notified it are about to store;
* `run_agrees` -- as long as no two calls with different values overlap, a
  listener knows the value whenever no call is in progress;
* `run_lone` -- a call that runs alone is `ConfigVar.setValue`.
-/

namespace Mingo

namespace Setters

variable {T : Type}

/-- The invariant, for the listener `key` and the value before the first step. -/
structure Agreeing (first : T) (key : Nat) (s : Setters T) : Prop where
  registered : key ∈ s.var.cbs
  same : ∀ call ∈ s.calls, ∀ call' ∈ s.calls, ∀ v ∈ call.value, ∀ w ∈ call'.value, v = w
  notified : ∀ v rest, .notifying v rest ∈ s.calls → key ∈ rest ∨ s.last key = some v
  unlocked : ∀ v, .storing v ∈ s.calls → s.last key = some v
  quiet : s.Quiet → (s.last key).getD first = s.var.value

theorem start_agreeing {var : ConfigVar T} {key : Nat} (h : key ∈ var.cbs) (n funcId : Nat) :
    (start var n funcId).Agreeing var.value key := by
  have hidle : ∀ call ∈ (start var n funcId).calls, call = .idle := by
    intro call hcall
    exact (List.mem_replicate.mp hcall).2
  refine ⟨h, ?_, ?_, ?_, fun _ => rfl⟩
  · intro call hcall _ _ v hv
    rw [hidle call hcall] at hv
    cases hv
  · intro v rest hcall
    cases hidle _ hcall
  · intro v hcall
    cases hidle _ hcall

variable {first : T} {key c : Nat} {s : Setters T} {call call' : SetCall T}

/-- A call goes on with the value that it had. -/
theorem Agreeing.same_set (h : s.Agreeing first key) (hc : s.calls[c]? = some call)
    (hvalue : ∀ v ∈ call'.value, v ∈ call.value) :
    ∀ x ∈ s.calls.set c call', ∀ y ∈ s.calls.set c call', ∀ v ∈ x.value, ∀ w ∈ y.value, v = w := by
  have hold : ∀ x ∈ s.calls.set c call', ∀ v ∈ x.value, ∃ x' ∈ s.calls, v ∈ x'.value := by
    intro x hx v hv
    rcases List.mem_or_eq_of_mem_set hx with hmem | rfl
    · exact ⟨x, hmem, hv⟩
    · exact ⟨call, List.mem_of_getElem? hc, hvalue v hv⟩
  intro x hx y hy v hv w hw
  obtain ⟨x', hx', hv'⟩ := hold x hx v hv
  obtain ⟨y', hy', hw'⟩ := hold y hy w hw
  exact h.same x' hx' y' hy' v hv' w hw'

/-- A call in progress is in the way of quiet. -/
theorem not_quiet_of_mem (hmem : call ∈ s.calls) (hcall : call ≠ .idle) : ¬ s.Quiet :=
  fun hquiet => hcall (hquiet call hmem)

theorem set_mem (hc : s.calls[c]? = some call) : call' ∈ s.calls.set c call' := by
  obtain ⟨hlt, _⟩ := List.getElem?_eq_some_iff.mp hc
  exact List.mem_set hlt call'

/-- One call goes on, and the others stay where they are. -/
theorem Agreeing.proceed {t : Setters T} (h : s.Agreeing first key) (hcbs : t.var.cbs = s.var.cbs)
    (hcalls : t.calls = s.calls.set c call')
    (hsame : ∀ x ∈ t.calls, ∀ y ∈ t.calls, ∀ v ∈ x.value, ∀ w ∈ y.value, v = w)
    (hlast : ∀ v, (∃ call ∈ s.calls, v ∈ call.value) → s.last key = some v → t.last key = some v)
    (hnotified : ∀ v rest, call' = .notifying v rest → key ∈ rest ∨ t.last key = some v)
    (hunlocked : ∀ v, call' = .storing v → t.last key = some v)
    (hquiet : t.Quiet → (t.last key).getD first = t.var.value) : t.Agreeing first key := by
  refine ⟨hcbs ▸ h.registered, hsame, ?_, ?_, hquiet⟩
  · intro v rest hcall
    rw [hcalls] at hcall
    rcases List.mem_or_eq_of_mem_set hcall with hmem | heq
    · exact (h.notified v rest hmem).imp_right (hlast v ⟨_, hmem, rfl⟩)
    · exact hnotified v rest heq.symm
  · intro v hcall
    rw [hcalls] at hcall
    rcases List.mem_or_eq_of_mem_set hcall with hmem | heq
    · exact hlast v ⟨_, hmem, rfl⟩ (h.unlocked v hmem)
    · exact hunlocked v heq.symm

/-! ### One lemma for each step -/

/-- A call begins to notify: the listener is still on its list. -/
theorem Agreeing.compare [BEq T] {value : T} (h : s.Agreeing first key)
    (hc : s.calls[c]? = some .idle) (halone : s.Alone (.compare c value)) :
    (s.compare c value).Agreeing first key := by
  unfold Setters.compare
  split
  · exact h
  · next hdiffers =>
      have hothers := halone ((Bool.not_eq_true _).mp hdiffers)
      have hvalues : ∀ x ∈ s.calls.set c (.notifying value s.var.cbs), ∀ v ∈ x.value,
          v = value := by
        intro x hx v hv
        rcases List.mem_or_eq_of_mem_set hx with hmem | rfl
        · exact hothers x hmem v hv
        · exact (Option.some.inj hv).symm
      refine h.proceed rfl rfl ?_ (fun _ _ hlast => hlast) ?_ nofun ?_
      · intro x hx y hy v hv w hw
        rw [hvalues x hx v hv, hvalues y hy w hw]
      · intro v rest heq
        cases heq
        exact Or.inl h.registered
      · intro hquiet
        exact absurd hquiet (not_quiet_of_mem (set_mem hc) nofun)

/-- A listener is called: all calls in progress are about its value. -/
theorem Agreeing.notify {value : T} {key' : Nat} {rest : List Nat} (h : s.Agreeing first key)
    (hc : s.calls[c]? = some (.notifying value (key' :: rest))) :
    Agreeing first key { s with
      calls := s.calls.set c (.notifying value rest)
      last := Function.update s.last key' (some value) } := by
  have hmem : .notifying value (key' :: rest) ∈ s.calls := List.mem_of_getElem? hc
  have hlast : ∀ v, (∃ call ∈ s.calls, v ∈ call.value) → s.last key = some v →
      Function.update s.last key' (some value) key = some v := by
    intro v hv hlast
    obtain ⟨call, hcall, hv⟩ := hv
    by_cases hkey : key = key'
    · rw [hkey, Function.update_self, h.same call hcall _ hmem v hv value rfl]
    · rw [Function.update_of_ne hkey]
      exact hlast
  refine h.proceed rfl rfl (h.same_set hc (fun v hv => hv)) hlast ?_ nofun ?_
  · intro v rest' heq
    cases heq
    by_cases hkey : key = key'
    · exact Or.inr (by rw [hkey]; exact Function.update_self _ _ _)
    · rcases h.notified value (key' :: rest) hmem with hrest | hdone
      · exact Or.inl ((List.mem_cons.mp hrest).resolve_left hkey)
      · exact Or.inr (hlast value ⟨_, hmem, rfl⟩ hdone)
  · intro hquiet
    exact absurd hquiet (not_quiet_of_mem (set_mem hc) nofun)

/-- The first section ends: every listener has been called. -/
theorem Agreeing.unlock {value : T} (h : s.Agreeing first key)
    (hc : s.calls[c]? = some (.notifying value [])) (readers : Nat) :
    Agreeing first key { s with readers := readers, calls := s.calls.set c (.storing value) } := by
  have hdone : s.last key = some value :=
    (h.notified value [] (List.mem_of_getElem? hc)).resolve_left List.not_mem_nil
  refine h.proceed rfl rfl (h.same_set hc (fun v hv => hv)) (fun _ _ hlast => hlast) nofun ?_ ?_
  · intro v heq
    cases heq
    exact hdone
  · intro hquiet
    exact absurd hquiet (not_quiet_of_mem (set_mem hc) nofun)

/-- The value is stored that the listener was passed last. -/
theorem Agreeing.store {value : T} (h : s.Agreeing first key)
    (hc : s.calls[c]? = some (.storing value)) :
    Agreeing first key { s with
      var := { s.var with value := value }
      calls := s.calls.set c .idle } := by
  have hdone : s.last key = some value := h.unlocked value (List.mem_of_getElem? hc)
  refine h.proceed rfl rfl (h.same_set hc nofun) (fun _ _ hlast => hlast) nofun nofun ?_
  intro _
  show (s.last key).getD first = value
  rw [hdone]
  rfl

/-- Other listeners come and go. -/
theorem Agreeing.listeners (h : s.Agreeing first key) {cbs : List Nat} (hkey : key ∈ cbs)
    (funcId : Nat) :
    Agreeing first key { s with var := { s.var with cbs := cbs }, funcId := funcId } :=
  ⟨hkey, h.same, h.notified, h.unlocked, h.quiet⟩

variable [BEq T] {op : Op T} {out : Option T} {t : Setters T}

/-- **Step lemma.** -/
theorem step_agreeing (h : s.Agreeing first key) (halone : s.Alone op)
    (hkeep : op.removes key = false) (hstep : step s op = some (out, t)) :
    t.Agreeing first key := by
  revert hstep
  fun_cases step s op with
  | case1 _ c value hc =>
      intro hstep
      cases hstep
      exact h.compare hc halone
  | case3 _ c value key' rest hc =>
      intro hstep
      cases hstep
      exact h.notify hc
  | case5 _ c value hc =>
      intro hstep
      cases hstep
      exact h.unlock hc _
  | case7 _ c value hc =>
      intro hstep
      cases hstep
      exact h.store hc
  | case10 =>
      intro hstep
      cases hstep
      exact h.listeners (List.mem_append_left _ h.registered) _
  | case12 =>
      intro hstep
      cases hstep
      exact h.listeners h.registered _
  | case13 _ key' =>
      intro hstep
      cases hstep
      refine h.listeners (List.mem_filter.mpr ⟨h.registered, ?_⟩) _
      have hne : key' ≠ key := of_decide_eq_false hkeep
      exact decide_eq_true hne.symm
  | case15 =>
      cases hkeep
  | _ => exact nofun

/-- Once a value is stored, the listener has been passed one. -/
theorem step_last (h : s.Agreeing first key) (hstep : step s op = some (out, t)) :
    ((s.last key).isSome → (t.last key).isSome) ∧ (out.isSome → (t.last key).isSome) := by
  revert hstep
  fun_cases step s op with
  | case1 _ c value hc =>
      intro hstep
      cases hstep
      refine ⟨?_, nofun⟩
      unfold Setters.compare
      split <;> exact id
  | case3 _ c value key' rest hc =>
      intro hstep
      cases hstep
      refine ⟨?_, nofun⟩
      intro hsome
      by_cases hkey : key = key'
      · simp [hkey]
      · simpa [Function.update_of_ne hkey] using hsome
  | case7 _ c value hc =>
      intro hstep
      cases hstep
      refine ⟨id, ?_⟩
      intro _
      rw [h.unlocked value (List.mem_of_getElem? hc)]
      rfl
  | case2 => exact nofun
  | case4 => exact nofun
  | case6 => exact nofun
  | case8 => exact nofun
  | case9 => exact nofun
  | case11 => exact nofun
  | case14 => exact nofun
  | case16 => exact nofun
  | _ =>
      intro hstep
      cases hstep
      exact ⟨id, nofun⟩

/-- **The listeners know the value.**  In every run in which no two calls with different
values overlap, and for every listener that is there throughout: when all calls have
returned, its mirror holds the value of the variable, and if the value was changed at all
then by what the listener was passed last. -/
theorem run_agrees {var : ConfigVar T} {n funcId : Nat} {ops : List (Op T)}
    {outs : List (Option T)} (hkey : key ∈ var.cbs) (hkeep : ∀ op ∈ ops, op.removes key = false)
    (halone : Machine.Meets step Alone (start var n funcId) ops)
    (hrun : Machine.run step (start var n funcId) ops = some (outs, s)) (hquiet : s.Quiet) :
    (s.last key).getD var.value = s.var.value ∧
      ((∃ v, some v ∈ outs) → s.last key = some s.var.value) := by
  have hkeeps : Machine.Meets step (fun _ op => op.removes key = false) (start var n funcId) ops :=
    Machine.meets_of_mem hkeep _
  have hstep : ∀ (log : List (Option T)) s op out t,
      (s.Agreeing var.value key ∧ ((∃ v, some v ∈ log) → (s.last key).isSome)) →
      (s.Alone op ∧ op.removes key = false) → step s op = some (out, t) →
      t.Agreeing var.value key ∧ ((∃ v, some v ∈ log ++ [out]) → (t.last key).isSome) := by
    intro log s op out t h hok hs
    obtain ⟨hlast, hout⟩ := step_last h.1 hs
    refine ⟨step_agreeing h.1 hok.1 hok.2 hs, ?_⟩
    intro hstored
    obtain ⟨v, hv⟩ := hstored
    rcases List.mem_append.mp hv with hlog | hnew
    · exact hlast (h.2 ⟨v, hlog⟩)
    · exact hout (by rw [← List.mem_singleton.mp hnew]; rfl)
  have hstart : (start var n funcId).Agreeing var.value key ∧
      ((∃ v, some v ∈ ([] : List (Option T))) → ((start var n funcId).last key).isSome) :=
    ⟨start_agreeing hkey n funcId, by simp⟩
  obtain ⟨hs, hstored⟩ := Machine.run_history_of_meets hstep hstart (halone.and hkeeps) hrun
  have hmirror := hs.quiet hquiet
  refine ⟨hmirror, ?_⟩
  intro hchanged
  obtain ⟨v, hv⟩ := Option.isSome_iff_exists.mp (hstored hchanged)
  rw [hv] at hmirror ⊢
  exact congrArg some hmirror

/-- Two threads that overlap with the same value, then one of them with another: the size
that http_parser.cpp mirrors. -/
theorem run_agrees_buffer_size :
    let ops : List (Op UInt64) := [.compare 0 8192, .compare 1 8192, .notify 1, .unlock 1,
      .notify 0, .unlock 0, .store 0, .addListener, .store 1, .compare 1 1024, .notify 1,
      .notify 1, .unlock 1, .store 1]
    ∃ outs s, Machine.run step (start ⟨4096, [1]⟩ 2 1) ops = some (outs, s) ∧
      s.var.value = 1024 ∧ s.last 1 = some s.var.value := by
  intro ops
  have halone : Machine.Meets step Alone (start ⟨(4096 : UInt64), [1]⟩ 2 1) ops := by
    decide
  have hkeep : ∀ op ∈ ops, op.removes 1 = false := by decide
  have hany : (Machine.run step (start ⟨(4096 : UInt64), [1]⟩ 2 1) ops).any (fun r =>
      decide (r.2.Quiet ∧ some 1024 ∈ r.1 ∧ r.2.var.value = 1024)) = true := by
    decide
  obtain ⟨⟨outs, s⟩, hrun, hend⟩ := (Option.any_eq_true _ _).mp hany
  obtain ⟨hquiet, hstored, hvalue⟩ := of_decide_eq_true hend
  have hagrees := run_agrees (by decide) hkeep halone hrun hquiet
  exact ⟨outs, s, hrun, hvalue, hagrees.2 ⟨_, hstored⟩⟩

/-- One thread notifies first and stores last.  The listener is left with the value of the
other thread, and nothing tells it. -/
theorem stores_out_of_order :
    let ops : List (Op UInt64) := [.compare 0 8192, .notify 0, .unlock 0, .compare 1 1024,
      .notify 1, .unlock 1, .store 1, .store 0]
    (∀ op ∈ ops, op.removes 1 = false) ∧
      (Machine.run step (start ⟨4096, [1]⟩ 2 1) ops).any (fun r =>
        decide (r.2.Quiet ∧ some 8192 ∈ r.1 ∧ r.2.var.value = 8192 ∧
          r.2.last 1 = some 1024)) = true := by
  decide

/-! ### A call that runs alone -/

/-- The steps of a call that nobody interrupts. -/
def loneCall (s : Setters T) (c : Nat) (value : T) : List (Op T) :=
  if s.var.value == value then [.compare c value]
  else .compare c value :: (s.var.cbs.map (fun _ => .notify c) ++ [.unlock c, .store c])

/-- A listener that keeps what it is passed. -/
def mirror (key : Nat) (_ value : T) (last : Nat → Option T) : Option (Nat → Option T) :=
  some (Function.update last key (some value))

/-- The listeners are called one after the other. -/
theorem run_notify (value : T) : ∀ (rest : List Nat) (s : Setters T),
    s.calls[c]? = some (.notifying value rest) →
    ∃ outs last, rest.foldlM (fun last key => mirror key s.var.value value last) s.last =
        some last ∧
      Machine.run step s (rest.map fun _ => .notify c) =
        some (outs, { s with calls := s.calls.set c (.notifying value []), last := last }) := by
  intro rest
  induction rest with
  | nil =>
      intro s hc
      obtain ⟨hlt, hget⟩ := List.getElem?_eq_some_iff.mp hc
      refine ⟨[], s.last, rfl, ?_⟩
      have hset : s.calls.set c (.notifying value []) = s.calls := by
        rw [← hget, List.set_getElem_self]
      rw [hset]
      rfl
  | cons key rest ih =>
      intro s hc
      let t : Setters T := { s with
        calls := s.calls.set c (.notifying value rest)
        last := Function.update s.last key (some value) }
      have hstep : step s (.notify c) = some (none, t) := by
        simp only [step, hc]
        rfl
      have hlt : c < s.calls.length := (List.getElem?_eq_some_iff.mp hc).1
      have htc : t.calls[c]? = some (.notifying value rest) := by
        simp [t, hlt]
      obtain ⟨outs, last, hfold, hrun⟩ := ih t htc
      refine ⟨none :: outs, last, hfold, Machine.run_cons_some.mpr ⟨none, t, outs, hstep, ?_, rfl⟩⟩
      rw [hrun]
      simp [t]

/-- **A call that runs alone** is `setValue`: afterwards the variable and the mirrors are as
`setValue` leaves them, and the thread is out of the call. -/
theorem run_lone {value : T} (hc : s.calls[c]? = some .idle) (hreaders : s.readers = 0) :
    ∃ outs t, Machine.run step s (s.loneCall c value) = some (outs, t) ∧
      s.var.setValue mirror value s.last = some (t.var, t.last) ∧ t.calls = s.calls := by
  have hcompare : step s (.compare c value) = some (none, s.compare c value) := by
    simp only [step, hc]
  obtain ⟨hlt, hget⟩ := List.getElem?_eq_some_iff.mp hc
  unfold loneCall ConfigVar.setValue
  by_cases hsame : (s.var.value == value) = true
  · rw [if_pos hsame, if_pos hsame]
    have hs : s.compare c value = s := by
      unfold Setters.compare
      rw [if_pos hsame]
    rw [hs] at hcompare
    exact ⟨[none], s, Machine.run_cons_some.mpr ⟨none, s, [], hcompare, rfl, rfl⟩, rfl, rfl⟩
  · rw [if_neg hsame, if_neg hsame]
    let s₁ : Setters T := { s with
      readers := s.readers + 1
      calls := s.calls.set c (.notifying value s.var.cbs) }
    have hs₁ : s.compare c value = s₁ := by
      unfold Setters.compare
      rw [if_neg hsame]
    have hc₁ : s₁.calls[c]? = some (.notifying value s.var.cbs) := by simp [s₁, hlt]
    obtain ⟨outs, last, hfold, hnotify⟩ := run_notify value s.var.cbs s₁ hc₁
    let s₂ : Setters T := { s₁ with calls := s₁.calls.set c (.notifying value []), last := last }
    have hc₂ : s₂.calls[c]? = some (.notifying value []) := by simp [s₂, s₁, hlt]
    let s₃ : Setters T := { s₂ with readers := 0, calls := s₂.calls.set c (.storing value) }
    have hunlock : step s₂ (.unlock c) = some (none, s₃) := by
      simp only [step, hc₂]
      simp [s₃, s₂, s₁, hreaders]
    have hc₃ : s₃.calls[c]? = some (.storing value) := by simp [s₃, s₂, s₁, hlt]
    let t : Setters T := { s₃ with
      var := { s₃.var with value := value }
      calls := s₃.calls.set c .idle }
    have hstore : step s₃ (.store c) = some (some value, t) := by
      simp only [step, hc₃]
      rfl
    have htail : Machine.run step s₂ [.unlock c, .store c] = some ([none, some value], t) :=
      Machine.run_cons_some.mpr ⟨none, s₃, [some value], hunlock,
        Machine.run_cons_some.mpr ⟨some value, t, [], hstore, rfl, rfl⟩, rfl⟩
    have hrest := Machine.run_append_some.mpr ⟨outs, s₂, _, hnotify, htail, rfl⟩
    refine ⟨_, t, Machine.run_cons_some.mpr ⟨none, s₁, _, hs₁ ▸ hcompare, hrest, rfl⟩, ?_, ?_⟩
    · have hfold' : s.var.cbs.foldlM (fun last key => mirror key s.var.value value last) s.last =
          some last := hfold
      rw [hfold']
      rfl
    · have hcalls : t.calls = s.calls.set c .idle := by simp [t, s₃, s₂, s₁]
      rw [hcalls, ← hget, List.set_getElem_self]

end Setters

end Mingo
