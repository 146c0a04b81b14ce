import Mingo.Config.Agreement

/-!
# What is left of a failed `fromString`

`ConfigVar::fromString` of config.h converts a text and sets the variable.  An
exception of the conversion or of a listener is caught, and then the variable
keeps its value.  The caller is told `false` in either case.

* `fromString_effects` -- the conversion, the listeners and the store: all of it
  or nothing;
* `allOrNothing_iff` -- the return value is right where something failed;
* `run_ordered` -- the listeners are called in the order in which they were added.
-/

namespace Mingo

variable {T σ ε : Type}

/-- A listener: it changes the state of the program, and returns or throws. -/
abbrev Listener (T σ ε : Type) := T → T → σ → σ × Option ε

/-- What a call has done: the exception that left it, the variable, the state of the program,
and the listeners that were called, each with its arguments. -/
structure SetResult (T σ ε : Type) where
  thrown : Option ε
  var : ConfigVar T
  state : σ
  calls : List (Nat × T × T)

namespace ConfigVar

/-- The loop over `m_cbs`; an exception ends it. -/
def notify (listener : Nat → Listener T σ ε) (v : ConfigVar T) (value : T) :
    List Nat → σ → SetResult T σ ε
  | [], s => ⟨none, v, s, []⟩
  | key :: rest, s =>
      match listener key v.value value s with
      | (s, some e) => ⟨some e, v, s, [(key, v.value, value)]⟩
      | (s, none) =>
          let r := notify listener v value rest s
          { r with calls := (key, v.value, value) :: r.calls }

/-- `setValue`, with listeners that may throw. -/
def setValueOrThrow [BEq T] (listener : Nat → Listener T σ ε) (v : ConfigVar T) (value : T)
    (s : σ) : SetResult T σ ε :=
  if v.value == value then ⟨none, v, s, []⟩
  else
    let r := v.notify listener value v.cbs s
    if r.thrown.isSome then r else { r with var := { v with value := value } }

/-- `fromString`: what it returns, and what it has done. -/
def fromString [BEq T] (convert : List UInt8 → Except ε T) (listener : Nat → Listener T σ ε)
    (v : ConfigVar T) (val : List UInt8) (s : σ) : Bool × SetResult T σ ε :=
  match convert val with
  | .error e => (false, ⟨some e, v, s, []⟩)
  | .ok value => (false, v.setValueOrThrow listener value s)

/-! ### The specification -/

/-- One of the listeners throws when its turn comes. -/
def someThrows (listener : Nat → Listener T σ ε) (old new : T) : List Nat → σ → Bool
  | [], _ => false
  | key :: rest, s =>
      let r := listener key old new s
      r.2.isSome || someThrows listener old new rest r.1

/-- **The loop** stops at an exception, or calls every listener. -/
theorem notify_cases (listener : Nat → Listener T σ ε) (v : ConfigVar T) (value : T)
    (keys : List Nat) (s : σ) :
    (v.notify listener value keys s).var = v ∧
      (v.notify listener value keys s).thrown.isSome =
        someThrows listener v.value value keys s ∧
      (someThrows listener v.value value keys s = false →
        (v.notify listener value keys s).calls = keys.map fun key => (key, v.value, value)) := by
  induction keys generalizing s with
  | nil => exact ⟨rfl, rfl, fun _ => rfl⟩
  | cons key rest ih =>
      rw [notify, someThrows]
      cases hcall : listener key v.value value s with
      | mk t thrown =>
          cases thrown with
          | some e => exact ⟨rfl, rfl, nofun⟩
          | none =>
              obtain ⟨hvar, hthrown, hcalls⟩ := ih t
              refine ⟨hvar, hthrown, ?_⟩
              intro hquiet
              rw [List.map_cons, ← hcalls hquiet]

/-- Listeners that do not throw. -/
def neverThrows (ε : Type) (f : Nat → T → T → σ → σ) : Nat → Listener T σ ε :=
  fun key old new s => (f key old new s, none)

theorem notify_neverThrows (f : Nat → T → T → σ → σ) (v : ConfigVar T) (value : T)
    (keys : List Nat) (s : σ) :
    someThrows (neverThrows ε f) v.value value keys s = false ∧
      keys.foldlM (fun s key => some (f key v.value value s)) s =
        some (v.notify (neverThrows ε f) value keys s).state := by
  induction keys generalizing s with
  | nil => exact ⟨rfl, rfl⟩
  | cons key rest ih => exact ih (f key v.value value s)

/-- **`setValue`** is what it is without exceptions, when no listener throws. -/
theorem setValue_eq [BEq T] (f : Nat → T → T → σ → σ) (v : ConfigVar T) (value : T) (s : σ) :
    v.setValue (fun key old new s => some (f key old new s)) value s =
      some ((v.setValueOrThrow (neverThrows ε f) value s).var,
        (v.setValueOrThrow (neverThrows ε f) value s).state) := by
  obtain ⟨hquiet, hstate⟩ : someThrows (neverThrows ε f) v.value value v.cbs s = false ∧ _ :=
    notify_neverThrows f v value v.cbs s
  obtain ⟨-, hthrown, -⟩ := notify_cases (neverThrows ε f) v value v.cbs s
  rw [hquiet] at hthrown
  rw [setValue, setValueOrThrow]
  split
  · rfl
  · rw [hstate]
    simp [hthrown]

variable [BEq T] (convert : List UInt8 → Except ε T) (listener : Nat → Listener T σ ε)
  (v : ConfigVar T) (val : List UInt8) (s : σ)

/-- The conversion throws, or a listener does. -/
def Fails : Bool :=
  match convert val with
  | .error _ => true
  | .ok value => !(v.value == value) && someThrows listener v.value value v.cbs s

/-- What becomes of the variable, and who was called. -/
def Effects (r : SetResult T σ ε) : Prop :=
  match convert val with
  | .error _ => r.var = v ∧ r.calls = []
  | .ok value =>
      if v.Fails convert listener val s then r.var = v
      else r.var = { v with value := value } ∧
        r.calls = if v.value == value then [] else v.cbs.map fun key => (key, v.value, value)

/-- **All or nothing**, and the caller is told. -/
def AllOrNothing : Prop :=
  (v.fromString convert listener val s).1 = !v.Fails convert listener val s ∧
    v.Effects convert listener val s (v.fromString convert listener val s).2

/-! ### What happens -/

/-- **The variable and the listeners**: all or nothing, if equal values are the same. -/
theorem fromString_effects [LawfulBEq T] :
    v.Effects convert listener val s (v.fromString convert listener val s).2 := by
  rw [Effects, fromString]
  cases hconvert : convert val with
  | error e => exact ⟨rfl, rfl⟩
  | ok value =>
      obtain ⟨hvar, hthrown, hcalls⟩ := v.notify_cases listener value v.cbs s
      simp only [Fails, hconvert, setValueOrThrow]
      by_cases hsame : (v.value == value) = true
      · have heq : v.value = value := eq_of_beq hsame
        simp [heq]
        rw [← heq]
      · rw [Bool.not_eq_true] at hsame
        rw [hsame]
        cases hquiet : someThrows listener v.value value v.cbs s with
        | true =>
            rw [hquiet] at hthrown
            simp [hthrown, hvar]
        | false =>
            rw [hquiet] at hthrown
            simp [hthrown, hcalls hquiet]

/-- Where something fails, nothing is asked of equal values. -/
theorem fromString_unchanged (hfails : v.Fails convert listener val s = true) :
    v.Effects convert listener val s (v.fromString convert listener val s).2 := by
  rw [Effects, fromString]
  cases hconvert : convert val with
  | error e => exact ⟨rfl, rfl⟩
  | ok value =>
      obtain ⟨hvar, hthrown, -⟩ := v.notify_cases listener value v.cbs s
      simp only [Fails, hconvert, Bool.and_eq_true, Bool.not_eq_true'] at hfails
      rw [hfails.2] at hthrown
      simp [Fails, hconvert, setValueOrThrow, hfails, hthrown, hvar]

theorem fromString_fst : (v.fromString convert listener val s).1 = false := by
  rw [fromString]
  split <;> rfl

/-- **The return value** says that nothing was done, whatever was done. -/
theorem allOrNothing_iff :
    v.AllOrNothing convert listener val s ↔ v.Fails convert listener val s = true := by
  rw [AllOrNothing, fromString_fst]
  constructor
  · rintro ⟨hreturn, -⟩
    simpa using hreturn.symm
  · intro hfails
    exact ⟨by rw [hfails]; rfl, v.fromString_unchanged convert listener val s hfails⟩

/-- A text of one byte is a number. -/
def byteCast (val : List UInt8) : Except Unit Nat :=
  match val with
  | [b] => .ok b.toNat
  | _ => .error ()

/-- The listeners count their calls. -/
def countCalls : Nat → Listener Nat Nat Unit := fun _ _ _ s => (s + 1, none)

/-- **A change that is reported as none**: 8 becomes 9 and the listener is called, but the
caller is told `false`. -/
theorem not_allOrNothing_byte :
    (fromString byteCast countCalls ⟨8, [1]⟩ [9] 0).1 = false ∧
      (fromString byteCast countCalls ⟨8, [1]⟩ [9] 0).2.var.value = 9 ∧
      ¬ AllOrNothing byteCast countCalls ⟨8, [1]⟩ [9] 0 := by
  refine ⟨rfl, rfl, ?_⟩
  rintro ⟨hreturn, -⟩
  cases hreturn

end ConfigVar

/-! ### The order of the listeners -/

namespace Setters

/-- The keys of the map ascend, and the counter is not below them. -/
def Ordered (s : Setters T) : Prop :=
  s.var.cbs.Pairwise (· < ·) ∧ ∀ key ∈ s.var.cbs, key ≤ s.funcId

theorem step_ordered [BEq T] {s t : Setters T} {op : Op T} {out : Option T} (h : s.Ordered)
    (hstep : step s op = some (out, t)) : t.Ordered := by
  revert hstep
  fun_cases step s op with
  | case1 _ c value hc =>
      intro hstep
      cases hstep
      unfold Setters.compare
      split <;> exact h
  | case10 =>
      intro hstep
      cases hstep
      refine ⟨List.pairwise_append.mpr ⟨h.1, List.pairwise_singleton _ _, ?_⟩, ?_⟩
      · intro key hkey new hnew
        rw [List.mem_singleton.mp hnew]
        exact Nat.lt_succ_of_le (h.2 key hkey)
      · intro key hkey
        rcases List.mem_append.mp hkey with hold | hnew
        · exact Nat.le_succ_of_le (h.2 key hold)
        · exact Nat.le_of_eq (List.mem_singleton.mp hnew)
  | case12 =>
      intro hstep
      cases hstep
      exact ⟨h.1, fun key hkey => Nat.le_succ_of_le (h.2 key hkey)⟩
  | case13 _ key' =>
      intro hstep
      cases hstep
      exact ⟨h.1.sublist List.filter_sublist, fun key hkey => h.2 key (List.mem_filter.mp hkey).1⟩
  | case15 =>
      intro hstep
      cases hstep
      exact ⟨.nil, by simp⟩
  | _ =>
      intro hstep
      first
        | cases hstep
          exact h
        | cases hstep

/-- **The listeners stay in the order in which they were added.** -/
theorem run_ordered [BEq T] {s t : Setters T} {ops : List (Op T)} {outs : List (Option T)}
    (h : s.Ordered) (hrun : Machine.run step s ops = some (outs, t)) : t.Ordered :=
  Machine.run_invariant (fun _ _ _ _ => step_ordered) h hrun

end Setters

end Mingo
