import Mathlib.Logic.Function.Basic
import Mingo.Address.Lookup
import Mingo.Http.DumpFraming
import Mingo.Lib.Registry

/-!
# The servlets of servlet.cpp

A `ServletDispatch` has servlets for exact paths, servlets for patterns and a default.  The
functions hold the lock, but for `setDefault` and `getDefault`, which take none; the model runs one
call after the other.

* `run_datas`, `run_globs`, `run_default` -- the members after any calls;
* `getMatchedServlet_run` -- the servlet that serves a path, from the registrations that stand;
* `getMatchedServlet_iff` -- the same in terms of the calls and their order.

`fnmatch` is a parameter, and so are the servlets: the functions of the dispatcher hand their
pointers on.
-/

namespace Mingo.Http

/-- `ServletDispatch`, with what `find` makes of the map `m_datas`; `P` is `Servlet::ptr`. -/
structure ServletDispatch (P : Type) where
  datas : List UInt8 → Option P
  globs : List (List UInt8 × P)
  default_ : P

namespace ServletDispatch

variable {P : Type}

/-- The constructor, with the `NotFoundServlet` it makes. -/
def new (notFound : P) : ServletDispatch P := ⟨fun _ => none, [], notFound⟩

/-- `addServlet` -/
def addServlet (d : ServletDispatch P) (uri : List UInt8) (slt : P) : ServletDispatch P :=
  { d with datas := Function.update d.datas uri (some slt) }

/-- `delServlet` -/
def delServlet (d : ServletDispatch P) (uri : List UInt8) : ServletDispatch P :=
  { d with datas := Function.update d.datas uri none }

/-- The loop that erases the first entry of `uri` from `m_globs`. -/
def eraseGlob (d : ServletDispatch P) (uri : List UInt8) : List (List UInt8 × P) :=
  d.globs.eraseP fun it => it.1 = uri

/-- `addGlobServlet` removes the pattern first, and appends it. -/
def addGlobServlet (d : ServletDispatch P) (uri : List UInt8) (slt : P) : ServletDispatch P :=
  { d with globs := d.eraseGlob uri ++ [(uri, slt)] }

/-- `delGlobServlet` removes the first entry of the pattern. -/
def delGlobServlet (d : ServletDispatch P) (uri : List UInt8) : ServletDispatch P :=
  { d with globs := d.eraseGlob uri }

/-- `setDefault` -/
def setDefault (d : ServletDispatch P) (v : P) : ServletDispatch P := { d with default_ := v }

/-- `getServlet`; `none` is `nullptr`. -/
def getServlet (d : ServletDispatch P) (uri : List UInt8) : Option P := d.datas uri

/-- `getGlobServlet`; `none` is `nullptr`. -/
def getGlobServlet (d : ServletDispatch P) (uri : List UInt8) : Option P :=
  (d.globs.find? fun it => it.1 = uri).map Prod.snd

/-- `getMatchedServlet`; `fnmatch` says whether the function returns 0. -/
def getMatchedServlet (fnmatch : List UInt8 → List UInt8 → Bool) (d : ServletDispatch P)
    (uri : List UInt8) : P :=
  match d.datas uri with
  | some slt => slt
  | none =>
      match d.globs.find? fun it => fnmatch (Address.cString it.1) (Address.cString uri) with
      | some it => it.2
      | none => d.default_

/-! ### Histories -/

/-- A call that changes the dispatcher. -/
inductive Call (P : Type)
  | addServlet (uri : List UInt8) (slt : P)
  | delServlet (uri : List UInt8)
  | addGlobServlet (uri : List UInt8) (slt : P)
  | delGlobServlet (uri : List UInt8)
  | setDefault (v : P)

/-- One call. -/
def step (d : ServletDispatch P) : Call P → ServletDispatch P
  | .addServlet uri slt => d.addServlet uri slt
  | .delServlet uri => d.delServlet uri
  | .addGlobServlet uri slt => d.addGlobServlet uri slt
  | .delGlobServlet uri => d.delGlobServlet uri
  | .setDefault v => d.setDefault v

/-- The calls, in the order of their critical sections. -/
def run (d : ServletDispatch P) (calls : List (Call P)) : ServletDispatch P := calls.foldl step d

/-- What a call does to the exact paths. -/
def Call.exactChange : Call P → Option (Registry.Change (List UInt8) P)
  | .addServlet uri slt => some (.add uri slt)
  | .delServlet uri => some (.remove uri)
  | _ => none

/-- What a call does to the patterns. -/
def Call.globChange : Call P → Option (Registry.Change (List UInt8) P)
  | .addGlobServlet uri slt => some (.add uri slt)
  | .delGlobServlet uri => some (.remove uri)
  | _ => none

/-- What a call does to the default servlet. -/
def Call.defaultChange : Call P → Option P
  | .setDefault v => some v
  | _ => none

/-- The registrations of exact paths that stand after the calls. -/
def exact (calls : List (Call P)) : List (List UInt8 × P) :=
  Registry.standing (calls.filterMap Call.exactChange)

/-- The registrations of patterns that stand after the calls, in their order. -/
def globbed (calls : List (Call P)) : List (List UInt8 × P) :=
  Registry.standing (calls.filterMap Call.globChange)

variable {d : ServletDispatch P} {calls : List (Call P)} {uri : List UInt8} {slt : P}

/-- The patterns stay distinct. -/
theorem step_globs (h : (d.globs.map Prod.fst).Nodup) (c : Call P) :
    (d.step c).globs = (c.globChange.elim d.globs fun g => Registry.apply d.globs g) := by
  cases c with
  | addGlobServlet uri slt =>
      rw [step, addGlobServlet, eraseGlob, Registry.eraseP_eq_without h]
      rfl
  | delGlobServlet uri =>
      rw [step, delGlobServlet, eraseGlob, Registry.eraseP_eq_without h]
      rfl
  | addServlet uri slt => rfl
  | delServlet uri => rfl
  | setDefault v => rfl

/-- The patterns behind the calls. -/
theorem run_globs (calls : List (Call P)) (h : (d.globs.map Prod.fst).Nodup) :
    (d.run calls).globs = (calls.filterMap Call.globChange).foldl Registry.apply d.globs := by
  induction calls generalizing d with
  | nil => rfl
  | cons c calls ih =>
      have hstep := step_globs h c
      rw [run, List.foldl_cons]
      cases hc : c.globChange with
      | none =>
          rw [hc] at hstep
          have hglobs : (d.step c).globs = d.globs := hstep
          rw [List.filterMap_cons_none hc, ← hglobs]
          exact ih (by rwa [hglobs])
      | some g =>
          rw [hc] at hstep
          have hglobs : (d.step c).globs = Registry.apply d.globs g := hstep
          rw [List.filterMap_cons_some hc, List.foldl_cons, ← hglobs]
          exact ih (by rw [hglobs]; exact Registry.nodup_apply h g)

/-- The exact paths behind one call. -/
theorem step_datas (d : ServletDispatch P) (c : Call P) :
    (d.step c).datas = c.exactChange.elim d.datas fun g => Registry.assign d.datas g := by
  cases c <;> rfl

/-- The exact paths behind the calls. -/
theorem run_datas (calls : List (Call P)) (d : ServletDispatch P) :
    (d.run calls).datas = (calls.filterMap Call.exactChange).foldl Registry.assign d.datas := by
  induction calls generalizing d with
  | nil => rfl
  | cons c calls ih =>
      have hstep := step_datas d c
      rw [run, List.foldl_cons, ← run, ih]
      cases hc : c.exactChange with
      | none =>
          rw [hc, Option.elim_none] at hstep
          rw [List.filterMap_cons_none hc, hstep]
      | some g =>
          rw [hc, Option.elim_some] at hstep
          rw [List.filterMap_cons_some hc, List.foldl_cons, hstep]

/-- The default behind the calls is the one set last. -/
theorem run_default (calls : List (Call P)) (d : ServletDispatch P) :
    (d.run calls).default_ = (calls.filterMap Call.defaultChange).getLast?.getD d.default_ := by
  induction calls generalizing d with
  | nil => rfl
  | cons c calls ih =>
      rw [run, List.foldl_cons, ← run, ih]
      cases c with
      | setDefault v =>
          have hcons : (Call.setDefault v :: calls).filterMap Call.defaultChange =
              v :: calls.filterMap Call.defaultChange := rfl
          rw [hcons, List.getLast?_cons, Option.getD_some]
          rfl
      | _ => rfl

/-- **The servlet that serves a path** after any calls: the one registered for the path, the
first one registered for a pattern that fits, or the default. -/
theorem getMatchedServlet_run (fnmatch : List UInt8 → List UInt8 → Bool) (notFound : P)
    (calls : List (Call P)) (uri : List UInt8) :
    ((new notFound).run calls).getMatchedServlet fnmatch uri =
      match Registry.find uri (exact calls) with
      | some slt => slt
      | none =>
          match (globbed calls).find? fun it =>
            fnmatch (Address.cString it.1) (Address.cString uri) with
          | some it => it.2
          | none => (calls.filterMap Call.defaultChange).getLast?.getD notFound := by
  have hglobs : ((new notFound).run calls).globs = globbed calls := by
    have hnodup : ((new notFound).globs.map Prod.fst).Nodup := List.nodup_nil
    rw [run_globs calls hnodup, Registry.foldl_apply]
    rfl
  have hdatas : ((new notFound).run calls).datas uri = Registry.find uri (exact calls) := by
    rw [run_datas, Registry.foldl_assign, exact]
    split
    · rfl
    · next hnot =>
        rw [Registry.find_standing_of_not_names (by simpa using hnot)]
        rfl
  rw [getMatchedServlet, hdatas, hglobs, run_default]
  rfl

/-! ### In terms of the calls -/

/-- The path that a call to `addServlet` or `delServlet` names. -/
def Call.exactUri? : Call P → Option (List UInt8)
  | .addServlet uri _ => some uri
  | .delServlet uri => some uri
  | _ => none

/-- The pattern that a call to `addGlobServlet` or `delGlobServlet` names. -/
def Call.globUri? : Call P → Option (List UInt8)
  | .addGlobServlet uri _ => some uri
  | .delGlobServlet uri => some uri
  | _ => none

/-- The servlet was registered for the path, and no later call names the path. -/
def Registered (calls : List (Call P)) (uri : List UInt8) (slt : P) : Prop :=
  ∃ before after, calls = before ++ .addServlet uri slt :: after ∧
    ∀ c ∈ after, c.exactUri? ≠ some uri

/-- The servlet was registered for the pattern behind the calls `before`, and no later call
names the pattern. -/
def GlobbedBehind (before calls : List (Call P)) (pattern : List UInt8) (slt : P) : Prop :=
  ∃ after, calls = before ++ .addGlobServlet pattern slt :: after ∧
    ∀ c ∈ after, c.globUri? ≠ some pattern

/-- The servlet that the calls have provided for a path on which the patterns `fits` fit. -/
inductive Serves (notFound : P) (calls : List (Call P)) (uri : List UInt8)
    (fits : List UInt8 → Prop) : P → Prop
  | exact {slt : P} : Registered calls uri slt → Serves notFound calls uri fits slt
  | glob {before : List (Call P)} {pattern : List UInt8} {slt : P} :
      (∀ slt', ¬ Registered calls uri slt') → GlobbedBehind before calls pattern slt →
      fits pattern →
      (∀ before' pattern' slt', before'.length < before.length →
        GlobbedBehind before' calls pattern' slt' → ¬ fits pattern') →
      Serves notFound calls uri fits slt
  | default : (∀ slt', ¬ Registered calls uri slt') →
      (∀ before pattern slt', GlobbedBehind before calls pattern slt' → ¬ fits pattern) →
      Serves notFound calls uri fits ((calls.filterMap Call.defaultChange).getLast?.getD notFound)

/-- A change of an exact path is one of the path the call names. -/
theorem exactChange_key (c : Call P) : (c.exactChange.map Registry.Change.key) = c.exactUri? := by
  cases c <;> rfl

/-- A change of a pattern is one of the pattern the call names. -/
theorem globChange_key (c : Call P) : (c.globChange.map Registry.Change.key) = c.globUri? := by
  cases c <;> rfl

/-- A change names the key exactly if its call does. -/
theorem key_ne_iff {change : Option (Registry.Change (List UInt8) P)}
    {name : Option (List UInt8)} (h : change.map Registry.Change.key = name) (uri : List UInt8) :
    (∀ g, change = some g → g.key ≠ uri) ↔ name ≠ some uri := by
  rw [← h]
  cases change <;> simp

/-- The entries of the exact paths are the registrations that stand. -/
theorem mem_exact : (uri, slt) ∈ exact calls ↔ Registered calls uri slt := by
  rw [exact, Registry.mem_standing_filterMap]
  constructor
  · intro ⟨before, c, after, heq, hc, hafter⟩
    cases c with
    | addServlet uri' slt' =>
        cases hc
        exact ⟨before, after, heq, fun c hmem =>
          (key_ne_iff (exactChange_key c) uri).mp (hafter c hmem)⟩
    | _ => cases hc
  · intro ⟨before, after, heq, hafter⟩
    exact ⟨before, _, after, heq, rfl, fun c hmem =>
      (key_ne_iff (exactChange_key c) uri).mpr (hafter c hmem)⟩

/-- Looking a path up finds the registration that stands. -/
theorem find_exact_iff : Registry.find uri (exact calls) = some slt ↔ Registered calls uri slt := by
  rw [← mem_exact, exact]
  exact Registry.find_eq_some (Registry.nodup_standing _)

/-- No call names the pattern. -/
theorem names_glob (calls : List (Call P)) {uri : List UInt8} :
    Registry.names uri (calls.filterMap Call.globChange) = false ↔
      ∀ c ∈ calls, c.globUri? ≠ some uri := by
  rw [Registry.names_eq_false]
  constructor
  · intro h c hc
    rw [← key_ne_iff (globChange_key c) uri]
    exact fun g hg => h g (List.mem_filterMap.mpr ⟨c, hc, hg⟩)
  · intro h g hg
    obtain ⟨c, hc, hglob⟩ := List.mem_filterMap.mp hg
    exact (key_ne_iff (globChange_key c) uri).mpr (h c hc) g hglob

/-- The patterns in front of a registration that stands, and behind it. -/
theorem globbed_split {before after : List (Call P)} {pattern : List UInt8}
    (hafter : ∀ c ∈ after, c.globUri? ≠ some pattern) :
    globbed (before ++ .addGlobServlet pattern slt :: after) =
      (globbed before).filter (fun e => !Registry.names e.1
          (.add pattern slt :: after.filterMap Call.globChange)) ++
        (pattern, slt) :: globbed after := by
  have hchanges : (before ++ .addGlobServlet pattern slt :: after).filterMap Call.globChange =
      before.filterMap Call.globChange ++ .add pattern slt :: after.filterMap Call.globChange := by
    rw [List.filterMap_append]
    rfl
  rw [globbed, hchanges, Registry.standing_append, Registry.standing, (names_glob _).mpr hafter]
  rfl

/-- The entries of the patterns are the registrations that stand. -/
theorem mem_globbed :
    (uri, slt) ∈ globbed calls ↔ ∃ before, GlobbedBehind before calls uri slt := by
  rw [globbed, Registry.mem_standing_filterMap]
  constructor
  · intro ⟨before, c, after, heq, hc, hafter⟩
    cases c with
    | addGlobServlet uri' slt' =>
        cases hc
        exact ⟨before, after, heq, fun c hmem =>
          (key_ne_iff (globChange_key c) uri).mp (hafter c hmem)⟩
    | _ => cases hc
  · intro ⟨before, after, heq, hafter⟩
    exact ⟨before, _, after, heq, rfl, fun c hmem =>
      (key_ne_iff (globChange_key c) uri).mpr (hafter c hmem)⟩

/-- The patterns in front of a registration are those that were registered before it. -/
theorem mem_globbed_front {before after : List (Call P)} {pattern pattern' : List UInt8}
    {slt' : P} :
    (pattern', slt') ∈ (globbed before).filter (fun e => !Registry.names e.1
        (.add pattern slt :: after.filterMap Call.globChange)) ↔
      ∃ before', before'.length < before.length ∧
        GlobbedBehind before' (before ++ .addGlobServlet pattern slt :: after) pattern' slt' := by
  have hnames : (!Registry.names pattern'
      (.add pattern slt :: after.filterMap Call.globChange)) = true ↔
      ∀ c ∈ Call.addGlobServlet pattern slt :: after, c.globUri? ≠ some pattern' := by
    rw [Bool.not_eq_true']
    exact names_glob (.addGlobServlet pattern slt :: after)
  rw [List.mem_filter, hnames, mem_globbed]
  constructor
  · intro ⟨⟨before', mid, heq, hmid⟩, hafter⟩
    refine ⟨before', by simp [heq], mid ++ .addGlobServlet pattern slt :: after, by simp [heq], ?_⟩
    intro c hc
    rcases List.mem_append.mp hc with hc | hc
    · exact hmid c hc
    · exact hafter c hc
  · intro ⟨before', hshort, after', heq, hafter'⟩
    rcases List.append_eq_append_iff.mp heq with ⟨more, rfl, -⟩ | ⟨more, rfl, hmore⟩
    · rw [List.length_append] at hshort
      omega
    · cases more with
      | nil => simp at hshort
      | cons c mid =>
          obtain ⟨rfl, rfl⟩ := List.cons.inj hmore
          exact ⟨⟨before', mid, rfl, fun c hc => hafter' c (List.mem_append_left _ hc)⟩,
            fun c hc => hafter' c (List.mem_append_right _ hc)⟩

variable {notFound : P} {fits : List UInt8 → Prop}

/-- At most one registration of a path stands. -/
theorem registered_unique {slt' : P} (h : Registered calls uri slt)
    (h' : Registered calls uri slt') : slt = slt' :=
  Option.some.inj ((find_exact_iff.mpr h).symm.trans (find_exact_iff.mpr h'))

/-- The calls provide one servlet only. -/
theorem Serves.unique {slt' : P} (h : Serves notFound calls uri fits slt)
    (h' : Serves notFound calls uri fits slt') : slt = slt' := by
  cases h with
  | exact hexact =>
      cases h' with
      | exact hexact' => exact registered_unique hexact hexact'
      | glob hnot => exact absurd hexact (hnot _)
      | default hnot => exact absurd hexact (hnot _)
  | glob hnot hglob hfits hfirst =>
      cases h' with
      | exact hexact' => exact absurd hexact' (hnot _)
      | default _ hnone => exact absurd hfits (hnone _ _ _ hglob)
      | glob _ hglob' hfits' hfirst' =>
          have hlen := Nat.le_antisymm
            (Nat.le_of_not_lt fun hlt => hfirst _ _ _ hlt hglob' hfits')
            (Nat.le_of_not_lt fun hlt => hfirst' _ _ _ hlt hglob hfits)
          obtain ⟨after, heq, -⟩ := hglob
          obtain ⟨after', heq', -⟩ := hglob'
          obtain ⟨-, hcalls⟩ := List.append_inj (heq.symm.trans heq') hlen
          cases hcalls
          rfl
  | default hnot hnone =>
      cases h' with
      | exact hexact' => exact absurd hexact' (hnot _)
      | glob _ hglob hfits => exact absurd hfits (hnone _ _ _ hglob)
      | default => rfl

/-- **Which servlet serves a path**, after any calls in any order. -/
theorem getMatchedServlet_iff (fnmatch : List UInt8 → List UInt8 → Bool) (notFound : P)
    (calls : List (Call P)) (uri : List UInt8) (slt : P) :
    ((new notFound).run calls).getMatchedServlet fnmatch uri = slt ↔
      Serves notFound calls uri
        (fun pattern => fnmatch (Address.cString pattern) (Address.cString uri) = true) slt := by
  have hserves : Serves notFound calls uri
      (fun pattern => fnmatch (Address.cString pattern) (Address.cString uri) = true)
      (((new notFound).run calls).getMatchedServlet fnmatch uri) := by
    rw [getMatchedServlet_run]
    cases hexact : Registry.find uri (exact calls) with
    | some slt₀ => exact .exact (find_exact_iff.mp hexact)
    | none =>
        have hnot (slt' : P) : ¬ Registered calls uri slt' := by
          rw [← find_exact_iff, hexact]
          exact nofun
        cases hfind : (globbed calls).find? fun it =>
            fnmatch (Address.cString it.1) (Address.cString uri) with
        | none =>
            refine .default hnot fun before pattern slt' hglob => ?_
            exact List.find?_eq_none.mp hfind _ (mem_globbed.mpr ⟨before, hglob⟩)
        | some it =>
            obtain ⟨before, hglob⟩ := mem_globbed.mp (List.mem_of_find?_eq_some hfind)
            have hfits := List.find?_some hfind
            refine .glob hnot hglob hfits fun before' pattern' slt' hshort hglob' hfits' => ?_
            obtain ⟨after, rfl, hafter⟩ := hglob
            have hfront := mem_globbed_front.mpr ⟨before', hshort, hglob'⟩
            -- the earlier pattern stands in front of the one that was found
            rw [globbed_split hafter, List.find?_append] at hfind
            obtain ⟨first, hfirst⟩ : ∃ first, ((globbed before).filter fun e =>
                !Registry.names e.1
                  (.add it.1 it.2 :: after.filterMap Call.globChange)).find? (fun it =>
                fnmatch (Address.cString it.1) (Address.cString uri)) = some first := by
              rw [← Option.isSome_iff_exists, List.find?_isSome]
              exact ⟨_, hfront, hfits'⟩
            rw [hfirst, Option.some_or] at hfind
            cases hfind
            have hother := (List.mem_filter.mp (List.mem_of_find?_eq_some hfirst)).2
            simp [Registry.Change.key] at hother
  exact ⟨fun h => h ▸ hserves, fun h => hserves.unique h⟩

end ServletDispatch

end Mingo.Http
