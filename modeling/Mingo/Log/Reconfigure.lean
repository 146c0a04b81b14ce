import Mathlib.Data.List.Nodup
import Mingo.Log.Basic

/-!
# Do the loggers follow the configuration?

`LogDefine::operator==` does not look at the appenders of its argument.  A
definition of which only the appenders change is taken for the old one: the
listener skips it, and `setValue` skips the listener when nothing else changes.

* `configure_realizes` -- a definition that is not skipped is realized by its
  logger;
* `onChange_spec` -- what the listener does to every logger;
* `run_configured` -- the loggers follow the configuration as long as no
  definition changes its appenders alone.
-/

namespace Mingo

/-- The appender is what the definition asks for.  A formatter counts when it is given and
has no error. -/
structure LogAppender.Matches (ap : LogAppender) (a : LogAppenderDefine) : Prop where
  file : a.type = 1 → ap.kind = .file a.file
  stdout : a.type = 2 → ap.kind = .stdout
  level : ap.level = a.level
  formatter : a.formatter ≠ [] → (LogFormatter.new a.formatter).isError = false →
    ap.formatter = some (.new a.formatter)

namespace Logger

/-- The logger is what the definition asks for. -/
def Realizes (l : Logger) (d : LogDefine) : Prop :=
  l.level = d.level ∧ List.Forall₂ LogAppender.Matches l.appenders d.appenders

/-- The logger writes nothing. -/
def Disabled (l : Logger) : Prop := l.appenders = [] ∧ LogLevel.fatal.value < l.level.value

end Logger

/-- The parser makes appenders of two types. -/
def LogDefine.Parsed (d : LogDefine) : Prop := ∀ a ∈ d.appenders, a.type = 1 ∨ a.type = 2

instance (d : LogDefine) : Decidable d.Parsed :=
  inferInstanceAs (Decidable (∀ a ∈ d.appenders, a.type = 1 ∨ a.type = 2))

namespace LogDefines

/-- A definition that is equal to the old one of its name by `operator==` is equal to it. -/
def Visible (old new : LogDefines) : Prop :=
  ∀ d ∈ new.defs, ∀ e ∈ old.find d.name, (d == e) = true → d.appenders = e.appenders

instance (old new : LogDefines) : Decidable (old.Visible new) :=
  inferInstanceAs (Decidable (∀ d ∈ new.defs, ∀ e ∈ old.find d.name, (d == e) = true →
    d.appenders = e.appenders))

theorem find_some {ds : LogDefines} {name : List UInt8} {d : LogDefine}
    (h : ds.find name = some d) : d ∈ ds.defs ∧ d.name = name :=
  ⟨List.mem_of_find?_eq_some h, by simpa using List.find?_some h⟩

theorem find_none {ds : LogDefines} {name : List UInt8} :
    ds.find name = none ↔ ∀ d ∈ ds.defs, d.name ≠ name := by
  simp [find]

/-- No two elements have the same name. -/
theorem names_nodup (ds : LogDefines) : (ds.defs.map LogDefine.name).Nodup := by
  refine List.pairwise_map.mpr (ds.sorted.imp ?_)
  intro d e hlt heq
  rw [heq] at hlt
  exact List.lt_irrefl _ hlt

/-- Every element is found by its name. -/
theorem find_of_mem {ds : LogDefines} {d : LogDefine} (h : d ∈ ds.defs) :
    ds.find d.name = some d := by
  cases hfind : ds.find d.name with
  | none => exact absurd rfl (find_none.mp hfind d h)
  | some e =>
      obtain ⟨he, hname⟩ := find_some hfind
      rw [List.inj_on_of_nodup_map ds.names_nodup he h hname]

end LogDefines

/-- What `operator==` does compare. -/
theorem LogDefine.beq_iff {d e : LogDefine} :
    (d == e) = true ↔ d.name = e.name ∧ d.level = e.level ∧ d.formatter = e.formatter := by
  show (d.name == e.name && d.level == e.level && d.appenders == d.appenders &&
    d.formatter == e.formatter) = true ↔ _
  simp [and_assoc]

/-! ### One definition -/

/-- An appender is made as defined. -/
theorem LogAppenderDefine.make_matches {a : LogAppenderDefine} (h : a.type = 1 ∨ a.type = 2) :
    ∃ ap, a.make = some ap ∧ ap.Matches a := by
  obtain ⟨kind, hkind, hfile, hstdout⟩ : ∃ kind,
      (if a.type = 1 then some (LogAppender.new (.file a.file))
        else if a.type = 2 then some (LogAppender.new .stdout) else none) =
          some (LogAppender.new kind) ∧
        (a.type = 1 → kind = .file a.file) ∧ (a.type = 2 → kind = .stdout) := by
    rcases h with h | h
    · exact ⟨.file a.file, by simp [h], fun _ => rfl, by simp [h]⟩
    · exact ⟨.stdout, by simp [h], by simp [h], fun _ => rfl⟩
  unfold LogAppenderDefine.make
  dsimp only
  rw [hkind, Option.map_some]
  by_cases hempty : a.formatter = []
  · rw [if_pos hempty]
    exact ⟨_, rfl, hfile, hstdout, rfl, fun hne => absurd hempty hne⟩
  · rw [if_neg hempty]
    by_cases herror : (LogFormatter.new a.formatter).isError = true
    · rw [if_pos herror]
      refine ⟨_, rfl, hfile, hstdout, rfl, ?_⟩
      intro _ hok
      rw [herror] at hok
      cases hok
    · rw [if_neg herror]
      exact ⟨_, rfl, hfile, hstdout, rfl, fun _ _ => rfl⟩

/-- An appender without a formatter may be given any. -/
theorem LogAppender.Matches.withFormatter {ap : LogAppender} {a : LogAppenderDefine}
    (h : ap.Matches a) (hnone : ap.formatter = none) (fmt : LogFormatter) :
    LogAppender.Matches { ap with formatter := some fmt } a := by
  refine ⟨h.file, h.stdout, h.level, ?_⟩
  intro hne hok
  have hsome := h.formatter hne hok
  rw [hnone] at hsome
  cases hsome

namespace Logger

/-- `addAppender` appends what it is given, up to the formatter. -/
theorem addAppender_matches {l : Logger} {ap : LogAppender} {a : LogAppenderDefine}
    (h : ap.Matches a) :
    ∃ ap', l.addAppender ap = { l with appenders := l.appenders ++ [ap'] } ∧ ap'.Matches a := by
  unfold addAppender
  cases hformatter : ap.formatter with
  | some fmt => exact ⟨ap, rfl, h⟩
  | none => exact ⟨_, rfl, h.withFormatter hformatter l.formatter⟩

/-- The loop over the appenders of a definition. -/
theorem addAppenders : ∀ (as : List LogAppenderDefine) (l : Logger),
    (∀ a ∈ as, a.type = 1 ∨ a.type = 2) →
    ∃ aps, as.foldlM (fun (l : Logger) (a : LogAppenderDefine) => a.make.map l.addAppender) l =
        some { l with appenders := l.appenders ++ aps } ∧
      List.Forall₂ LogAppender.Matches aps as := by
  intro as
  induction as with
  | nil =>
      intro l _
      exact ⟨[], by simp, .nil⟩
  | cons a as ih =>
      intro l htypes
      obtain ⟨ap, hmake, hmatches⟩ := LogAppenderDefine.make_matches (htypes a List.mem_cons_self)
      obtain ⟨ap', hadd, hmatches'⟩ := addAppender_matches (l := l) hmatches
      obtain ⟨aps, hfold, hall⟩ := ih (l.addAppender ap)
        (fun b hb => htypes b (List.mem_cons_of_mem _ hb))
      refine ⟨ap' :: aps, ?_, .cons hmatches' hall⟩
      rw [List.foldlM_cons, hmake]
      show as.foldlM _ (l.addAppender ap) = _
      rw [hfold, hadd]
      simp

end Logger

namespace LoggerManager

variable {m m' : LoggerManager} {old new : LogDefines} {d : LogDefine} {name : List UInt8}

theorem set_loggers (m : LoggerManager) (l : Logger) (name : List UInt8) :
    (m.set l).loggers name = if name = l.name then some l else m.loggers name := rfl

/-- The logger of a name has that name. -/
theorem getLogger_name (m : LoggerManager) (name : List UInt8) :
    (m.getLogger name).name = name := by
  unfold getLogger
  cases h : m.loggers name with
  | some l => exact m.named name l h
  | none => rfl

/-- **A definition that is not skipped** is realized by its logger, and no other logger
changes. -/
theorem configure_realizes (hd : d.Parsed) :
    ∃ l, l.name = d.name ∧ l.Realizes d ∧ m.configure d = some (m.set l) := by
  obtain ⟨l₀, hname, hlevel, hempty, hl₀⟩ : ∃ l₀ : Logger, l₀.name = d.name ∧
      l₀.level = d.level ∧ l₀.appenders = [] ∧
      (if d.formatter = [] then (m.getLogger d.name).setLevel d.level
        else ((m.getLogger d.name).setLevel d.level).setFormatter d.formatter).clearAppenders =
        l₀ := by
    refine ⟨_, ?_, ?_, rfl, rfl⟩
    · unfold Logger.clearAppenders Logger.setFormatter
      dsimp only
      split
      · exact m.getLogger_name d.name
      · split <;> exact m.getLogger_name d.name
    · unfold Logger.clearAppenders Logger.setFormatter
      dsimp only
      split
      · rfl
      · split <;> rfl
  obtain ⟨aps, hfold, hall⟩ := Logger.addAppenders d.appenders l₀ hd
  refine ⟨{ l₀ with appenders := l₀.appenders ++ aps }, hname, ⟨hlevel, ?_⟩, ?_⟩
  · show List.Forall₂ LogAppender.Matches (l₀.appenders ++ aps) d.appenders
    rw [hempty]
    exact hall
  · unfold configure
    dsimp only
    rw [hl₀, hfold]
    rfl

/-- The listener takes the definition for the old one. -/
def Skipped (old : LogDefines) (d : LogDefine) : Prop :=
  ∃ e, old.find d.name = some e ∧ (d == e) = true

/-- The first loop passes over one definition. -/
theorem apply_cases (old : LogDefines) (m : LoggerManager) (hd : d.Parsed) :
    (Skipped old d ∧ apply old m d = some m) ∨
      ∃ l, l.name = d.name ∧ l.Realizes d ∧ apply old m d = some (m.set l) := by
  unfold apply
  cases hfind : old.find d.name with
  | none => exact Or.inr (configure_realizes hd)
  | some e =>
      dsimp only
      by_cases heq : (d == e) = true
      · exact Or.inl ⟨⟨e, hfind, heq⟩, by rw [heq]; rfl⟩
      · rw [(Bool.not_eq_true _).mp heq]
        exact Or.inr (configure_realizes hd)

/-- The first loop: every definition is realized or skipped, and the other loggers stay. -/
theorem foldlM_apply (old : LogDefines) : ∀ (ds : List LogDefine) (m : LoggerManager),
    (ds.map LogDefine.name).Nodup → (∀ d ∈ ds, d.Parsed) →
    ∃ m', ds.foldlM (apply old) m = some m' ∧
      (∀ d ∈ ds, (Skipped old d ∧ m'.loggers d.name = m.loggers d.name) ∨
        ∃ l, m'.loggers d.name = some l ∧ l.Realizes d) ∧
      ∀ name, name ∉ ds.map LogDefine.name → m'.loggers name = m.loggers name := by
  intro ds
  induction ds with
  | nil =>
      intro m _ _
      exact ⟨m, rfl, nofun, fun _ _ => rfl⟩
  | cons d ds ih =>
      intro m hnodup hparsed
      obtain ⟨hnew, hrest⟩ := List.nodup_cons.mp hnodup
      have hone : ∃ m₁, apply old m d = some m₁ ∧
          ((Skipped old d ∧ m₁.loggers d.name = m.loggers d.name) ∨
            ∃ l, m₁.loggers d.name = some l ∧ l.Realizes d) ∧
          ∀ name, name ≠ d.name → m₁.loggers name = m.loggers name := by
        rcases apply_cases old m (hparsed d List.mem_cons_self) with
          ⟨hskip, happly⟩ | ⟨l, hname, hl, happly⟩
        · exact ⟨m, happly, Or.inl ⟨hskip, rfl⟩, fun _ _ => rfl⟩
        · refine ⟨m.set l, happly, Or.inr ⟨l, ?_, hl⟩, ?_⟩
          · rw [set_loggers, if_pos hname.symm]
          · intro name hne
            rw [set_loggers, if_neg (hname ▸ hne)]
      obtain ⟨m₁, happly, hd, hother⟩ := hone
      obtain ⟨m', hfold, hds, hothers⟩ := ih m₁ hrest
        (fun e he => hparsed e (List.mem_cons_of_mem _ he))
      refine ⟨m', ?_, ?_, ?_⟩
      · rw [List.foldlM_cons, happly]
        exact hfold
      · intro e he
        rcases List.mem_cons.mp he with rfl | htail
        · rw [hothers _ hnew]
          exact hd
        · have hne : e.name ≠ d.name := by
            intro heq
            exact hnew (heq ▸ List.mem_map_of_mem htail)
          rw [← hother _ hne]
          exact hds e htail
      · intro name hname
        rw [List.map_cons, List.mem_cons, not_or] at hname
        rw [hothers name hname.2, hother name hname.1]

/-- A logger that is retired, and the others. -/
theorem retire_loggers (new : LogDefines) (m : LoggerManager) (d : LogDefine) :
    (new.find d.name = none →
      ∃ l, (retire new m d).loggers d.name = some l ∧ l.Disabled) ∧
      ∀ name, new.find name ≠ none ∨ name ≠ d.name →
        (retire new m d).loggers name = m.loggers name := by
  unfold retire
  cases hfind : new.find d.name with
  | some e => exact ⟨nofun, fun _ _ => rfl⟩
  | none =>
      obtain ⟨l, hl⟩ : ∃ l, ((m.getLogger d.name).setLevel .off).clearAppenders = l := ⟨_, rfl⟩
      have hname : l.name = d.name := hl ▸ m.getLogger_name d.name
      have hoff : LogLevel.fatal.value < LogLevel.off.value := by decide
      have hdisabled : l.Disabled := hl ▸ ⟨rfl, hoff⟩
      dsimp only
      rw [hl]
      constructor
      · intro _
        refine ⟨l, ?_, hdisabled⟩
        rw [set_loggers, if_pos hname.symm]
      · intro name hother
        have hne : name ≠ d.name := by
          rcases hother with hfound | hne
          · intro heq
            rw [heq] at hfound
            exact hfound hfind
          · exact hne
        rw [set_loggers, if_neg (hname ▸ hne)]

/-- The second loop: the loggers that are no longer defined are disabled, the others stay. -/
theorem foldl_retire (new : LogDefines) : ∀ (ds : List LogDefine) (m : LoggerManager),
    (∀ d ∈ ds, new.find d.name = none →
      ∃ l, (ds.foldl (retire new) m).loggers d.name = some l ∧ l.Disabled) ∧
      ∀ name, new.find name ≠ none ∨ name ∉ ds.map LogDefine.name →
        (ds.foldl (retire new) m).loggers name = m.loggers name := by
  intro ds
  induction ds with
  | nil =>
      intro m
      exact ⟨nofun, fun _ _ => rfl⟩
  | cons d ds ih =>
      intro m
      obtain ⟨hd, hother⟩ := retire_loggers new m d
      obtain ⟨hds, hothers⟩ := ih (retire new m d)
      constructor
      · intro e he hnone
        by_cases hmem : e.name ∈ ds.map LogDefine.name
        · obtain ⟨e', he', hname⟩ := List.mem_map.mp hmem
          rw [← hname] at hnone ⊢
          exact hds e' he' hnone
        · rcases List.mem_cons.mp he with rfl | htail
          · rw [List.foldl_cons, hothers _ (Or.inr hmem)]
            exact hd hnone
          · exact absurd (List.mem_map_of_mem htail) hmem
      · intro name hname
        rw [List.map_cons, List.mem_cons, not_or] at hname
        rw [List.foldl_cons, hothers name (hname.imp_right And.right),
          hother name (hname.imp_right And.left)]

/-- **What the listener does** to every logger. -/
theorem onChange_spec (old new : LogDefines) (m : LoggerManager)
    (hparsed : ∀ d ∈ new.defs, d.Parsed) :
    ∃ m', onChange old new m = some m' ∧
      (∀ d ∈ new.defs, (Skipped old d ∧ m'.loggers d.name = m.loggers d.name) ∨
        ∃ l, m'.loggers d.name = some l ∧ l.Realizes d) ∧
      (∀ d ∈ old.defs, new.find d.name = none →
        ∃ l, m'.loggers d.name = some l ∧ l.Disabled) ∧
      ∀ name, old.find name = none → new.find name = none →
        m'.loggers name = m.loggers name := by
  obtain ⟨m₁, hfold, hnew, hrest⟩ := foldlM_apply old new.defs m new.names_nodup hparsed
  obtain ⟨hretired, hstay⟩ := foldl_retire new old.defs m₁
  have hnames : ∀ {ds : LogDefines} {name}, ds.find name = none →
      name ∉ ds.defs.map LogDefine.name := by
    intro ds name hnone hmem
    obtain ⟨d, hd, hname⟩ := List.mem_map.mp hmem
    exact LogDefines.find_none.mp hnone d hd hname
  refine ⟨old.defs.foldl (retire new) m₁, ?_, ?_, hretired, ?_⟩
  · unfold onChange
    rw [hfold]
    rfl
  · intro d hd
    have hfound : new.find d.name ≠ none := by
      rw [LogDefines.find_of_mem hd]
      exact nofun
    rw [hstay d.name (Or.inl hfound)]
    exact hnew d hd
  · intro name hold hnone
    rw [hstay name (Or.inr (hnames hold)), hrest name (hnames hnone)]

end LoggerManager

/-! ### Whole histories -/

namespace LogConfig

/-- Lists whose elements are equal where `operator==` says so. -/
theorem eq_of_beq_defs : ∀ {ds es : List LogDefine}, (ds == es) = true →
    (∀ d ∈ ds, ∀ e ∈ es, (d == e) = true → d = e) → ds = es := by
  intro ds
  induction ds with
  | nil =>
      intro es hbeq _
      cases es with
      | nil => rfl
      | cons e es => cases hbeq
  | cons d ds ih =>
      intro es hbeq heq
      cases es with
      | nil => cases hbeq
      | cons e es =>
          rw [List.cons_beq_cons, Bool.and_eq_true] at hbeq
          rw [heq d List.mem_cons_self e List.mem_cons_self hbeq.1,
            ih hbeq.2 (fun d' hd' e' he' =>
              heq d' (List.mem_cons_of_mem _ hd') e' (List.mem_cons_of_mem _ he'))]

/-- A visible set that `setValue` takes for the stored one is the stored one. -/
theorem eq_of_visible {old new : LogDefines} (hvisible : old.Visible new)
    (hbeq : (old == new) = true) : old = new := by
  have hdefs : old.defs = new.defs := by
    refine eq_of_beq_defs hbeq ?_
    intro e he d hd heq
    obtain ⟨hname, hlevel, hformatter⟩ := LogDefine.beq_iff.mp heq
    have hfind : old.find d.name = some e := hname ▸ LogDefines.find_of_mem he
    have hsymm : (d == e) = true := LogDefine.beq_iff.mpr ⟨hname.symm, hlevel.symm, hformatter.symm⟩
    have happenders := hvisible d hd e hfind hsymm
    cases d
    cases e
    simp_all
  cases old
  cases new
  simp_all

/-- The invariant, after these sets. -/
structure Faithful (sets : List LogDefines) (s : LogConfig) : Prop where
  listener : s.var.cbs = [1]
  current : s.var.value = sets.getLast?.getD .empty
  realized : ∀ d ∈ s.var.value.defs, ∃ l, s.manager.loggers d.name = some l ∧ l.Realizes d
  retired : ∀ set ∈ sets, ∀ d ∈ set.defs, s.var.value.find d.name = none →
    ∃ l, s.manager.loggers d.name = some l ∧ l.Disabled

theorem start_faithful (manager : LoggerManager) : (start manager).Faithful [] :=
  ⟨rfl, rfl, nofun, nofun⟩

/-- **Step lemma.** -/
theorem step_faithful {sets : List LogDefines} {s : LogConfig} {new : LogDefines}
    (h : s.Faithful sets) (hvisible : s.var.value.Visible new)
    (hparsed : ∀ d ∈ new.defs, d.Parsed) :
    ∃ out t, step s new = some (out, t) ∧ t.Faithful (sets ++ [new]) := by
  unfold step ConfigVar.setValue
  by_cases hbeq : (s.var.value == new) = true
  · rw [if_pos hbeq]
    have hsame : s.var.value = new := eq_of_visible hvisible hbeq
    refine ⟨(), s, rfl, h.listener, by simp [hsame], h.realized, ?_⟩
    intro set hset d hd hnone
    rcases List.mem_append.mp hset with hold | hnew
    · exact h.retired set hold d hd hnone
    · rw [List.mem_singleton.mp hnew] at hd
      rw [hsame, LogDefines.find_of_mem hd] at hnone
      cases hnone
  · rw [if_neg hbeq, h.listener]
    obtain ⟨m', honChange, hnew, hold, hother⟩ :=
      LoggerManager.onChange_spec s.var.value new s.manager hparsed
    have hfold : [1].foldlM (fun m (_ : Nat) => LoggerManager.onChange s.var.value new m)
        s.manager = some m' := by
      rw [List.foldlM_cons, honChange]
      rfl
    rw [hfold]
    refine ⟨(), ⟨⟨new, [1]⟩, m'⟩, rfl, rfl, by simp, ?_, ?_⟩
    · intro d hd
      rcases hnew d hd with ⟨⟨e, hfind, heq⟩, hstay⟩ | hrealized
      · -- skipped: the old definition asked for the same
        obtain ⟨he, hname⟩ := LogDefines.find_some hfind
        obtain ⟨l, hl, hlevel, happenders⟩ := h.realized e he
        rw [hname] at hl
        refine ⟨l, hstay.trans hl, ?_, ?_⟩
        · rw [hlevel, (LogDefine.beq_iff.mp heq).2.1]
        · rw [hvisible d hd e hfind heq]
          exact happenders
      · exact hrealized
    · intro set hset d hd hnone
      rcases List.mem_append.mp hset with hbefore | hlast
      · cases hfind : s.var.value.find d.name with
        | none =>
            obtain ⟨l, hl, hdisabled⟩ := h.retired set hbefore d hd hfind
            exact ⟨l, (hother d.name hfind hnone).trans hl, hdisabled⟩
        | some e =>
            obtain ⟨he, hname⟩ := LogDefines.find_some hfind
            rw [← hname] at hnone ⊢
            exact hold e he hnone
      · rw [List.mem_singleton.mp hlast] at hd
        have hnone' : new.find d.name = none := hnone
        rw [LogDefines.find_of_mem hd] at hnone'
        cases hnone'

/-- **The loggers follow the configuration.**  In every sequence of calls in which no
definition changes its appenders alone, after each call: every definition of the newest set
is realized by the logger of its name, and every logger that was defined earlier and is no
longer is disabled. -/
theorem run_configured {manager : LoggerManager} {earlier : List LogDefines}
    {newest : LogDefines} (hparsed : ∀ set ∈ earlier ++ [newest], ∀ d ∈ set.defs, d.Parsed)
    (hvisible : Machine.Meets step (fun s set => s.var.value.Visible set) (start manager)
      (earlier ++ [newest])) :
    ∃ outs s, Machine.run step (start manager) (earlier ++ [newest]) = some (outs, s) ∧
      (∀ d ∈ newest.defs, ∃ l, s.manager.loggers d.name = some l ∧ l.name = d.name ∧
        l.Realizes d) ∧
      ∀ set ∈ earlier, ∀ d ∈ set.defs, newest.find d.name = none →
        ∃ l, s.manager.loggers d.name = some l ∧ l.Disabled := by
  have hok := hvisible.and (Machine.meets_of_mem hparsed (start manager))
  have hstep : ∀ sets (s : LogConfig) (new : LogDefines), s.Faithful sets →
      (s.var.value.Visible new ∧ ∀ d ∈ new.defs, d.Parsed) →
      ∃ out t, step s new = some (out, t) ∧ t.Faithful (sets ++ [new]) :=
    fun _ _ _ h hnew => step_faithful h hnew.1 hnew.2
  obtain ⟨outs, s, hrun, h⟩ := Machine.run_inputs_of_meets hstep (start_faithful manager) hok
  have hvalue : s.var.value = newest := by
    rw [h.current]
    simp
  refine ⟨outs, s, hrun, ?_, ?_⟩
  · intro d hd
    obtain ⟨l, hl, hrealizes⟩ := h.realized d (hvalue ▸ hd)
    exact ⟨l, hl, s.manager.named d.name l hl, hrealizes⟩
  · intro set hset d hd hnone
    exact h.retired set (by simp [hset]) d hd (hvalue ▸ hnone)

/-- Loggers before any is created. -/
def noLoggers : LoggerManager := ⟨fun _ => none, nofun⟩

/-- The set of one definition. -/
def single (d : LogDefine) : LogDefines := ⟨[d], List.pairwise_singleton _ _⟩

/-- A logger that writes to the console, then to a file at another level, and gives way to
another one. -/
theorem run_configured_file :
    let root : LogDefine := ⟨ascii "root", .info, [], [⟨2, [], [], .debug⟩]⟩
    let toFile : LogDefine := ⟨ascii "root", .warn, [], [⟨1, ascii "%m%n", ascii "r.txt", .error⟩]⟩
    let system : LogDefine := ⟨ascii "system", .debug, [], [⟨2, [], [], .debug⟩]⟩
    let sets := [single root, single toFile] ++ [single system]
    ∃ outs s, Machine.run step (start noLoggers) sets = some (outs, s) ∧
      (∃ l, s.manager.loggers (ascii "system") = some l ∧ l.Realizes system) ∧
      ∃ l, s.manager.loggers (ascii "root") = some l ∧ l.Disabled := by
  intro root toFile system sets
  have hparsed : ∀ set ∈ sets, ∀ d ∈ set.defs, d.Parsed := by decide
  have hvisible : Machine.Meets step (fun s set => s.var.value.Visible set) (start noLoggers)
      sets := by
    decide
  obtain ⟨outs, s, hrun, hnewest, hearlier⟩ := run_configured hparsed hvisible
  obtain ⟨l, hl, _, hrealizes⟩ := hnewest system List.mem_cons_self
  have hfree : (single system).find root.name = none := by decide
  have hgone := hearlier (single root) List.mem_cons_self root List.mem_cons_self hfree
  exact ⟨outs, s, hrun, ⟨l, hl, hrealizes⟩, hgone⟩

/-- Only the appenders change: the logger goes on writing to the console, and the variable
still holds the old set. -/
theorem appenders_ignored :
    let root : LogDefine := ⟨ascii "root", .info, [], [⟨2, [], [], .debug⟩]⟩
    let toFile : LogDefine := ⟨ascii "root", .info, [], [⟨1, [], ascii "r.txt", .debug⟩]⟩
    (∀ set ∈ [single root, single toFile], ∀ d ∈ set.defs, d.Parsed) ∧
      ∃ outs s, Machine.run step (start noLoggers) [single root, single toFile] =
          some (outs, s) ∧
        ¬ ∃ l, s.manager.loggers toFile.name = some l ∧ l.Realizes toFile := by
  intro root toFile
  have hany : (Machine.run step (start noLoggers) [single root, single toFile]).any (fun r =>
      decide ((r.2.manager.loggers toFile.name).map (fun l => l.appenders.map LogAppender.kind) =
        some [.stdout])) = true := by
    decide
  obtain ⟨⟨outs, s⟩, hrun, hend⟩ := (Option.any_eq_true _ _).mp hany
  have hkinds := of_decide_eq_true hend
  refine ⟨by decide, outs, s, hrun, ?_⟩
  intro hrealized
  obtain ⟨l, hl, _, hall⟩ := hrealized
  rw [hl, Option.map_some, Option.some.injEq] at hkinds
  obtain ⟨ap, aps, hfirst, _, happenders⟩ := List.forall₂_cons_right_iff.mp hall
  rw [happenders, List.map_cons, hfirst.file rfl] at hkinds
  cases hkinds

end LogConfig

end Mingo
