import Mingo.Log.Pattern
import Mingo.Log.Reconfigure

/-!
# What is written for an event

`Logger::log` hands an event to its appenders one after the other, with `m_mutex` locked.  An
appender whose formatter has an error complains in the content of the event, which is shared with
the appenders behind it, and hands the event to the global logger.  A spinlock is not recursive:
a call that comes back to a logger whose mutex is locked does not return.

* `log_reports` -- when a call returns, and what it has written then;
* `Sound.call` -- the loggers that the configuration and the setters make have no such appender;
* `run_delivers` -- so in every run an event is written once by every appender that it passes.
-/

namespace Mingo

/-- What is handed to the console, or to a file. -/
abbrev Write := AppenderKind × List UInt8

/-! ### The calls -/

/-- The name of the class. -/
def AppenderKind.className : AppenderKind → List UInt8
  | .file _ => ascii "FileLogAppender"
  | .stdout => ascii "StdoutLogAppender"

/-- What an appender appends to the content of an event that it cannot write. -/
def LogAppender.complaint (l : Logger) (a : LogAppender) : List UInt8 :=
  ascii " logger: " ++ l.name ++ ascii " " ++ a.kind.className ++ ascii " formatter error. "

/-- `StdoutLogAppender::log` and `FileLogAppender::log`, with what `GET_GLOBAL_LOGGER()->log`
does.  A formatter that is null is followed. -/
def LogAppender.log (strftime : UInt32 → List UInt8)
    (global : LogEvent → Option (List Write × LogEvent)) (l : Logger) (event : LogEvent)
    (a : LogAppender) : Option (List Write × LogEvent) :=
  if event.level.value < a.level.value then some ([], event)
  else
    match a.formatter with
    | none => none
    | some f =>
        if f.isError then global { event with content := event.content ++ a.complaint l }
        else some ([(a.kind, f.format strftime l event)], event)

namespace LoggerManager

/-- `getGlobal`. -/
def getGlobal (m : LoggerManager) : Logger := m.getLogger (ascii "global")

/-- `Logger::log`, with the mutexes of the loggers `held` locked.  One call in another is for the
global logger, and the third one finds it locked. -/
def logHeld (strftime : UInt32 → List UInt8) (m : LoggerManager) :
    Nat → List (List UInt8) → Logger → LogEvent → Option (List Write × LogEvent)
  | 0, _, _, _ => none
  | depth + 1, held, l, event =>
      if event.level.value < l.level.value then some ([], event)
      else if l.name ∈ held then none
      else
        let global := m.logHeld strftime depth (l.name :: held) m.getGlobal
        (Machine.run (LogAppender.log strftime global l) event l.appenders).map fun r =>
          (r.1.flatten, r.2)

/-- `log` of the logger of a name. -/
def log (strftime : UInt32 → List UInt8) (m : LoggerManager) (name : List UInt8)
    (event : LogEvent) : Option (List Write × LogEvent) :=
  m.logHeld strftime 3 [] (m.getLogger name) event

end LoggerManager

/-! ### What is to be written -/

/-- The appender looks at events of the level. -/
def LogAppender.takes (level : LogLevel) (a : LogAppender) : Bool :=
  !decide (level.value < a.level.value)

/-- The formatter of the appender has an error. -/
def LogAppender.isBroken (a : LogAppender) : Bool := a.formatter.any (·.isError)

/-- What the appender writes of the event. -/
def LogAppender.text (strftime : UInt32 → List UInt8) (l : Logger) (event : LogEvent)
    (a : LogAppender) : List UInt8 :=
  (a.formatter.map fun f => f.format strftime l event).getD []

/-- The event, after these appenders have complained. -/
def LogEvent.complained (l : Logger) (as : List LogAppender) (event : LogEvent) : LogEvent :=
  { event with
    content := event.content ++ (as.filter (·.isBroken)).flatMap (LogAppender.complaint l) }

namespace Logger

/-- The appenders that an event of the level passes. -/
def passing (l : Logger) (level : LogLevel) : List LogAppender :=
  if level.value < l.level.value then []
  else l.appenders.filter (LogAppender.takes level)

/-- The event, once by every appender that it passes. -/
def texts (strftime : UInt32 → List UInt8) (l : Logger) (event : LogEvent) : List Write :=
  (l.passing event.level).map fun a => (a.kind, a.text strftime l event)

/-- The same with the complaints: for an appender that is broken the global logger writes, and
those behind it write its complaint, too. -/
def report (strftime : UInt32 → List UInt8) (global l : Logger) (as : List LogAppender)
    (event : LogEvent) : List Write :=
  as.zipIdx.flatMap fun (a, i) =>
    if a.isBroken then global.texts strftime (event.complained l (as.take (i + 1)))
    else [(a.kind, a.text strftime l (event.complained l (as.take i)))]

/-- No appender that an event of the level passes is broken. -/
def Clean (l : Logger) (level : LogLevel) : Prop := ∀ a ∈ l.passing level, a.isBroken = false

instance (l : Logger) (level : LogLevel) : Decidable (l.Clean level) :=
  inferInstanceAs (Decidable (∀ a ∈ l.passing level, a.isBroken = false))

/-- Every appender has a formatter. -/
def Formatted (l : Logger) : Prop := ∀ a ∈ l.appenders, a.formatter.isSome

instance (l : Logger) : Decidable l.Formatted :=
  inferInstanceAs (Decidable (∀ a ∈ l.appenders, a.formatter.isSome))

end Logger

section Loop

variable {strftime : UInt32 → List UInt8} {l : Logger} {a : LogAppender} {as : List LogAppender}
  {event : LogEvent}

@[simp] theorem LogEvent.complained_nil : event.complained l [] = event := by
  simp [complained]

@[simp] theorem LogEvent.complained_level : (event.complained l as).level = event.level := rfl

/-- The first complaint comes first. -/
theorem LogEvent.complained_cons :
    event.complained l (a :: as) = (event.complained l [a]).complained l as := by
  cases ha : a.isBroken with
  | true => simp [complained, ha]
  | false => simp [complained, ha]

theorem LogEvent.complained_of_clean (h : ∀ a ∈ as, a.isBroken = false) :
    event.complained l as = event := by
  have hnone : as.filter (·.isBroken) = [] := by
    rw [List.filter_eq_nil_iff]
    intro a ha hbroken
    rw [h a ha] at hbroken
    cases hbroken
  simp [complained, hnone]

theorem Logger.report_cons {global : Logger} :
    report strftime global l (a :: as) event =
      (if a.isBroken then global.texts strftime (event.complained l [a])
        else [(a.kind, a.text strftime l event)]) ++
      report strftime global l as (event.complained l [a]) := by
  have hsplit (bs : List LogAppender) :
      event.complained l (a :: bs) = (event.complained l [a]).complained l bs :=
    LogEvent.complained_cons
  rw [report, report, List.zipIdx_cons, List.flatMap_cons, List.zipIdx_eq_map_add,
    List.flatMap_map]
  congr 1
  · simp
  · refine List.flatMap_congr fun p _ => ?_
    obtain ⟨b, i⟩ := p
    simp only [Nat.zero_add, Nat.add_comm 1 i, List.take_succ_cons]
    rw [hsplit (as.take (i + 1)), hsplit (as.take i)]

/-- Without complaints every appender writes the event as it is. -/
theorem Logger.report_of_clean {global : Logger} (h : ∀ a ∈ as, a.isBroken = false) :
    report strftime global l as event = as.map fun a => (a.kind, a.text strftime l event) := by
  induction as with
  | nil => rfl
  | cons a as ih =>
      obtain ⟨ha, hothers⟩ := List.forall_mem_cons.mp h
      have hsame : event.complained l [a] = event :=
        LogEvent.complained_of_clean (by simpa using ha)
      rw [report_cons, hsame, ih hothers, ha]
      rfl

theorem LogAppender.log_of_deaf {global : LogEvent → Option (List Write × LogEvent)}
    (htakes : a.takes event.level = false) : a.log strftime global l event = some ([], event) := by
  have hlevel : event.level.value < a.level.value := by simpa [takes] using htakes
  simp [log, hlevel]

/-- The appender of a formatter that has no error writes the event. -/
theorem LogAppender.log_of_clean {global : LogEvent → Option (List Write × LogEvent)}
    (htakes : a.takes event.level = true) (hformatter : a.formatter.isSome)
    (hclean : a.isBroken = false) :
    a.log strftime global l event = some ([(a.kind, a.text strftime l event)], event) := by
  obtain ⟨f, hf⟩ := Option.isSome_iff_exists.mp hformatter
  have herror : f.isError = false := by simpa [isBroken, hf] using hclean
  have hlevel : ¬ event.level.value < a.level.value := by simpa [takes] using htakes
  simp [log, text, hlevel, hf, herror]

/-- Any other hands it to the global logger. -/
theorem LogAppender.log_of_broken {global : LogEvent → Option (List Write × LogEvent)}
    (htakes : a.takes event.level = true) (hbroken : a.isBroken = true) :
    a.log strftime global l event = global (event.complained l [a]) := by
  obtain ⟨f, hf, herror⟩ := (Option.any_eq_true _ _).mp hbroken
  have hlevel : ¬ event.level.value < a.level.value := by simpa [takes] using htakes
  simp [log, LogEvent.complained, hlevel, hf, herror, hbroken]

variable {global : LogEvent → Option (List Write × LogEvent)} {g : Logger} {level : LogLevel}

/-- **The loop over the appenders**, when those that are broken find the global logger free. -/
theorem run_appenders_returns (hformatted : ∀ a ∈ as, a.formatter.isSome)
    (hevent : event.level = level)
    (h : (∀ a ∈ as.filter (LogAppender.takes level), a.isBroken = false) ∨
      ∀ e, e.level = level → global e = some (g.texts strftime e, e)) :
    (Machine.run (LogAppender.log strftime global l) event as).map
        (fun r => (r.1.flatten, r.2)) =
      some (Logger.report strftime g l (as.filter (LogAppender.takes level)) event,
        event.complained l (as.filter (LogAppender.takes level))) := by
  induction as generalizing event with
  | nil => simp [Machine.run, Logger.report]
  | cons a as ih =>
      obtain ⟨ha, hothers⟩ := List.forall_mem_cons.mp hformatted
      rw [Machine.run]
      cases htakes : a.takes level with
      | false =>
          have hdeaf : a.takes event.level = false := by rwa [hevent]
          have hfilter : (a :: as).filter (LogAppender.takes level) =
              as.filter (LogAppender.takes level) := by
            simp [htakes]
          rw [hfilter] at h ⊢
          rw [LogAppender.log_of_deaf hdeaf, ← ih hothers hevent h]
          simp [Option.map_map, Function.comp_def]
      | true =>
          have htakes' : a.takes event.level = true := by rwa [hevent]
          have hfilter : (a :: as).filter (LogAppender.takes level) =
              a :: as.filter (LogAppender.takes level) := by
            simp [htakes]
          rw [hfilter, List.forall_mem_cons] at h
          obtain ⟨ws, hlog, hws⟩ : ∃ ws,
              a.log strftime global l event = some (ws, event.complained l [a]) ∧
                ws = if a.isBroken then g.texts strftime (event.complained l [a])
                  else [(a.kind, a.text strftime l event)] := by
            cases hbroken : a.isBroken with
            | false =>
                have hsame : event.complained l [a] = event :=
                  LogEvent.complained_of_clean (by simpa using hbroken)
                rw [hsame]
                exact ⟨_, LogAppender.log_of_clean htakes' ha hbroken, rfl⟩
            | true =>
                have hfree := h.resolve_left fun hclean => by
                  rw [hclean.1] at hbroken
                  cases hbroken
                refine ⟨_, ?_, rfl⟩
                rw [LogAppender.log_of_broken htakes' hbroken]
                exact hfree _ hevent
          have hrest := @ih (event.complained l [a]) hothers hevent (h.imp And.right id)
          obtain ⟨r, hrun, hr⟩ := Option.map_eq_some_iff.mp hrest
          have hsplit : event.complained l (a :: as.filter (LogAppender.takes level)) =
              (event.complained l [a]).complained l (as.filter (LogAppender.takes level)) :=
            LogEvent.complained_cons
          rw [hfilter, hlog, Logger.report_cons, hsplit, ← hws]
          obtain ⟨hwrites, hlast⟩ := Prod.mk.inj hr
          simp [hrun, hwrites, hlast]

/-- The same, when it does not return. -/
theorem run_appenders_blocks (hformatted : ∀ a ∈ as, a.formatter.isSome)
    (hevent : event.level = level) (hglobal : ∀ e, e.level = level → global e = none)
    (h : ¬ ∀ a ∈ as.filter (LogAppender.takes level), a.isBroken = false) :
    Machine.run (LogAppender.log strftime global l) event as = none := by
  induction as generalizing event with
  | nil => simp at h
  | cons a as ih =>
      obtain ⟨ha, hothers⟩ := List.forall_mem_cons.mp hformatted
      rw [Machine.run]
      cases htakes : a.takes level with
      | false =>
          have hdeaf : a.takes event.level = false := by rwa [hevent]
          have hfilter : (a :: as).filter (LogAppender.takes level) =
              as.filter (LogAppender.takes level) := by
            simp [htakes]
          rw [hfilter] at h
          rw [LogAppender.log_of_deaf hdeaf]
          dsimp only
          rw [ih hothers hevent h]
          rfl
      | true =>
          have htakes' : a.takes event.level = true := by rwa [hevent]
          cases hbroken : a.isBroken with
          | false =>
              have hfilter : (a :: as).filter (LogAppender.takes level) =
                  a :: as.filter (LogAppender.takes level) := by
                simp [htakes]
              rw [hfilter, List.forall_mem_cons] at h
              have hrest := ih hothers hevent fun hclean => h ⟨hbroken, hclean⟩
              rw [LogAppender.log_of_clean htakes' ha hbroken]
              dsimp only
              rw [hrest]
              rfl
          | true =>
              have hblocked : global (event.complained l [a]) = none := hglobal _ hevent
              rw [LogAppender.log_of_broken htakes' hbroken, hblocked]

end Loop

namespace LoggerManager

variable {strftime : UInt32 → List UInt8} {m : LoggerManager} {name : List UInt8}
  {event : LogEvent} {level : LogLevel} {l : Logger} {held : List (List UInt8)}

theorem getGlobal_name : m.getGlobal.name = ascii "global" := m.getLogger_name _

theorem logHeld_succ (depth : Nat) :
    m.logHeld strftime (depth + 1) held l event =
      if event.level.value < l.level.value then some ([], event)
      else if l.name ∈ held then none
      else (Machine.run
        (LogAppender.log strftime (m.logHeld strftime depth (l.name :: held) m.getGlobal) l)
        event l.appenders).map fun r => (r.1.flatten, r.2) := rfl

/-- An event that the logger does not take. -/
theorem logHeld_of_deaf (depth : Nat) (h : event.level.value < l.level.value) :
    m.logHeld strftime (depth + 1) held l event = some ([], event) := by
  rw [logHeld_succ, if_pos h]

/-- An event that comes back to a locked logger. -/
theorem logHeld_of_locked (depth : Nat) (h : ¬ event.level.value < l.level.value)
    (hheld : l.name ∈ held) : m.logHeld strftime (depth + 1) held l event = none := by
  rw [logHeld_succ, if_neg h, if_pos hheld]

/-- What the global logger does with the event of another logger. -/
theorem logHeld_global (depth : Nat) (hformatted : m.getGlobal.Formatted)
    (hname : name ≠ ascii "global") :
    m.logHeld strftime (depth + 2) [name] m.getGlobal event =
      if m.getGlobal.Clean event.level then some (m.getGlobal.texts strftime event, event)
      else none := by
  by_cases hlevel : event.level.value < m.getGlobal.level.value
  · have hnone : m.getGlobal.passing event.level = [] := if_pos hlevel
    rw [logHeld_of_deaf _ hlevel, if_pos (by simp [Logger.Clean, hnone])]
    simp [Logger.texts, hnone]
  · have hpassing : m.getGlobal.passing event.level =
        m.getGlobal.appenders.filter (LogAppender.takes event.level) := if_neg hlevel
    have hfree : m.getGlobal.name ∉ [name] := by
      rw [getGlobal_name, List.mem_singleton]
      exact Ne.symm hname
    rw [logHeld_succ, if_neg hlevel, if_neg hfree]
    by_cases hclean : m.getGlobal.Clean event.level
    · rw [if_pos hclean]
      have hreturns := @run_appenders_returns strftime m.getGlobal _ event
        (m.logHeld strftime (depth + 1) [m.getGlobal.name, name] m.getGlobal) m.getGlobal _
        hformatted rfl (.inl (hpassing ▸ hclean))
      rw [hreturns, ← hpassing, Logger.report_of_clean hclean, LogEvent.complained_of_clean hclean]
      rfl
    · rw [if_neg hclean]
      have hlocked (e : LogEvent) (he : e.level = event.level) :
          m.logHeld strftime (depth + 1) [m.getGlobal.name, name] m.getGlobal e = none :=
        logHeld_of_locked depth (by rwa [he]) List.mem_cons_self
      rw [run_appenders_blocks hformatted rfl hlocked (hpassing ▸ hclean)]
      rfl

/-- **A call of `log`** returns when no appender that the event passes is broken, or when the
logger is not the global one and none of those of the global logger is.  Three calls in one
another are enough. -/
theorem logHeld_eq (depth : Nat) (hformatted : (m.getLogger name).Formatted)
    (hglobal : m.getGlobal.Formatted) :
    m.logHeld strftime (depth + 3) [] (m.getLogger name) event =
      if (m.getLogger name).Clean event.level ∨
          name ≠ ascii "global" ∧ m.getGlobal.Clean event.level
      then some (Logger.report strftime m.getGlobal (m.getLogger name)
          ((m.getLogger name).passing event.level) event,
        event.complained (m.getLogger name) ((m.getLogger name).passing event.level))
      else none := by
  have hname : (m.getLogger name).name = name := m.getLogger_name name
  generalize hl : m.getLogger name = l at hname hformatted ⊢
  by_cases hlevel : event.level.value < l.level.value
  · have hnone : l.passing event.level = [] := if_pos hlevel
    rw [logHeld_of_deaf _ hlevel, if_pos (.inl (by simp [Logger.Clean, hnone])), hnone]
    simp [Logger.report]
  · have hpassing : l.passing event.level = l.appenders.filter (LogAppender.takes event.level) :=
      if_neg hlevel
    rw [logHeld_succ, if_neg hlevel, if_neg List.not_mem_nil, hname]
    have hreturns (h : l.Clean event.level ∨ ∀ e, e.level = event.level →
        m.logHeld strftime (depth + 2) [name] m.getGlobal e =
          some (m.getGlobal.texts strftime e, e)) :=
      @run_appenders_returns strftime l _ event
        (m.logHeld strftime (depth + 2) [name] m.getGlobal) m.getGlobal _ hformatted rfl
        (h.imp_left fun hclean => hpassing ▸ hclean)
    by_cases hclean : l.Clean event.level
    · rw [hreturns (.inl hclean), if_pos (.inl hclean), hpassing]
    · by_cases hother : name ≠ ascii "global" ∧ m.getGlobal.Clean event.level
      · rw [if_pos (.inr hother), hpassing]
        refine hreturns (.inr fun e he => ?_)
        rw [logHeld_global depth hglobal hother.1, he, if_pos hother.2]
      · rw [if_neg (not_or.mpr ⟨hclean, hother⟩)]
        have hblocks (e : LogEvent) (he : e.level = event.level) :
            m.logHeld strftime (depth + 2) [name] m.getGlobal e = none := by
          by_cases hsame : name = ascii "global"
          · have hself : m.getGlobal = l := by rw [getGlobal, ← hsame, hl]
            rw [hself]
            refine logHeld_of_locked _ (by rwa [he]) ?_
            rw [hname]
            exact List.mem_cons_self
          · rw [logHeld_global depth hglobal hsame, he, if_neg fun h => hother ⟨hsame, h⟩]
        rw [run_appenders_blocks hformatted rfl hblocks (hpassing ▸ hclean)]
        rfl

/-- **What `log` does**, whatever the formatters are.  It returns when no appender that the event
passes is broken, or when the logger is not the global one and none of those of the global logger
is; and each appender has then written the event, with the complaints in front of it. -/
theorem log_reports (hformatted : (m.getLogger name).Formatted) (hglobal : m.getGlobal.Formatted) :
    (∀ depth, m.logHeld strftime (depth + 3) [] (m.getLogger name) event =
      m.log strftime name event) ∧
    m.log strftime name event =
      if (m.getLogger name).Clean event.level ∨
          name ≠ ascii "global" ∧ m.getGlobal.Clean event.level
      then some (Logger.report strftime m.getGlobal (m.getLogger name)
          ((m.getLogger name).passing event.level) event,
        event.complained (m.getLogger name) ((m.getLogger name).passing event.level))
      else none := by
  refine ⟨fun depth => ?_, logHeld_eq 0 hformatted hglobal⟩
  rw [log, logHeld_eq depth hformatted hglobal, ← logHeld_eq 0 hformatted hglobal]

/-- An appender that is broken, and one behind it: the console gets the event of the global
logger, and the file the complaint with it. -/
theorem log_reports_broken :
    let broken : LogAppender := ⟨.stdout, .info, some (.new (ascii "%q"))⟩
    let file : LogAppender := ⟨.file (ascii "a.txt"), .debug, some (.new (ascii "%m"))⟩
    let global : Logger := ⟨ascii "global", .debug, .new (ascii "%m"),
      [⟨.stdout, .debug, some (.new (ascii "%m"))⟩]⟩
    let m := (LogConfig.noLoggers.set global).set
      ⟨ascii "system", .debug, .new [], [broken, file]⟩
    let event : LogEvent := { sampleEvent with level := .warn, content := ascii "hot" }
    let late := ascii "hot logger: system StdoutLogAppender formatter error. "
    m.log (fun _ => []) (ascii "system") event =
      some ([(.stdout, late), (.file (ascii "a.txt"), late)], { event with content := late }) := by
  intro broken file global m event late
  have hreport := (@log_reports (fun _ => []) m (ascii "system") event (by decide +kernel)
    (by decide +kernel)).2
  rw [if_pos (by decide +kernel)] at hreport
  rw [hreport]
  decide +kernel

end LoggerManager

/-! ### Loggers without broken appenders -/

/-- The formatters of the logger and of its appenders have no error. -/
structure Logger.Sound (l : Logger) : Prop where
  formatter : l.formatter.isError = false
  appenders : ∀ a ∈ l.appenders, ∃ f, a.formatter = some f ∧ f.isError = false

/-- A formatter that is given to the appender has no error. -/
def LogAppender.Proper (a : LogAppender) : Prop := ∀ f ∈ a.formatter, f.isError = false

instance (a : LogAppender) : Decidable a.Proper :=
  inferInstanceAs (Decidable (∀ f ∈ a.formatter, f.isError = false))

namespace Logger

variable {l : Logger} {a : LogAppender} {level : LogLevel} {name val : List UInt8}

/-- `delAppender`, of the appender at this place. -/
def delAppender (l : Logger) (i : Nat) : Logger := { l with appenders := l.appenders.eraseIdx i }

theorem Sound.new : (Logger.new name).Sound where
  formatter := by
    have hnew : (LogFormatter.new formatPattern).isError = false := by decide +kernel
    exact hnew
  appenders := List.forall_mem_nil _

theorem Sound.setLevel (h : l.Sound) : (l.setLevel level).Sound := ⟨h.formatter, h.appenders⟩

theorem Sound.setFormatter (h : l.Sound) : (l.setFormatter val).Sound := by
  unfold Logger.setFormatter
  dsimp only
  split
  · exact h
  · next hval => exact ⟨by simpa using hval, h.appenders⟩

theorem Sound.addAppender (h : l.Sound) (ha : a.Proper) : (l.addAppender a).Sound := by
  refine ⟨h.formatter, fun b hb => ?_⟩
  rcases List.mem_append.mp hb with hold | hnew
  · exact h.appenders b hold
  · rw [List.mem_singleton.mp hnew]
    cases hf : a.formatter with
    | some f => exact ⟨f, hf, ha f hf⟩
    | none => exact ⟨l.formatter, rfl, h.formatter⟩

theorem Sound.clearAppenders (h : l.Sound) : l.clearAppenders.Sound :=
  ⟨h.formatter, List.forall_mem_nil _⟩

theorem Sound.delAppender (h : l.Sound) (i : Nat) : (l.delAppender i).Sound :=
  ⟨h.formatter, fun a ha => h.appenders a (List.mem_of_mem_eraseIdx ha)⟩

theorem Sound.formatted (h : l.Sound) : l.Formatted := fun a ha => by
  obtain ⟨f, hf, -⟩ := h.appenders a ha
  rw [hf]
  rfl

theorem Sound.clean (h : l.Sound) (level : LogLevel) : l.Clean level := by
  intro a ha
  have hmem : a ∈ l.appenders := by
    rw [passing] at ha
    split at ha
    · cases ha
    · exact (List.mem_filter.mp ha).1
  obtain ⟨f, hf, herror⟩ := h.appenders a hmem
  rw [LogAppender.isBroken, hf, Option.any_some, herror]

end Logger

namespace LoggerManager

variable {m m' : LoggerManager} {l : Logger} {name : List UInt8} {d : LogDefine}
  {old new : LogDefines}

/-- All loggers are. -/
def Sound (m : LoggerManager) : Prop := ∀ name l, m.loggers name = some l → l.Sound

theorem Sound.getLogger (h : m.Sound) (name : List UInt8) : (m.getLogger name).Sound := by
  rw [LoggerManager.getLogger]
  split
  · next l hl => exact h name l hl
  · exact Logger.Sound.new.addAppender fun f hf => by cases hf

theorem Sound.set (h : m.Sound) (hl : l.Sound) : (m.set l).Sound := by
  intro name l' h'
  rw [set_loggers] at h'
  split at h'
  · obtain rfl := Option.some.inj h'
    exact hl
  · exact h name l' h'

/-- What the loop keeps at every element, it keeps. -/
theorem foldlM_keeps {α β : Type} {f : β → α → Option β} {P : β → Prop}
    (hf : ∀ b a b', P b → f b a = some b' → P b') {as : List α} {b b' : β} (hb : P b)
    (h : as.foldlM f b = some b') : P b' := by
  induction as generalizing b with
  | nil =>
      obtain rfl := Option.some.inj h
      exact hb
  | cons a as ih =>
      rw [List.foldlM_cons] at h
      obtain ⟨b₁, hfirst, hrest⟩ := Option.bind_eq_some_iff.mp h
      exact ih (hf b a b₁ hb hfirst) hrest

/-- The listener gives an appender no formatter that has an error. -/
theorem make_proper {a : LogAppenderDefine} {ap : LogAppender} (h : a.make = some ap) :
    ap.Proper := by
  obtain ⟨ap₀, hkind, hmake⟩ := Option.map_eq_some_iff.mp h
  have hnone : ap₀.formatter = none := by
    split at hkind
    · obtain rfl := Option.some.inj hkind
      rfl
    · split at hkind
      · obtain rfl := Option.some.inj hkind
        rfl
      · cases hkind
  dsimp only at hmake
  intro f hf
  rw [← hmake] at hf
  split at hf
  · rw [hnone] at hf
    cases hf
  · split at hf
    · rw [hnone] at hf
      cases hf
    · next herror =>
        obtain rfl := Option.some.inj hf
        simpa using herror

theorem Sound.configure (h : m.Sound) (hconfigure : m.configure d = some m') : m'.Sound := by
  obtain ⟨l, hfold, rfl⟩ := Option.map_eq_some_iff.mp hconfigure
  have hlevel : ((m.getLogger d.name).setLevel d.level).Sound := (h.getLogger d.name).setLevel
  have hstart : (if d.formatter = [] then (m.getLogger d.name).setLevel d.level
      else ((m.getLogger d.name).setLevel d.level).setFormatter d.formatter).Sound := by
    split
    · exact hlevel
    · exact hlevel.setFormatter
  refine h.set (foldlM_keeps ?_ hstart.clearAppenders hfold)
  intro l a l' hl hadd
  obtain ⟨ap, hmake, rfl⟩ := Option.map_eq_some_iff.mp hadd
  exact hl.addAppender (make_proper hmake)

theorem Sound.retire (h : m.Sound) (new ds) : (List.foldl (retire new) m ds).Sound := by
  induction ds generalizing m with
  | nil => exact h
  | cons d ds ih =>
      apply ih
      unfold LoggerManager.retire
      split
      · exact h
      · exact h.set (h.getLogger d.name).setLevel.clearAppenders

theorem Sound.onChange (h : m.Sound) (hchange : onChange old new m = some m') : m'.Sound := by
  obtain ⟨m₁, hfold, rfl⟩ := Option.map_eq_some_iff.mp hchange
  refine Sound.retire (foldlM_keeps ?_ h hfold) new old.defs
  intro m d m' hm happly
  unfold apply at happly
  split at happly
  · exact hm.configure happly
  · split at happly
    · exact hm.configure happly
    · obtain rfl := Option.some.inj happly
      exact hm

/-- **In a sound manager** an event is written once by every appender that it passes. -/
theorem Sound.log (h : m.Sound) (strftime : UInt32 → List UInt8) (name : List UInt8)
    (event : LogEvent) :
    m.log strftime name event = some ((m.getLogger name).texts strftime event, event) := by
  have hsound := h.getLogger name
  have hclean := hsound.clean event.level
  rw [LoggerManager.log, logHeld_eq 0 hsound.formatted (h.getLogger _).formatted,
    if_pos (.inl hclean), Logger.report_of_clean hclean, LogEvent.complained_of_clean hclean]
  rfl

end LoggerManager

/-! ### Runs -/

/-- A call; `name` is what `getLogger` was given for the logger. -/
inductive LogCall
  | getLogger (name : List UInt8)
  | setLevel (name : List UInt8) (level : LogLevel)
  | setFormatter (name val : List UInt8)
  | addAppender (name : List UInt8) (a : LogAppender)
  | delAppender (name : List UInt8) (i : Nat)
  | clearAppenders (name : List UInt8)
  /-- `setValue` of the variable `logs`; `line` is what the listener says of it first -/
  | setValue (value : LogDefines) (line : LogEvent)
  | log (name : List UInt8) (event : LogEvent)

/-- Formatters that a program gives to its appenders have no error, and the appenders of a
definition are of the two types. -/
def LogCall.Proper : LogCall → Prop
  | .addAppender _ a => a.Proper
  | .setValue value _ => ∀ d ∈ value.defs, d.Parsed
  | _ => True

instance : DecidablePred LogCall.Proper
  | .addAppender _ a => inferInstanceAs (Decidable a.Proper)
  | .setValue value _ => inferInstanceAs (Decidable (∀ d ∈ value.defs, d.Parsed))
  | .getLogger _ | .setLevel _ _ | .setFormatter _ _ | .delAppender _ _ | .clearAppenders _
  | .log _ _ => isTrue trivial

/-- The constructor of `LoggerManager`. -/
def LoggerManager.new : LoggerManager :=
  LogConfig.noLoggers.set ((Logger.new (ascii "global")).addAppender (.new .stdout))

namespace LogConfig

variable {strftime : UInt32 → List UInt8} {s t : LogConfig} {out : List Write} {c : LogCall}

/-- A member function of a logger. -/
def change (s : LogConfig) (name : List UInt8) (f : Logger → Logger) : LogConfig :=
  { s with manager := s.manager.set (f (s.manager.getLogger name)) }

/-- A call, and what is written meanwhile. -/
def call (strftime : UInt32 → List UInt8) : Machine.Step LogConfig LogCall (List Write)
  | s, .getLogger name => some ([], s.change name id)
  | s, .setLevel name level => some ([], s.change name (·.setLevel level))
  | s, .setFormatter name val => some ([], s.change name (·.setFormatter val))
  | s, .addAppender name a => some ([], s.change name (·.addAppender a))
  | s, .delAppender name i => some ([], s.change name (·.delAppender i))
  | s, .clearAppenders name => some ([], s.change name (·.clearAppenders))
  | s, .setValue value line =>
      let said :=
        if s.var.value == value then some []
        else (s.manager.log strftime (ascii "global") line).map Prod.fst
      said.bind fun out => (step s value).map fun r => (out, r.2)
  | s, .log name event => (s.manager.log strftime name event).map fun r => (r.1, s)

/-- What a call is to write. -/
def written (strftime : UInt32 → List UInt8) (s : LogConfig) : LogCall → List Write
  | .setValue value line =>
      if s.var.value == value then [] else s.manager.getGlobal.texts strftime line
  | .log name event => (s.manager.getLogger name).texts strftime event
  | _ => []

/-- The invariant. -/
structure Sound (s : LogConfig) : Prop where
  listener : s.var.cbs = [1]
  manager : s.manager.Sound

theorem start_sound : (start .new).Sound where
  listener := rfl
  manager := by
    have hnone : noLoggers.Sound := nofun
    exact hnone.set (Logger.Sound.new.addAppender nofun)

theorem Sound.change (h : s.Sound) (name : List UInt8) {f : Logger → Logger}
    (hf : ∀ l, l.Sound → (f l).Sound) : (s.change name f).Sound :=
  ⟨h.listener, h.manager.set (hf _ (h.manager.getLogger name))⟩

/-- A change of the variable. -/
theorem Sound.step (h : s.Sound) {value : LogDefines} (hparsed : ∀ d ∈ value.defs, d.Parsed) :
    ∃ t, step s value = some ((), t) ∧ t.Sound := by
  unfold LogConfig.step ConfigVar.setValue
  by_cases hbeq : (s.var.value == value) = true
  · rw [if_pos hbeq]
    exact ⟨s, rfl, h⟩
  · obtain ⟨m, hchange, -⟩ := LoggerManager.onChange_spec s.var.value value s.manager hparsed
    have hfold : [1].foldlM (fun m (_ : Nat) => LoggerManager.onChange s.var.value value m)
        s.manager = some m := by
      rw [List.foldlM_cons, hchange]
      rfl
    rw [if_neg hbeq, h.listener, hfold]
    exact ⟨⟨⟨value, [1]⟩, m⟩, rfl, rfl, h.manager.onChange hchange⟩

/-- **Step lemma.**  A call is defined, keeps the invariant and writes what it is to write. -/
theorem Sound.call (h : s.Sound) (hc : c.Proper) :
    ∃ t, call strftime s c = some (written strftime s c, t) ∧ t.Sound := by
  cases c with
  | getLogger name => exact ⟨_, rfl, h.change name fun _ hl => hl⟩
  | setLevel name level => exact ⟨_, rfl, h.change name fun _ hl => hl.setLevel⟩
  | setFormatter name val => exact ⟨_, rfl, h.change name fun _ hl => hl.setFormatter⟩
  | addAppender name a => exact ⟨_, rfl, h.change name fun _ hl => hl.addAppender hc⟩
  | delAppender name i => exact ⟨_, rfl, h.change name fun _ hl => hl.delAppender i⟩
  | clearAppenders name => exact ⟨_, rfl, h.change name fun _ hl => hl.clearAppenders⟩
  | setValue value line =>
      obtain ⟨t, hstep, ht⟩ := h.step hc
      refine ⟨t, ?_, ht⟩
      rw [LogConfig.call, hstep, h.manager.log, written]
      by_cases hbeq : (s.var.value == value) = true
      · simp [hbeq]
      · simp [hbeq, LoggerManager.getGlobal]
  | log name event =>
      refine ⟨s, ?_, h⟩
      rw [LogConfig.call, h.manager.log]
      rfl

/-- **Every event is delivered.**  From the start of the program on no call is stuck, and each
writes what it is to write in the state that the calls before it have made. -/
theorem run_delivers {calls : List LogCall} (hcalls : ∀ c ∈ calls, c.Proper) :
    ∃ outs s, Machine.run (call strftime) (start .new) calls = some (outs, s) ∧
      ∀ before c after, calls = before ++ c :: after → ∃ outs₁ s₁ outs₂,
        Machine.run (call strftime) (start .new) before = some (outs₁, s₁) ∧
          outs = outs₁ ++ written strftime s₁ c :: outs₂ := by
  have hstep (s : LogConfig) (c : LogCall) (hs : s.Sound) (hc : c.Proper) :
      ∃ out t, call strftime s c = some (out, t) ∧ t.Sound := by
    obtain ⟨t, hcall, ht⟩ := hs.call hc
    exact ⟨_, t, hcall, ht⟩
  have hrun {calls : List LogCall} (hcalls : ∀ c ∈ calls, c.Proper) :=
    Machine.run_defined_of_meets hstep start_sound (Machine.meets_of_mem hcalls (start .new))
  obtain ⟨outs, s, hall, -⟩ := hrun hcalls
  refine ⟨outs, s, hall, ?_⟩
  rintro before c after rfl
  obtain ⟨outs₁, s₁, hbefore, hs₁⟩ := hrun fun c hc => hcalls c (List.mem_append_left _ hc)
  obtain ⟨outs₁', s₁', outs', hbefore', hrest, rfl⟩ := Machine.run_append_some.mp hall
  obtain ⟨rfl, rfl⟩ := Prod.mk.inj (Option.some.inj (hbefore.symm.trans hbefore'))
  obtain ⟨out, t, outs₂, hcall, -, rfl⟩ := Machine.run_cons_some.mp hrest
  obtain ⟨t', hcall', -⟩ := hs₁.call (hcalls c (by simp))
  rw [hcall'] at hcall
  obtain ⟨rfl, -⟩ := Prod.mk.inj (Option.some.inj hcall)
  exact ⟨outs₁, s₁, outs₂, hbefore, rfl⟩

/-- A new logger, an appender of its own, a change of the configuration, and events in between. -/
theorem run_delivers_configured :
    let file : LogAppender := ⟨.file (ascii "a.txt"), .error, none⟩
    let toFile : LogDefine := ⟨ascii "system", .warn, [], [⟨1, ascii "%m%n", ascii "b.txt", .warn⟩]⟩
    let calls : List LogCall :=
      [.setFormatter (ascii "system") (ascii "%p"), .addAppender (ascii "system") file,
        .log (ascii "system") { sampleEvent with level := .error },
        .setValue (single toFile) sampleEvent,
        .log (ascii "system") { sampleEvent with level := .warn, content := ascii "hot" }]
    ∃ outs s, Machine.run (call fun _ => []) (start .new) calls = some (outs, s) ∧
      outs.getLast? = some [(.file (ascii "b.txt"), ascii "hot\n")] := by
  intro file toFile calls
  obtain ⟨outs, s, hrun, -⟩ := @run_delivers (fun _ => []) calls (by decide +kernel)
  refine ⟨outs, s, hrun, ?_⟩
  have hlast : (Machine.run (call fun _ => []) (start .new) calls).map (fun r => r.1.getLast?) =
      some (some [(.file (ascii "b.txt"), ascii "hot\n")]) := by
    decide +kernel
  rw [hrun, Option.map_some] at hlast
  exact Option.some.inj hlast

end LogConfig

end Mingo
