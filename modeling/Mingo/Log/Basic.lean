import Mathlib.Data.List.Basic
import Mingo.Config.Basic

/-!
# Loggers and their configuration

The loggers of log.cpp, the definitions that the variable `logs` holds, and the
listener of `LogIniter` that applies a change of the variable to the loggers.

A string is its list of bytes.  The listener compares definitions with
`LogDefine::operator==`, and so does `setValue` before it calls the listener:
`std::set` compares its elements one by one.  What a logger writes, and whether
a file can be opened, is left out.
-/

namespace Mingo

/-- The bytes of an ASCII literal. -/
def ascii (s : String) : List UInt8 := s.toList.map fun c => UInt8.ofNat c.toNat

/-- `LogLevel::Level`, and the level 800 that the listener makes up. -/
inductive LogLevel
  | unknow
  | debug
  | info
  | warn
  | error
  | fatal
  /-- `LogLevel::Level(800)` -/
  | off
  deriving DecidableEq, Repr

def LogLevel.value : LogLevel → Nat
  | .unknow => 0
  | .debug => 1
  | .info => 2
  | .warn => 3
  | .error => 4
  | .fatal => 5
  | .off => 800

/-! ### Formatters -/

/-- `FormatItem`. -/
inductive FormatItem
  | plain (s : List UInt8)
  | level
  | filename
  | line
  | time
  | threadId
  | fiberId
  | content
  | newLine
  | percentSign
  | tab
  | name
  | threadName
  deriving DecidableEq, Repr

/-- `format_item_map`. -/
def formatItemMap : List (UInt8 × FormatItem) :=
  [(112, .level), (102, .filename), (108, .line), (100, .time), (116, .threadId),
    (70, .fiberId), (109, .content), (110, .newLine), (37, .percentSign), (84, .tab),
    (99, .name), (78, .threadName)]

/-- Where the loop of `LogFormatter::init` is. -/
inductive ParseStatus
  /-- `SCAN_STATUS` -/
  | scan
  /-- in the inner loop, past these characters -/
  | scanning (passed : List UInt8)
  /-- `CREATE_STATUS` -/
  | create
  deriving DecidableEq, Repr

/-- The loop of `LogFormatter::init`: the items and the error flag. -/
def ParseStatus.init : ParseStatus → List UInt8 → List FormatItem × Bool
  | .scan, [] => ([], false)
  | .scan, c :: cs =>
      if c = 37 then
        let r := ParseStatus.init .create cs
        (.plain [] :: r.1, r.2)
      else ParseStatus.init (.scanning [c]) cs
  | .scanning passed, [] => ([.plain passed], false)
  | .scanning passed, c :: cs =>
      if c = 37 then
        let r := ParseStatus.init .create cs
        (.plain passed :: r.1, r.2)
      else ParseStatus.init (.scanning (passed ++ [c])) cs
  | .create, [] => ([], false)
  | .create, c :: cs =>
      match formatItemMap.lookup c with
      | none => ([], true)
      | some item =>
          let r := ParseStatus.init .scan cs
          (item :: r.1, r.2)

/-- `LogFormatter`. -/
structure LogFormatter where
  pattern : List UInt8
  items : List FormatItem
  isError : Bool
  deriving DecidableEq, Repr

/-- The constructor. -/
def LogFormatter.new (pattern : List UInt8) : LogFormatter :=
  let r := ParseStatus.init .scan pattern
  ⟨pattern, r.1, r.2⟩

/-! ### Loggers -/

/-- The class of an appender, and the file of a `FileLogAppender`. -/
inductive AppenderKind
  | file (filename : List UInt8)
  | stdout
  deriving DecidableEq, Repr

/-- `LogAppender`. -/
structure LogAppender where
  kind : AppenderKind
  level : LogLevel
  formatter : Option LogFormatter
  deriving DecidableEq, Repr

/-- `new FileLogAppender` and `new StdoutLogAppender`. -/
def LogAppender.new (kind : AppenderKind) : LogAppender := ⟨kind, .debug, none⟩

/-- `Logger`. -/
structure Logger where
  name : List UInt8
  level : LogLevel
  formatter : LogFormatter
  appenders : List LogAppender
  deriving DecidableEq, Repr

namespace Logger

/-- `m_format_pattern`. -/
def formatPattern : List UInt8 := ascii "[%d] [%p] [%c] <%f: %l> [%N] [T:%t F:%F]%T%m%n"

/-- `Logger(name)`. -/
def new (name : List UInt8) : Logger := ⟨name, .debug, .new formatPattern, []⟩

def setLevel (l : Logger) (level : LogLevel) : Logger := { l with level := level }

/-- `setFormatter`; a pattern with an error is ignored. -/
def setFormatter (l : Logger) (val : List UInt8) : Logger :=
  let newVal := LogFormatter.new val
  if newVal.isError then l else { l with formatter := newVal }

/-- `addAppender`; an appender without a formatter is given that of the logger. -/
def addAppender (l : Logger) (a : LogAppender) : Logger :=
  let a := match a.formatter with
    | some _ => a
    | none => { a with formatter := some l.formatter }
  { l with appenders := l.appenders ++ [a] }

def clearAppenders (l : Logger) : Logger := { l with appenders := [] }

end Logger

/-- `LoggerManager`: the map `m_loggers`, where every logger stands under its name. -/
structure LoggerManager where
  loggers : List UInt8 → Option Logger
  named : ∀ name l, loggers name = some l → l.name = name

namespace LoggerManager

/-- The map after a logger was changed or created. -/
def set (m : LoggerManager) (l : Logger) : LoggerManager where
  loggers := fun name => if name = l.name then some l else m.loggers name
  named := by
    intro name l' h
    split at h
    · next hname =>
        cases h
        exact hname.symm
    · exact m.named name l' h

/-- `getLogger`: an unknown logger is created, with a `StdoutLogAppender`. -/
def getLogger (m : LoggerManager) (name : List UInt8) : Logger :=
  match m.loggers name with
  | some l => l
  | none => (Logger.new name).addAppender (.new .stdout)

end LoggerManager

/-! ### Definitions -/

/-- `LogAppenderDefine`. -/
structure LogAppenderDefine where
  type : Int
  formatter : List UInt8
  file : List UInt8
  level : LogLevel
  deriving DecidableEq, Repr

/-- `LogDefine`. -/
structure LogDefine where
  name : List UInt8
  level : LogLevel
  formatter : List UInt8
  appenders : List LogAppenderDefine
  deriving Repr

/-- `LogDefine::operator==`, where both sides of the third comparison are the left
definition's. -/
instance : BEq LogDefine where
  beq d oth := d.name == oth.name && d.level == oth.level && d.appenders == d.appenders &&
    d.formatter == oth.formatter

/-- `std::set<LogDefine>`, ordered by name. -/
structure LogDefines where
  defs : List LogDefine
  sorted : defs.Pairwise fun d e => d.name < e.name

/-- `operator==` of `std::set`. -/
instance : BEq LogDefines where
  beq ds es := ds.defs == es.defs

namespace LogDefines

def empty : LogDefines := ⟨[], .nil⟩

/-- `find`: the element of the same name. -/
def find (ds : LogDefines) (name : List UInt8) : Option LogDefine :=
  ds.defs.find? fun d => d.name = name

end LogDefines

/-! ### The listener -/

/-- The appender that the listener makes of its definition; for a type other than 1 and 2 it
follows a null pointer. -/
def LogAppenderDefine.make (a : LogAppenderDefine) : Option LogAppender :=
  let ap : Option LogAppender :=
    if a.type = 1 then some (.new (.file a.file))
    else if a.type = 2 then some (.new .stdout)
    else none
  ap.map fun ap =>
    let ap := { ap with level := a.level }
    if a.formatter = [] then ap
    else
      let fmt := LogFormatter.new a.formatter
      if fmt.isError then ap else { ap with formatter := some fmt }

namespace LoggerManager

/-- What the listener does to the logger of a definition that is new or was changed. -/
def configure (m : LoggerManager) (d : LogDefine) : Option LoggerManager :=
  let logger := (m.getLogger d.name).setLevel d.level
  let logger := if d.formatter = [] then logger else logger.setFormatter d.formatter
  let logger := logger.clearAppenders
  let add := fun (l : Logger) (a : LogAppenderDefine) => a.make.map l.addAppender
  (d.appenders.foldlM add logger).map m.set

/-- The body of the first loop of the listener. -/
def apply (old : LogDefines) (m : LoggerManager) (d : LogDefine) : Option LoggerManager :=
  match old.find d.name with
  | none => m.configure d
  | some e => if !(d == e) then m.configure d else some m

/-- The body of the second loop. -/
def retire (new : LogDefines) (m : LoggerManager) (d : LogDefine) : LoggerManager :=
  match new.find d.name with
  | some _ => m
  | none => m.set ((m.getLogger d.name).setLevel .off).clearAppenders

/-- The listener. -/
def onChange (old new : LogDefines) (m : LoggerManager) : Option LoggerManager :=
  (new.defs.foldlM (apply old) m).map fun m => old.defs.foldl (retire new) m

end LoggerManager

/-- The variable `logs` and the loggers. -/
structure LogConfig where
  var : ConfigVar LogDefines
  manager : LoggerManager

namespace LogConfig

/-- Before the first change: the empty set, the listener of `LogIniter`, and the loggers that
the program has. -/
def start (manager : LoggerManager) : LogConfig := ⟨⟨.empty, [1]⟩, manager⟩

/-- A call of `setValue`. -/
def step : Machine.Step LogConfig LogDefines Unit := fun s value =>
  (s.var.setValue (fun _ => LoggerManager.onChange) value s.manager).map fun r => ((), ⟨r.1, r.2⟩)

end LogConfig

end Mingo
