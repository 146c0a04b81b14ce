import Mingo.Config.Yaml
import Mingo.Log.Pattern

/-!
# Definitions as text

`LexicalCast<std::string, LogDefine>` makes a definition of a YAML document, and
`LexicalCast<LogDefine, std::string>` a document of a definition.  The writer
leaves out the level `UNKNOW` of an appender, and the reader takes a level that
is missing for `DEBUG`.

* `ofText_toText` -- what comes back of a definition;
* `survives_iff` -- the definitions that come back as they were.

yaml-cpp is a parameter of which only documented behaviour is used.
-/

namespace Mingo

open Yaml (Node)

/-- `LogLevel::stringToLevel`. -/
def LogLevel.stringToLevel (str : List UInt8) : LogLevel :=
  if str = ascii "fatal" then .fatal
  else if str = ascii "error" then .error
  else if str = ascii "warn" then .warn
  else if str = ascii "info" then .info
  else if str = ascii "debug" then .debug
  else if str = ascii "FATAL" then .fatal
  else if str = ascii "ERROR" then .error
  else if str = ascii "WARN" then .warn
  else if str = ascii "INFO" then .info
  else if str = ascii "DEBUG" then .debug
  else .unknow

/-- yaml-cpp, as the casts use it; `none` is an exception. -/
structure YamlCpp where
  /-- `YAML::Load` -/
  load : List UInt8 → Option Node
  /-- `operator<<` -/
  emit : Node → List UInt8
  /-- `node[key]` -/
  get : Node → List UInt8 → Option Node
  /-- `node.size()` -/
  size : Node → Nat
  /-- `node[i]` -/
  item : Node → Nat → Option Node
  /-- `node.as<std::string>()` -/
  asString : Node → Option (List UInt8)

namespace YamlCpp

/-- The value of the first entry with this key. -/
def lookup (key : List UInt8) : List (Node × Node) → Node
  | [] => .undefined
  | (k, value) :: rest => if k.isScalar ∧ k.scalarText = key then value else lookup key rest

/-- What is documented of maps, sequences and scalars. -/
structure Documented (yaml : YamlCpp) : Prop where
  get_map : ∀ entries key, yaml.get (.map entries) key = some (lookup key entries)
  size_sequence : ∀ items, yaml.size (.sequence items) = items.length
  item_sequence : ∀ items i node, items[i]? = some node →
    yaml.item (.sequence items) i = some node
  asString_scalar : ∀ text, yaml.asString (.scalar text) = some text

end YamlCpp

/-! ### Reading -/

section Reading

variable (yaml : YamlCpp)

/-- `n[key]` as a string, if it is defined. -/
def optionalString (n : Node) (key : List UInt8) : Option (Option (List UInt8)) := do
  let value ← yaml.get n key
  if value.isDefined then
    let text ← yaml.asString value
    pure (some text)
  else pure none

/-- The level of an appender. -/
def appenderLevel (a : Node) : Option LogLevel := do
  let level ← yaml.get a (ascii "level")
  if level.isDefined then pure (.stringToLevel level.scalarText) else pure .debug

/-- The body of the loop over the appenders: an appender that is not valid is skipped. -/
def readAppender (a : Node) : Option (Option LogAppenderDefine) := do
  match ← optionalString yaml a (ascii "type") with
  | none => pure none
  | some type =>
      if type = ascii "FileLogAppender" then
        match ← optionalString yaml a (ascii "file") with
        | none => pure none
        | some file =>
            let formatter ← optionalString yaml a (ascii "formatter")
            let level ← appenderLevel yaml a
            pure (some ⟨1, formatter.getD [], file, level⟩)
      else if type = ascii "StdoutLogAppender" then
        let formatter ← optionalString yaml a (ascii "formatter")
        let level ← appenderLevel yaml a
        pure (some ⟨2, formatter.getD [], [], level⟩)
      else pure none

/-- The loop, from the index `i` on. -/
def readAppenders (appenders : Node) : Nat → Nat → Option (List LogAppenderDefine)
  | 0, _ => pure []
  | turns + 1, i => do
      let a ← yaml.item appenders i
      let first ← readAppender yaml a
      let rest ← readAppenders appenders turns (i + 1)
      pure (first.toList ++ rest)

/-- The appenders of a definition, if it has any. -/
def appendersOf (n : Node) : Option (List LogAppenderDefine) := do
  let appenders ← yaml.get n (ascii "appenders")
  if appenders.isDefined then readAppenders yaml appenders (yaml.size appenders) 0 else pure []

/-- The definition that a document describes. -/
def readDefine (n : Node) : Option LogDefine := do
  match ← optionalString yaml n (ascii "name") with
  | none => none
  | some name =>
      let level ← optionalString yaml n (ascii "level")
      let formatter ← optionalString yaml n (ascii "formatter")
      let appenders ← appendersOf yaml n
      pure ⟨name, .stringToLevel (level.getD []), formatter.getD [], appenders⟩

/-- `LexicalCast<std::string, LogDefine>`. -/
def LogDefine.ofText (v : List UInt8) : Option LogDefine := (yaml.load v).bind (readDefine yaml)

end Reading

/-! ### Writing -/

/-- An entry of a map. -/
def entry (key : String) (value : List UInt8) : Node × Node :=
  (.scalar (ascii key), .scalar value)

/-- A node that entries were added to. -/
def nodeOf (entries : List (Node × Node)) : Node :=
  if entries.isEmpty then .null else .map entries

/-- The node of an appender. -/
def LogAppenderDefine.toNode (a : LogAppenderDefine) : Node :=
  nodeOf ((if a.type = 1 then [entry "type" (ascii "FileLogAppender"), entry "file" a.file]
    else if a.type = 2 then [entry "type" (ascii "StdoutLogAppender")] else []) ++
    (if a.level ≠ .unknow then [entry "level" a.level.levelToString] else []) ++
    (if a.formatter ≠ [] then [entry "formatter" a.formatter] else []))

/-- The node of a definition. -/
def LogDefine.toNode (d : LogDefine) : Node :=
  nodeOf ([entry "name" d.name, entry "level" d.level.levelToString] ++
    (if d.formatter ≠ [] then [entry "formatter" d.formatter] else []) ++
    (if d.appenders.isEmpty then []
      else [(.scalar (ascii "appenders"), .sequence (d.appenders.map LogAppenderDefine.toNode))]))

/-- `LexicalCast<LogDefine, std::string>`. -/
def LogDefine.toText (yaml : YamlCpp) (d : LogDefine) : List UInt8 := yaml.emit d.toNode

/-! ### What is read -/

/-- A definition that the reader can make. -/
structure LogAppenderDefine.Produced (a : LogAppenderDefine) : Prop where
  type : a.type = 1 ∨ a.type = 2 ∧ a.file = []
  level : a.level ≠ .off

structure LogDefine.Produced (d : LogDefine) : Prop where
  level : d.level ≠ .off
  appenders : ∀ a ∈ d.appenders, a.Produced

theorem LogLevel.stringToLevel_ne_off (str : List UInt8) : stringToLevel str ≠ .off := by
  unfold stringToLevel
  repeat' split
  all_goals exact nofun

section Produced

variable {yaml : YamlCpp}

theorem appenderLevel_ne_off {a : Node} {level : LogLevel}
    (h : appenderLevel yaml a = some level) : level ≠ .off := by
  obtain ⟨node, -, hlevel⟩ := Option.bind_eq_some_iff.mp h
  split at hlevel
  · cases hlevel
    exact LogLevel.stringToLevel_ne_off _
  · cases hlevel
    exact nofun

theorem readAppender_produced {a : Node} {d : LogAppenderDefine}
    (h : readAppender yaml a = some (some d)) : d.Produced := by
  obtain ⟨type, -, h⟩ := Option.bind_eq_some_iff.mp h
  split at h
  · cases h
  · split at h
    · obtain ⟨file, -, h⟩ := Option.bind_eq_some_iff.mp h
      split at h
      · cases h
      · obtain ⟨formatter, -, h⟩ := Option.bind_eq_some_iff.mp h
        obtain ⟨level, hlevel, h⟩ := Option.bind_eq_some_iff.mp h
        cases h
        exact ⟨Or.inl rfl, appenderLevel_ne_off hlevel⟩
    · split at h
      · obtain ⟨formatter, -, h⟩ := Option.bind_eq_some_iff.mp h
        obtain ⟨level, hlevel, h⟩ := Option.bind_eq_some_iff.mp h
        cases h
        exact ⟨Or.inr ⟨rfl, rfl⟩, appenderLevel_ne_off hlevel⟩
      · cases h

theorem readAppenders_produced {appenders : Node} {turns i : Nat} {ds : List LogAppenderDefine}
    (h : readAppenders yaml appenders turns i = some ds) : ∀ d ∈ ds, d.Produced := by
  induction turns generalizing i ds with
  | zero =>
      cases h
      simp
  | succ turns ih =>
      obtain ⟨a, -, h⟩ := Option.bind_eq_some_iff.mp h
      obtain ⟨first, hfirst, h⟩ := Option.bind_eq_some_iff.mp h
      obtain ⟨rest, hrest, h⟩ := Option.bind_eq_some_iff.mp h
      cases h
      intro d hd
      rcases List.mem_append.mp hd with hd | hd
      · rw [Option.mem_toList] at hd
        cases hd
        exact readAppender_produced hfirst
      · exact ih hrest d hd

/-- **What the reader makes** of any text. -/
theorem ofText_produced {v : List UInt8} {d : LogDefine} (h : LogDefine.ofText yaml v = some d) :
    d.Produced := by
  obtain ⟨n, -, h⟩ := Option.bind_eq_some_iff.mp h
  obtain ⟨name, -, h⟩ := Option.bind_eq_some_iff.mp h
  split at h
  · cases h
  · obtain ⟨level, -, h⟩ := Option.bind_eq_some_iff.mp h
    obtain ⟨formatter, -, h⟩ := Option.bind_eq_some_iff.mp h
    obtain ⟨defines, hdefines, h⟩ := Option.bind_eq_some_iff.mp h
    cases h
    refine ⟨LogLevel.stringToLevel_ne_off _, ?_⟩
    obtain ⟨appenders, -, hdefines⟩ := Option.bind_eq_some_iff.mp hdefines
    split at hdefines
    · exact readAppenders_produced hdefines
    · cases hdefines
      simp

end Produced

/-! ### What comes back -/

theorem LogLevel.stringToLevel_levelToString {level : LogLevel} (h : level ≠ .off) :
    stringToLevel level.levelToString = level := by
  cases level with
  | off => exact absurd rfl h
  | _ => decide

section Documented

variable {yaml : YamlCpp} (hyaml : yaml.Documented) {entries : List (Node × Node)}
  {key text : List UInt8}

include hyaml

theorem optionalString_scalar (h : YamlCpp.lookup key entries = .scalar text) :
    optionalString yaml (.map entries) key = some (some text) := by
  simp [optionalString, hyaml.get_map, h, Node.isDefined, hyaml.asString_scalar]

theorem optionalString_undefined (h : YamlCpp.lookup key entries = .undefined) :
    optionalString yaml (.map entries) key = some none := by
  simp [optionalString, hyaml.get_map, h, Node.isDefined]

theorem appenderLevel_scalar (h : YamlCpp.lookup (ascii "level") entries = .scalar text) :
    appenderLevel yaml (.map entries) = some (.stringToLevel text) := by
  simp [appenderLevel, hyaml.get_map, h, Node.isDefined, Node.scalarText]

theorem appenderLevel_undefined (h : YamlCpp.lookup (ascii "level") entries = .undefined) :
    appenderLevel yaml (.map entries) = some .debug := by
  simp [appenderLevel, hyaml.get_map, h, Node.isDefined]

/-- The reader of a file appender. -/
theorem readAppender_file {file : List UInt8} {formatter : Option (List UInt8)} {level : LogLevel}
    (htype : YamlCpp.lookup (ascii "type") entries = .scalar (ascii "FileLogAppender"))
    (hfile : YamlCpp.lookup (ascii "file") entries = .scalar file)
    (hformatter : optionalString yaml (.map entries) (ascii "formatter") = some formatter)
    (hlevel : appenderLevel yaml (.map entries) = some level) :
    readAppender yaml (.map entries) = some (some ⟨1, formatter.getD [], file, level⟩) := by
  simp [readAppender, optionalString_scalar hyaml htype, optionalString_scalar hyaml hfile,
    hformatter, hlevel]

/-- The reader of the other kind. -/
theorem readAppender_stdout {formatter : Option (List UInt8)} {level : LogLevel}
    (htype : YamlCpp.lookup (ascii "type") entries = .scalar (ascii "StdoutLogAppender"))
    (hformatter : optionalString yaml (.map entries) (ascii "formatter") = some formatter)
    (hlevel : appenderLevel yaml (.map entries) = some level) :
    readAppender yaml (.map entries) = some (some ⟨2, formatter.getD [], [], level⟩) := by
  have hne : ascii "StdoutLogAppender" ≠ ascii "FileLogAppender" := by decide +kernel
  simp [readAppender, optionalString_scalar hyaml htype, hformatter, hlevel, hne]

end Documented

/-- The entries that both kinds of appenders have. -/
def LogAppenderDefine.options (a : LogAppenderDefine) : List (Node × Node) :=
  (if a.level ≠ .unknow then [entry "level" a.level.levelToString] else []) ++
    (if a.formatter ≠ [] then [entry "formatter" a.formatter] else [])

theorem LogAppenderDefine.lookup_level (a : LogAppenderDefine) :
    YamlCpp.lookup (ascii "level") a.options =
      if a.level = .unknow then .undefined else .scalar a.level.levelToString := by
  unfold options
  by_cases hlevel : a.level = .unknow <;> by_cases hformatter : a.formatter = []
  all_goals
    simp only [hlevel, hformatter, ne_eq, not_true_eq_false, not_false_eq_true, if_true, if_false]
    rfl

theorem LogAppenderDefine.lookup_formatter (a : LogAppenderDefine) :
    YamlCpp.lookup (ascii "formatter") a.options =
      if a.formatter = [] then .undefined else .scalar a.formatter := by
  unfold options
  by_cases hlevel : a.level = .unknow <;> by_cases hformatter : a.formatter = []
  all_goals
    simp only [hlevel, hformatter, ne_eq, not_true_eq_false, not_false_eq_true, if_true, if_false]
    rfl

/-- What comes back of an appender: a level that is not written is `DEBUG`. -/
def LogAppenderDefine.back (a : LogAppenderDefine) : LogAppenderDefine :=
  { a with level := if a.level = .unknow then .debug else a.level }

section Back

variable {yaml : YamlCpp} (hyaml : yaml.Documented) {a : LogAppenderDefine}

include hyaml

/-- The formatter behind entries of other keys. -/
theorem optionalString_formatter (front : List (Node × Node))
    (hfront : YamlCpp.lookup (ascii "formatter") (front ++ a.options) =
      YamlCpp.lookup (ascii "formatter") a.options) :
    ∃ formatter, optionalString yaml (.map (front ++ a.options)) (ascii "formatter") =
      some formatter ∧ formatter.getD [] = a.formatter := by
  rw [a.lookup_formatter] at hfront
  by_cases hformatter : a.formatter = []
  · rw [if_pos hformatter] at hfront
    exact ⟨none, optionalString_undefined hyaml hfront, hformatter.symm⟩
  · rw [if_neg hformatter] at hfront
    exact ⟨some a.formatter, optionalString_scalar hyaml hfront, rfl⟩

/-- The level behind entries of other keys. -/
theorem appenderLevel_back (front : List (Node × Node)) (ha : a.level ≠ .off)
    (hfront : YamlCpp.lookup (ascii "level") (front ++ a.options) =
      YamlCpp.lookup (ascii "level") a.options) :
    appenderLevel yaml (.map (front ++ a.options)) = some a.back.level := by
  rw [a.lookup_level] at hfront
  rw [LogAppenderDefine.back]
  by_cases hlevel : a.level = .unknow
  · rw [if_pos hlevel] at hfront ⊢
    exact appenderLevel_undefined hyaml hfront
  · rw [if_neg hlevel] at hfront ⊢
    rw [appenderLevel_scalar hyaml hfront, LogLevel.stringToLevel_levelToString ha]

/-- **An appender** comes back. -/
theorem readAppender_toNode (ha : a.Produced) :
    readAppender yaml a.toNode = some (some a.back) := by
  rcases ha.type with htype | ⟨htype, hfile⟩
  · let front := [entry "type" (ascii "FileLogAppender"), entry "file" a.file]
    obtain ⟨formatter, hformatter, hback⟩ :=
      optionalString_formatter (a := a) hyaml front rfl
    have hlevel := appenderLevel_back hyaml front ha.level rfl
    have hnode : a.toNode = .map (front ++ a.options) := by
      rw [LogAppenderDefine.toNode, if_pos htype, List.append_assoc]
      rfl
    rw [hnode, readAppender_file hyaml rfl rfl hformatter hlevel, hback]
    simp [LogAppenderDefine.back, htype]
  · let front := [entry "type" (ascii "StdoutLogAppender")]
    obtain ⟨formatter, hformatter, hback⟩ :=
      optionalString_formatter (a := a) hyaml front rfl
    have hlevel := appenderLevel_back hyaml front ha.level rfl
    have hnode : a.toNode = .map (front ++ a.options) := by
      have hother : a.type ≠ 1 := by
        rw [htype]
        decide
      rw [LogAppenderDefine.toNode, if_neg hother, if_pos htype, List.append_assoc]
      rfl
    rw [hnode, readAppender_stdout hyaml rfl hformatter hlevel, hback]
    simp [LogAppenderDefine.back, htype, hfile]

/-- The loop over the appenders, from any index. -/
theorem readAppenders_toNode (before ds : List LogAppenderDefine) (hds : ∀ d ∈ ds, d.Produced) :
    readAppenders yaml (.sequence ((before ++ ds).map LogAppenderDefine.toNode)) ds.length
      before.length = some (ds.map LogAppenderDefine.back) := by
  induction ds generalizing before with
  | nil => rfl
  | cons d rest ih =>
      have hitem : ((before ++ d :: rest).map LogAppenderDefine.toNode)[before.length]? =
          some d.toNode := by simp
      have hrest := ih (before ++ [d]) fun e he => hds e (List.mem_cons_of_mem _ he)
      rw [List.append_assoc, List.singleton_append, List.length_append, List.length_singleton]
        at hrest
      rw [List.length_cons, readAppenders, hyaml.item_sequence _ _ _ hitem]
      simp only [Option.bind_eq_bind, Option.bind_some,
        readAppender_toNode hyaml (hds d List.mem_cons_self), hrest]
      rfl

/-- What comes back of a definition. -/
def LogDefine.back (d : LogDefine) : LogDefine :=
  { d with appenders := d.appenders.map LogAppenderDefine.back }

/-- The appenders come back. -/
theorem readAppenders_all {ds : List LogAppenderDefine} (hds : ∀ d ∈ ds, d.Produced) :
    readAppenders yaml (.sequence (ds.map LogAppenderDefine.toNode))
      (yaml.size (.sequence (ds.map LogAppenderDefine.toNode))) 0 =
      some (ds.map LogAppenderDefine.back) := by
  rw [hyaml.size_sequence, List.length_map]
  exact readAppenders_toNode hyaml [] ds hds

/-- **A definition** comes back, but for the levels of its appenders. -/
theorem readDefine_toNode {d : LogDefine} (hd : d.Produced) :
    readDefine yaml d.toNode = some d.back := by
  let formatters := if d.formatter ≠ [] then [entry "formatter" d.formatter] else []
  let appenders : List (Node × Node) := if d.appenders.isEmpty then []
    else [(.scalar (ascii "appenders"), .sequence (d.appenders.map LogAppenderDefine.toNode))]
  let entries := [entry "name" d.name, entry "level" d.level.levelToString] ++ formatters ++
    appenders
  have hnode : d.toNode = .map entries := rfl
  have hname : YamlCpp.lookup (ascii "name") entries = .scalar d.name := rfl
  have hlevel : YamlCpp.lookup (ascii "level") entries = .scalar d.level.levelToString := rfl
  have hformatter : ∃ formatter, optionalString yaml (.map entries) (ascii "formatter") =
      some formatter ∧ formatter.getD [] = d.formatter := by
    by_cases hnil : d.formatter = []
    · refine ⟨none, optionalString_undefined hyaml ?_, hnil.symm⟩
      simp only [entries, formatters, appenders, hnil]
      cases d.appenders <;> rfl
    · refine ⟨some d.formatter, optionalString_scalar hyaml ?_, rfl⟩
      simp only [entries, formatters, ne_eq, hnil, not_false_eq_true, if_true]
      rfl
  have hskip : YamlCpp.lookup (ascii "appenders") entries =
      YamlCpp.lookup (ascii "appenders") appenders := by
    by_cases hnil : d.formatter = []
    · simp only [entries, formatters, hnil]
      rfl
    · simp only [entries, formatters, ne_eq, hnil, not_false_eq_true, if_true]
      rfl
  have happenders : appendersOf yaml (.map entries) =
      some (d.appenders.map LogAppenderDefine.back) := by
    rw [appendersOf, hyaml.get_map, hskip]
    cases hds : d.appenders with
    | nil =>
        simp only [appenders, hds]
        rfl
    | cons a rest =>
        have hall := readAppenders_all hyaml hd.appenders
        simp only [appenders, hds] at hall ⊢
        exact hall
  obtain ⟨formatter, hread, hback⟩ := hformatter
  rw [hnode, readDefine, optionalString_scalar hyaml hname]
  simp only [Option.bind_eq_bind, Option.bind_some, optionalString_scalar hyaml hlevel, hread,
    happenders, Option.getD_some, hback, LogLevel.stringToLevel_levelToString hd.level]
  rfl

end Back

/-! ### Definitions that survive -/

/-- Printing the definition and reading it again gives the same definition. -/
def LogDefine.Survives (yaml : YamlCpp) (d : LogDefine) : Prop :=
  LogDefine.ofText yaml (d.toText yaml) = some d

/-- **Definitions survive printing** if no appender has the level `UNKNOW`. -/
theorem survives_iff {yaml : YamlCpp} (hyaml : yaml.Documented) {v : List UInt8} {d : LogDefine}
    (hd : LogDefine.ofText yaml v = some d)
    (hload : yaml.load (yaml.emit d.toNode) = some d.toNode) :
    d.Survives yaml ↔ ∀ a ∈ d.appenders, a.level ≠ .unknow := by
  have hproduced := ofText_produced hd
  have hback : LogDefine.ofText yaml (d.toText yaml) = some d.back := by
    rw [LogDefine.ofText, LogDefine.toText, hload]
    exact readDefine_toNode hyaml hproduced
  rw [LogDefine.Survives, hback, Option.some.injEq]
  constructor
  · intro heq a ha hunknow
    have happenders := congrArg LogDefine.appenders heq
    have hsame : ∀ a ∈ d.appenders, a.back = a :=
      List.map_inj_left.mp (happenders.trans (List.map_id _).symm)
    have hlevel := congrArg LogAppenderDefine.level (hsame a ha)
    simp [LogAppenderDefine.back, hunknow] at hlevel
  · intro hknown
    have hsame : d.appenders.map LogAppenderDefine.back = d.appenders := by
      refine (List.map_congr_left fun a ha => ?_).trans (List.map_id _)
      simp [LogAppenderDefine.back, hknown a ha]
    rw [LogDefine.back, hsame]

/-! ### Two documents -/

/-- The document of a logger with one appender of this level. -/
def rootDocument (level : String) : Node :=
  .map [entry "name" (ascii "root"), (.scalar (ascii "appenders"),
    .sequence [.map [entry "type" (ascii "StdoutLogAppender"), entry "level" (ascii level)]])]

def rootText (level : String) : List UInt8 :=
  ascii "name: root\nappenders:\n  - type: StdoutLogAppender\n    level: " ++ ascii level

/-- The definition that it describes. -/
def rootDefine (level : LogLevel) : LogDefine := ⟨ascii "root", .unknow, [], [⟨2, [], [], level⟩]⟩

/-- yaml-cpp, of which only the text of this document and what is printed of this definition
are looked at. -/
def sampleYaml (level : String) (d : LogDefine) (printed : List UInt8) : YamlCpp where
  load v :=
    if v = printed then some d.toNode
    else if v = rootText level then some (rootDocument level) else none
  emit _ := printed
  get n key := match n with
    | .map entries => some (YamlCpp.lookup key entries)
    | .scalar _ => none
    | _ => some .undefined
  size n := match n with
    | .sequence items => items.length
    | .map entries => entries.length
    | _ => 0
  item n i := match n with
    | .sequence items => some (items[i]?.getD .undefined)
    | _ => some .undefined
  asString n := match n with
    | .scalar text => some text
    | _ => none

theorem sampleYaml_documented (level : String) (d : LogDefine) (printed : List UInt8) :
    (sampleYaml level d printed).Documented where
  get_map _ _ := rfl
  size_sequence _ := rfl
  item_sequence items i node h := by
    show some (items[i]?.getD .undefined) = some node
    rw [h]
    rfl
  asString_scalar _ := rfl

theorem sampleYaml_printed (level : String) (d : LogDefine) (printed : List UInt8) :
    (sampleYaml level d printed).load ((sampleYaml level d printed).emit d.toNode) =
      some d.toNode := by
  simp [sampleYaml]

theorem sampleYaml_root {level : String} (d : LogDefine) {printed : List UInt8}
    (h : rootText level ≠ printed) :
    (sampleYaml level d printed).load (rootText level) = some (rootDocument level) := by
  simp [sampleYaml, h]

/-- What is printed when the level was `debug`. -/
def debugPrinted : List UInt8 :=
  ascii "name: root\nlevel: UNKNOW\nappenders:\n  - type: StdoutLogAppender\n    level: DEBUG"

/-- What is printed when the level was one that `stringToLevel` does not know. -/
def unknowPrinted : List UInt8 :=
  ascii "name: root\nlevel: UNKNOW\nappenders:\n  - type: StdoutLogAppender"

/-- The level `debug` comes back. -/
theorem survives_debug :
    (rootDefine .debug).Survives (sampleYaml "debug" (rootDefine .debug) debugPrinted) := by
  have hne : rootText "debug" ≠ debugPrinted := by decide +kernel
  have hread : LogDefine.ofText (sampleYaml "debug" (rootDefine .debug) debugPrinted)
      (rootText "debug") = some (rootDefine .debug) := by
    rw [LogDefine.ofText, sampleYaml_root _ hne]
    rfl
  exact (survives_iff (sampleYaml_documented _ _ _) hread (sampleYaml_printed _ _ _)).mpr
    (by simp [rootDefine])

/-- **A level that does not come back**: `verbose` is read as `UNKNOW`, which is not printed, and
then as `DEBUG`. -/
theorem not_survives_verbose :
    let yaml := sampleYaml "verbose" (rootDefine .unknow) unknowPrinted
    LogDefine.ofText yaml (rootText "verbose") = some (rootDefine .unknow) ∧
      LogDefine.ofText yaml ((rootDefine .unknow).toText yaml) = some (rootDefine .debug) ∧
      ¬ (rootDefine .unknow).Survives yaml := by
  intro yaml
  have hne : rootText "verbose" ≠ unknowPrinted := by decide +kernel
  have hback : LogDefine.ofText yaml ((rootDefine .unknow).toText yaml) =
      some (rootDefine .debug) := by
    rw [LogDefine.ofText, LogDefine.toText, sampleYaml_printed]
    rfl
  refine ⟨?_, hback, ?_⟩
  · rw [LogDefine.ofText, sampleYaml_root _ hne]
    rfl
  · intro hsurvives
    rw [LogDefine.Survives, hback, Option.some.injEq] at hsurvives
    have hlevels := congrArg (fun d => d.appenders.map LogAppenderDefine.level) hsurvives
    exact absurd hlevels (by decide)

end Mingo
