import Mingo.Http.Dump
import Mingo.Log.Basic

/-!
# What a formatter makes of its pattern

`LogFormatter::init` cuts the pattern into items, and `format` writes them one
after the other.  The scanner goes over to the state `CREATE_STATUS` at a `%`.
When the pattern is over in that state, nobody notices.

* `initAt_eq` -- the loop with its indices is the scanner of the pattern's
  characters;
* `init_reading` -- what the scanner makes of a pattern, wherever it starts;
* `faithful_iff` -- the patterns that are read as they should be.
-/

namespace Mingo

open Http (decimal)

/-- `LogLevel::levelToString`. -/
def LogLevel.levelToString : LogLevel → List UInt8
  | .debug => ascii "DEBUG"
  | .info => ascii "INFO"
  | .warn => ascii "WARN"
  | .error => ascii "ERROR"
  | .fatal => ascii "FATAL"
  | _ => ascii "UNKNOW"

/-- `LogEvent`. -/
structure LogEvent where
  file : List UInt8
  level : LogLevel
  line : UInt32
  threadId : UInt32
  fiberId : UInt32
  time : UInt32
  content : List UInt8
  threadName : List UInt8
  deriving DecidableEq, Repr

/-- `FormatItem::format`; `strftime` writes a time as the time zone wants it. -/
def FormatItem.format (strftime : UInt32 → List UInt8) (logger : Logger) (event : LogEvent) :
    FormatItem → List UInt8
  | .plain s => s
  | .level => event.level.levelToString
  | .filename => event.file
  | .line => decimal event.line.toNat
  | .time => strftime event.time
  | .threadId => decimal event.threadId.toNat
  | .fiberId => decimal event.fiberId.toNat
  | .content => event.content
  | .newLine => [10]
  | .percentSign => [37]
  | .tab => [9]
  | .name => logger.name
  | .threadName => event.threadName

/-- `LogFormatter::format`. -/
def LogFormatter.format (strftime : UInt32 → List UInt8) (f : LogFormatter) (logger : Logger)
    (event : LogEvent) : List UInt8 :=
  f.items.flatMap (FormatItem.format strftime logger event)

/-! ### The loop and its indices -/

/-- The loop of `init` from the index `i` on; `create` says whether `STATUS` is
`CREATE_STATUS`. -/
def LogFormatter.initAt (pattern : List UInt8) (create : Bool) (i : Nat) : List FormatItem × Bool :=
  if h : i < pattern.length then
    if create then
      match formatItemMap.lookup pattern[i] with
      | none => ([], true)
      | some item =>
          let r := LogFormatter.initAt pattern false (i + 1)
          (item :: r.1, r.2)
    else
      let strBegin := i
      -- the inner loop stops at the next `%`, or at the end
      let strEnd := i + ((pattern.drop i).takeWhile (· ≠ 37)).length
      let r := LogFormatter.initAt pattern (decide (strEnd < pattern.length)) (strEnd + 1)
      (.plain ((pattern.drop strBegin).take (strEnd - strBegin)) :: r.1, r.2)
  else ([], false)
termination_by pattern.length - i

/-- The inner loop takes the characters in front of the next `%`. -/
theorem ParseStatus.init_scanning (passed cs : List UInt8) :
    ParseStatus.init (.scanning passed) cs =
      match cs.dropWhile (· ≠ 37) with
      | [] => ([.plain (passed ++ cs.takeWhile (· ≠ 37))], false)
      | _ :: rest =>
          (.plain (passed ++ cs.takeWhile (· ≠ 37)) :: (ParseStatus.init .create rest).1,
            (ParseStatus.init .create rest).2) := by
  induction cs generalizing passed with
  | nil => simp [ParseStatus.init]
  | cons c cs ih =>
      by_cases hc : c = 37
      · subst hc
        simp [ParseStatus.init]
      · rw [ParseStatus.init, if_neg hc, ih]
        simp [hc]

/-- **The loop of the source** scans the rest of the pattern. -/
theorem LogFormatter.initAt_eq (pattern : List UInt8) (create : Bool) (i : Nat) :
    LogFormatter.initAt pattern create i =
      ParseStatus.init (if create then .create else .scan) (pattern.drop i) := by
  fun_induction LogFormatter.initAt pattern create i with
  | case1 i h hlookup =>
      rw [List.drop_eq_getElem_cons h, if_pos rfl, ParseStatus.init, hlookup]
  | case2 i h item hlookup r ih =>
      rw [List.drop_eq_getElem_cons h, if_pos rfl, ParseStatus.init, hlookup]
      exact congrArg (fun r => (item :: r.1, r.2)) ih
  | case3 create i h hcreate strBegin strEnd r ih =>
      have hscan : ParseStatus.init .scan (pattern.drop i) =
          ParseStatus.init (.scanning []) (pattern.drop i) := by
        rw [List.drop_eq_getElem_cons h]
        rfl
      have hcount : strEnd - strBegin = ((pattern.drop i).takeWhile (· ≠ 37)).length := by
        simp only [strEnd, strBegin, Nat.add_sub_cancel_left]
      have hpiece : (pattern.drop strBegin).take (strEnd - strBegin) =
          (pattern.drop i).takeWhile (· ≠ 37) := by
        rw [hcount]
        exact (List.prefix_iff_eq_take.mp (List.takeWhile_prefix _)).symm
      have hrest : (pattern.drop i).dropWhile (· ≠ 37) = pattern.drop strEnd := by
        have hsplit := List.takeWhile_append_dropWhile (p := (· ≠ 37)) (l := pattern.drop i)
        have hall := List.take_append_drop (strEnd - strBegin) (pattern.drop i)
        rw [hpiece] at hall
        have hdrop := List.append_cancel_left (hsplit.trans hall.symm)
        rw [hdrop, List.drop_drop]
        congr 1
        omega
      rw [if_neg hcreate, hscan, ParseStatus.init_scanning, hrest, hpiece, List.nil_append]
      by_cases hend : strEnd < pattern.length
      · rw [decide_eq_true hend, if_pos rfl] at ih
        rw [List.drop_eq_getElem_cons hend]
        simp only [r, ih, decide_eq_true hend]
      · have hover : pattern.length ≤ strEnd := Nat.le_of_not_lt hend
        rw [decide_eq_false hend, if_neg Bool.false_ne_true,
          List.drop_eq_nil_of_le (Nat.le_succ_of_le hover)] at ih
        rw [List.drop_eq_nil_of_le hover]
        simp only [r, ih, decide_eq_false hend, ParseStatus.init]
  | case4 create i h =>
      rw [List.drop_eq_nil_of_le (by omega)]
      cases create <;> rfl

/-! ### The specification -/

/-- What a pattern consists of, read from the left: characters, and directives of two
characters. -/
inductive PatternToken
  | ordinary (c : UInt8)
  | directive (c : UInt8)
  deriving DecidableEq, Repr

def PatternToken.text : PatternToken → List UInt8
  | .ordinary c => [c]
  | .directive c => [37, c]

/-- The letters that may follow a `%`. -/
def directiveLetters : List UInt8 := ascii "pfldtFmn%TcN"

/-- How the reading of a pattern ends. -/
inductive ReadingEnd
  | complete
  /-- at a `%` that no letter of a directive follows -/
  | stray
  /-- at a `%` that nothing follows -/
  | trailing
  deriving DecidableEq, Repr

/-- The pattern, read from the left. -/
def readPattern : List UInt8 → List PatternToken × ReadingEnd
  | [] => ([], .complete)
  | c :: cs =>
      if c = 37 then
        match cs with
        | [] => ([], .trailing)
        | d :: rest =>
            if d ∈ directiveLetters then
              let r := readPattern rest
              (.directive d :: r.1, r.2)
            else ([], .stray)
      else
        let r := readPattern cs
        (.ordinary c :: r.1, r.2)

/-- What stands for a token in the output. -/
def PatternToken.output (strftime : UInt32 → List UInt8) (logger : Logger) (event : LogEvent) :
    PatternToken → List UInt8
  | .ordinary c => [c]
  | .directive c =>
      match formatItemMap.lookup c with
      | some item => item.format strftime logger event
      | none => []

/-- The error flag is set for the patterns that cannot be read to their end.  Of any other
pattern no character is lost, and the output is its expansion. -/
def Faithful (strftime : UInt32 → List UInt8) (pattern : List UInt8) : Prop :=
  ((LogFormatter.new pattern).isError = true ↔ (readPattern pattern).2 ≠ .complete) ∧
    ((LogFormatter.new pattern).isError = false →
      (readPattern pattern).1.flatMap PatternToken.text = pattern ∧
      ∀ logger event, (LogFormatter.new pattern).format strftime logger event =
        (readPattern pattern).1.flatMap (PatternToken.output strftime logger event))

/-! ### Reading -/

theorem mem_directiveLetters {d : UInt8} :
    d ∈ directiveLetters ↔ (formatItemMap.lookup d).isSome := by
  have hletters : directiveLetters = formatItemMap.map Prod.fst := rfl
  rw [hletters, List.mem_map, List.lookup_isSome_iff]
  constructor
  · rintro ⟨entry, hentry, rfl⟩
    exact ⟨entry, hentry, beq_self_eq_true _⟩
  · rintro ⟨entry, hentry, hkey⟩
    exact ⟨entry, hentry, (eq_of_beq hkey).symm⟩

/-- A pattern that is read to its end is the text of its tokens. -/
theorem readPattern_text (pattern : List UInt8) (h : (readPattern pattern).2 = .complete) :
    (readPattern pattern).1.flatMap PatternToken.text = pattern := by
  fun_induction readPattern pattern with
  | case1 => rfl
  | case2 => cases h
  | case3 d rest hletter r ih =>
      rw [List.flatMap_cons, ih h]
      rfl
  | case4 => cases h
  | case5 c cs hc r ih =>
      rw [List.flatMap_cons, ih h]
      rfl

theorem readPattern_directive {d : UInt8} (hletter : d ∈ directiveLetters) (rest : List UInt8) :
    readPattern (37 :: d :: rest) =
      (.directive d :: (readPattern rest).1, (readPattern rest).2) := by
  rw [readPattern.eq_def]
  exact (if_pos rfl).trans (if_pos hletter)

theorem readPattern_ordinary {c : UInt8} (hc : c ≠ 37) (cs : List UInt8) :
    readPattern (c :: cs) = (.ordinary c :: (readPattern cs).1, (readPattern cs).2) := by
  rw [readPattern.eq_def]
  exact if_neg hc

/-- The reading goes on behind a pattern that is read to its end. -/
theorem readPattern_append (front rest : List UInt8) (h : (readPattern front).2 = .complete) :
    readPattern (front ++ rest) =
      ((readPattern front).1 ++ (readPattern rest).1, (readPattern rest).2) := by
  fun_induction readPattern front with
  | case1 => rfl
  | case2 => cases h
  | case3 d front hletter r ih =>
      rw [List.cons_append, List.cons_append, readPattern_directive hletter, ih h]
      rfl
  | case4 => cases h
  | case5 c front hc r ih =>
      rw [List.cons_append, readPattern_ordinary hc, ih h]
      rfl

/-- **A pattern ends in `%`** in the place of a directive. -/
theorem readPattern_trailing_iff (pattern : List UInt8) :
    (readPattern pattern).2 = .trailing ↔
      ∃ front, pattern = front ++ [37] ∧ (readPattern front).2 = .complete := by
  constructor
  · intro h
    fun_induction readPattern pattern with
    | case1 => cases h
    | case2 => exact ⟨[], rfl, rfl⟩
    | case3 d rest hletter r ih =>
        obtain ⟨front, rfl, hfront⟩ := ih h
        exact ⟨37 :: d :: front, rfl, by rw [readPattern_directive hletter, hfront]⟩
    | case4 => cases h
    | case5 c rest hc r ih =>
        obtain ⟨front, rfl, hfront⟩ := ih h
        exact ⟨c :: front, rfl, by rw [readPattern_ordinary hc, hfront]⟩
  · rintro ⟨front, rfl, hfront⟩
    rw [readPattern_append front [37] hfront]
    rfl

section Output

variable (strftime : UInt32 → List UInt8) (logger : Logger) (event : LogEvent)

/-- What the items write. -/
def itemsOutput (items : List FormatItem) : List UInt8 :=
  items.flatMap (FormatItem.format strftime logger event)

/-- An empty item in front makes no difference. -/
theorem init_scan (cs : List UInt8) :
    (ParseStatus.init .scan cs).2 = (ParseStatus.init (.scanning []) cs).2 ∧
      itemsOutput strftime logger event (ParseStatus.init .scan cs).1 =
        itemsOutput strftime logger event (ParseStatus.init (.scanning []) cs).1 := by
  cases cs <;> exact ⟨rfl, rfl⟩

/-- **The scanner** stops at a stray `%`, and otherwise writes the expansion: by induction on
the reading, with what the inner loop has passed. -/
theorem init_reading (passed cs : List UInt8) :
    ((ParseStatus.init (.scanning passed) cs).2 = true ↔ (readPattern cs).2 = .stray) ∧
      ((readPattern cs).2 ≠ .stray →
        itemsOutput strftime logger event (ParseStatus.init (.scanning passed) cs).1 =
          passed ++ (readPattern cs).1.flatMap (PatternToken.output strftime logger event)) := by
  fun_induction readPattern cs generalizing passed with
  | case1 => simp [ParseStatus.init, itemsOutput, FormatItem.format]
  | case2 => simp [ParseStatus.init, itemsOutput, FormatItem.format]
  | case3 d rest hletter r ih =>
      obtain ⟨item, hitem⟩ := Option.isSome_iff_exists.mp (mem_directiveLetters.mp hletter)
      obtain ⟨hflag, houtput⟩ := ih []
      obtain ⟨hscan, hitems⟩ := init_scan strftime logger event rest
      have hinit : ParseStatus.init (.scanning passed) (37 :: d :: rest) =
          (.plain passed :: item :: (ParseStatus.init .scan rest).1,
            (ParseStatus.init .scan rest).2) := by
        rw [ParseStatus.init, if_pos rfl, ParseStatus.init, hitem]
      rw [hinit]
      refine ⟨hscan ▸ hflag, ?_⟩
      intro hread
      have hrest := houtput hread
      rw [← hitems] at hrest
      rw [List.flatMap_cons, PatternToken.output, hitem]
      simp only [itemsOutput, List.flatMap_cons, FormatItem.format] at hrest ⊢
      rw [hrest]
      rfl
  | case4 d rest hletter =>
      have hitem : formatItemMap.lookup d = none := by
        rw [mem_directiveLetters, Option.not_isSome_iff_eq_none] at hletter
        exact hletter
      have hinit : ParseStatus.init (.scanning passed) (37 :: d :: rest) =
          ([.plain passed], true) := by
        rw [ParseStatus.init, if_pos rfl, ParseStatus.init, hitem]
      rw [hinit]
      exact ⟨iff_of_true rfl rfl, fun h => absurd rfl h⟩
  | case5 c cs hc r ih =>
      obtain ⟨hflag, houtput⟩ := ih (passed ++ [c])
      rw [ParseStatus.init, if_neg hc]
      refine ⟨hflag, ?_⟩
      intro hread
      rw [houtput hread, List.append_assoc]
      rfl

/-- The same of the whole pattern. -/
theorem new_reading (pattern : List UInt8) :
    ((LogFormatter.new pattern).isError = true ↔ (readPattern pattern).2 = .stray) ∧
      ((readPattern pattern).2 ≠ .stray →
        (LogFormatter.new pattern).format strftime logger event =
          (readPattern pattern).1.flatMap (PatternToken.output strftime logger event)) := by
  obtain ⟨hscan, hitems⟩ := init_scan strftime logger event pattern
  obtain ⟨hflag, houtput⟩ := init_reading strftime logger event [] pattern
  rw [← hscan] at hflag
  exact ⟨hflag, fun hread => hitems.trans (houtput hread)⟩

end Output

/-- A logger and an event, to look at an error flag with. -/
def sampleEvent : LogEvent := ⟨[], .debug, 0, 0, 0, 0, [], []⟩

/-- **The pattern parser** misses the `%` at the end of a pattern, and nothing else. -/
theorem faithful_iff (strftime : UInt32 → List UInt8) (pattern : List UInt8) :
    Faithful strftime pattern ↔ (readPattern pattern).2 ≠ .trailing := by
  obtain ⟨hflag, -⟩ := new_reading strftime (Logger.new []) sampleEvent pattern
  rw [Faithful, hflag]
  constructor
  · rintro ⟨herror, -⟩ htrailing
    rw [htrailing] at herror
    exact absurd (herror.mpr nofun) nofun
  · intro htrailing
    constructor
    · cases hread : (readPattern pattern).2 with
      | complete => simp
      | stray => simp
      | trailing => exact absurd hread htrailing
    · intro hclean
      have hstray : (readPattern pattern).2 ≠ .stray := by
        intro hstray
        rw [hflag.mpr hstray] at hclean
        cases hclean
      have hcomplete : (readPattern pattern).2 = .complete := by
        cases hread : (readPattern pattern).2 with
        | complete => rfl
        | stray => exact absurd hread hstray
        | trailing => exact absurd hread htrailing
      refine ⟨readPattern_text pattern hcomplete, ?_⟩
      intro logger event
      exact (new_reading strftime logger event pattern).2 hstray

/-- **A lost `%`**: the pattern `100%` is written as `100`, without an error. -/
theorem not_faithful_hundred :
    (LogFormatter.new (ascii "100%")).isError = false ∧
      (LogFormatter.new (ascii "100%")).format (fun _ => []) (.new []) sampleEvent = ascii "100" ∧
      ¬ Faithful (fun _ => []) (ascii "100%") := by
  refine ⟨rfl, rfl, ?_⟩
  rintro ⟨herror, -⟩
  exact absurd (herror.mpr (by decide)) (by decide)

/-- The pattern of every logger is read to its end. -/
example : (readPattern Logger.formatPattern).2 = .complete := by decide +kernel

end Mingo
