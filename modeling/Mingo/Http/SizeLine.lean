import Mingo.Http.Chunked

/-!
# Size lines

The lines that `Chunked_Header` of httpclient_parser.rl takes in front of a chunk: hex
digits, a `chunk_extension` of names and values, and CRLF.

* `execute_sizeLine` -- a call on a buffer with a whole line takes just the line, and knows
  the size behind it.
-/

namespace Mingo.Http

open Scanner (Rule events)
open HttpResponseParser (scanner)

/-- A byte of `token`. -/
def isTokenByte (b : UInt8) : Bool := Scanner.inClass ResponseTable.token b

/-- One element of a `chunk_extension`. -/
structure ChunkExtension where
  name : List UInt8
  value : Option (List UInt8)

namespace ChunkExtension

/-- The value behind its `=`. -/
def valueBytes (e : ChunkExtension) : List UInt8 := e.value.elim [] (61 :: ·)

def bytes (e : ChunkExtension) : List UInt8 := 59 :: (e.name ++ e.valueBytes)

/-- Names and values are tokens. -/
structure WellFormed (e : ChunkExtension) : Prop where
  name_ne : e.name ≠ []
  name : ∀ b ∈ e.name, isTokenByte b = true
  value_ne : e.value ≠ some []
  value : ∀ v, e.value = some v → ∀ b ∈ v, isTokenByte b = true

end ChunkExtension

/-- A size line. -/
structure SizeLine where
  digits : List UInt8
  extensions : List ChunkExtension
  digits_ne : digits ≠ []
  hex : ∀ b ∈ digits, digitValue b < 16
  wellFormed : ∀ e ∈ extensions, e.WellFormed

namespace SizeLine

/-- What stands behind the digits, up to the line feed. -/
def behind (line : SizeLine) : List UInt8 := line.extensions.flatMap ChunkExtension.bytes ++ [13]

def bytes (line : SizeLine) : List UInt8 := line.digits ++ line.behind ++ [10]

/-- The number that the digits form. -/
def size (line : SizeLine) : Nat := digitsValue 16 0 line.digits

end SizeLine

variable {q q' q'' : Nat} {b : UInt8} {bs bs' buf : List UInt8} {r : Rule ResponseAction}
  {s t : HttpResponseParser}

/-! ### The walk through a line -/

/-- The rule neither ends the scan nor does it set a size. -/
def QuietRule (r : Rule ResponseAction) : Prop :=
  .chunkSize ∉ r.acts ∧ .writeContentLen ∉ r.acts ∧ .done ∉ r.acts

instance (r : Rule ResponseAction) : Decidable (QuietRule r) :=
  inferInstanceAs (Decidable (_ ∧ _ ∧ _))

/-- The bytes lead from `q` to `q'` by such rules. -/
def Leads (q : Nat) (bs : List UInt8) (q' : Nat) : Prop :=
  ∃ rs, scanner.follow q bs = some rs ∧ Scanner.lastState q rs = q' ∧ ∀ r ∈ rs, QuietRule r

theorem Leads.nil (q : Nat) : Leads q [] q := ⟨[], rfl, rfl, by simp⟩

theorem Leads.cons (hrule : scanner.rule q b = some r) (hr : QuietRule r)
    (h : Leads r.next bs q') : Leads q (b :: bs) q' := by
  obtain ⟨rs, hfollow, hlast, hquiet⟩ := h
  exact ⟨r :: rs, by simp [Scanner.follow, hrule, hfollow], hlast, by simpa [hr] using hquiet⟩

theorem rule_of_firstFits {class_ : List (Nat × Nat)}
    (h : Scanner.firstFits r class_ (scanner.rules q) = true)
    (hb : Scanner.inClass class_ b = true) : scanner.rule q b = some r :=
  Scanner.find_of_firstFits _ h hb

/-- Bytes of a class on which the state stays as it is. -/
theorem leads_class {class_ : List (Nat × Nat)} (h : Scanner.firstFits r class_ (scanner.rules q))
    (hr : QuietRule r) (hnext : r.next = q) (hbs : ∀ b ∈ bs, Scanner.inClass class_ b = true)
    (hrest : Leads q bs' q') : Leads q (bs ++ bs') q' := by
  induction bs with
  | nil => exact hrest
  | cons b bs ih =>
      refine .cons (rule_of_firstFits h (hbs b (by simp))) hr ?_
      rw [hnext]
      exact ih fun b' hb' => hbs b' (by simp [hb'])

/-- A token, of which the first byte leads to the state of the others. -/
theorem leads_token {f : Rule ResponseAction}
    (hfirst : Scanner.firstFits f ResponseTable.token (scanner.rules q) = true)
    (hf : QuietRule f)
    (hother : Scanner.firstFits r ResponseTable.token (scanner.rules f.next) = true)
    (hr : QuietRule r) (hnext : r.next = f.next) (hne : bs ≠ [])
    (hbs : ∀ b ∈ bs, isTokenByte b = true) (hrest : Leads f.next bs' q') :
    Leads q (bs ++ bs') q' := by
  obtain ⟨b, bs, rfl⟩ := List.exists_cons_of_ne_nil hne
  exact .cons (rule_of_firstFits hfirst (hbs b (by simp))) hf
    (leads_class hother hr hnext (fun b' hb' => hbs b' (by simp [hb'])) hrest)

/-- The name and the value of an extension. -/
theorem leads_extension {e : ChunkExtension} (he : e.WellFormed) (hname : Leads 5 bs q')
    (hvalue : Leads 7 bs q') : Leads 4 (e.name ++ e.valueBytes ++ bs) q' := by
  obtain ⟨hname_ne, hnames, hvalue_ne, hvalues⟩ := he
  rw [List.append_assoc]
  refine leads_token (f := Scanner.on ResponseTable.token [.startField] 5)
    (r := Scanner.on ResponseTable.token [] 5) (by decide) (by decide) (by decide) (by decide)
    rfl hname_ne hnames ?_
  rw [ChunkExtension.valueBytes]
  cases hv : e.value with
  | none => exact hname
  | some v =>
      refine .cons (r := Scanner.byte 61 [.writeField, .startValue] 6) (by decide) (by decide) ?_
      exact leads_token (f := Scanner.on ResponseTable.token [.startValue] 7)
        (r := Scanner.on ResponseTable.token [] 7) (by decide) (by decide) (by decide) (by decide)
        rfl (by simpa [hv] using hvalue_ne) (hvalues v hv) hvalue

/-- Behind a name or a value, the other extensions lead to the end of the line. -/
theorem leads_extensions (es : List ChunkExtension) (hes : ∀ e ∈ es, e.WellFormed) :
    Leads 5 (es.flatMap ChunkExtension.bytes ++ [13]) 3 ∧
      Leads 7 (es.flatMap ChunkExtension.bytes ++ [13]) 3 := by
  induction es with
  | nil =>
      exact ⟨.cons (r := Scanner.byte 13 [.writeField, .startValue, .writeValue] 3) (by decide)
          (by decide) (.nil 3),
        .cons (r := Scanner.byte 13 [.writeValue] 3) (by decide) (by decide) (.nil 3)⟩
  | cons e es ih =>
      obtain ⟨hname, hvalue⟩ := ih fun e' he' => hes e' (by simp [he'])
      have hrest := leads_extension (hes e (by simp)) hname hvalue
      have hbytes : (e :: es).flatMap ChunkExtension.bytes ++ [13] =
          59 :: (e.name ++ e.valueBytes ++ (es.flatMap ChunkExtension.bytes ++ [13])) := by
        simp [ChunkExtension.bytes]
      rw [hbytes]
      exact ⟨.cons (r := Scanner.byte 59 [.writeField, .startValue, .writeValue] 4) (by decide)
          (by decide) hrest,
        .cons (r := Scanner.byte 59 [.writeValue] 4) (by decide) (by decide) hrest⟩

/-- **Behind the digits** the size is set by the first byte, and by no other. -/
theorem SizeLine.behind_cons (line : SizeLine) :
    ∃ b bs r, line.behind = b :: bs ∧ (b = 13 ∨ b = 59) ∧ scanner.rule 2 b = some r ∧
      r.acts = [.chunkSize] ∧ Leads r.next bs 3 := by
  rw [behind]
  cases hes : line.extensions with
  | nil =>
      exact ⟨13, [], Scanner.byte 13 [.chunkSize] 3, rfl, .inl rfl, by decide, rfl, .nil 3⟩
  | cons e es =>
      have hwell := line.wellFormed
      rw [hes] at hwell
      obtain ⟨hname, hvalue⟩ := leads_extensions es fun e' he' => hwell e' (by simp [he'])
      refine ⟨59, _, Scanner.byte 59 [.chunkSize] 4, ?_, .inr rfl, by decide, rfl,
        leads_extension (hwell e (by simp)) hname hvalue⟩
      simp [ChunkExtension.bytes]

theorem inClass_xdigit (h : digitValue b < 16) : Scanner.inClass Scanner.xdigit b = true := by
  have hall := Scanner.forall_byte
    (P := fun b => !decide (digitValue b < 16) || Scanner.inClass Scanner.xdigit b)
    (by decide +kernel) b
  simpa [h] using hall

/-- The digits set the mark at their start. -/
theorem follow_digits (hne : bs ≠ []) (hhex : ∀ b ∈ bs, digitValue b < 16) :
    scanner.follow 1 bs = some (Scanner.on Scanner.xdigit [.mark] 2 ::
      List.replicate (bs.length - 1) (Scanner.on Scanner.xdigit [] 2)) := by
  have hfirst : Scanner.firstFits (Scanner.on Scanner.xdigit [.mark] 2) Scanner.xdigit
      (scanner.rules 1) = true := by decide
  have hother : Scanner.firstFits (Scanner.on Scanner.xdigit [] 2) Scanner.xdigit
      (scanner.rules 2) = true := by decide
  have hrest : ∀ bs : List UInt8, (∀ b ∈ bs, digitValue b < 16) →
      scanner.follow 2 bs =
        some (List.replicate bs.length (Scanner.on Scanner.xdigit [] 2)) := by
    intro bs hbs
    induction bs with
    | nil => rfl
    | cons b bs ih =>
        have hrule := rule_of_firstFits hother (inClass_xdigit (hbs b (by simp)))
        have hih := ih fun b' hb' => hbs b' (by simp [hb'])
        simp only [Scanner.follow, hrule, Option.bind_some, Scanner.on] at hih ⊢
        rw [hih]
        rfl
  obtain ⟨b, bs, rfl⟩ := List.exists_cons_of_ne_nil hne
  have hrule := rule_of_firstFits hfirst (inClass_xdigit (hhex b (by simp)))
  have htail := hrest bs fun b' hb' => hhex b' (by simp [hb'])
  simp only [Scanner.follow, hrule, Option.bind_some, Scanner.on] at htail ⊢
  rw [htail]
  rfl

/-- A scan of a line: the digits, the byte behind them, and what sets no size. -/
theorem SizeLine.walk_bytes (line : SizeLine) :
    ∃ r rs, scanner.walk 1 line.bytes = some (Scanner.on Scanner.xdigit [.mark] 2 ::
          List.replicate (line.digits.length - 1) (Scanner.on Scanner.xdigit [] 2) ++
        r :: rs ++ [Scanner.byte 10 [.done] 120]) ∧
      r.acts = [.chunkSize] ∧ ∀ r' ∈ rs, QuietRule r' := by
  obtain ⟨b, bs, r, hbehind, _, hrule, hacts, rs, hfollow, hlast, hquiet⟩ := line.behind_cons
  refine ⟨r, rs, ?_, hacts, hquiet⟩
  have hdigits := follow_digits line.digits_ne line.hex
  have hstate : Scanner.lastState 1 (Scanner.on Scanner.xdigit [ResponseAction.mark] 2 ::
      List.replicate (line.digits.length - 1) (Scanner.on Scanner.xdigit [] 2)) = 2 := by
    generalize line.digits.length - 1 = n
    induction n with
    | zero => rfl
    | succ n ih => exact ih
  have hall : scanner.follow 1 (line.digits ++ line.behind) = _ :=
    Scanner.follow_append_eq hdigits
  rw [hstate, hbehind] at hall
  simp only [Scanner.follow, hrule, hfollow, Option.bind_some, Option.map_some] at hall
  rw [← hbehind] at hall
  refine Scanner.walk_of_follow hall ?_ ?_ (by decide)
  · intro r' hr'
    rw [Bool.eq_false_iff, ne_eq, HttpResponseParser.ends_iff]
    rcases List.mem_append.mp hr' with hr' | hr'
    · rcases List.mem_cons.mp hr' with rfl | hr'
      · simp [Scanner.on]
      · simp [List.eq_of_mem_replicate hr', Scanner.on]
    · rcases List.mem_cons.mp hr' with rfl | hr'
      · simp [hacts]
      · exact (hquiet r' hr').2.2
  · rw [Scanner.lastState_append, hstate, Scanner.lastState, hlast]
    decide

/-! ### The size -/

theorem act_size {a : ResponseAction} {p : Nat} (hsize : a ≠ .chunkSize)
    (hlen : a ≠ .writeContentLen) (h : HttpResponseParser.act buf p a s = some t) :
    t.parser.contentLen = s.parser.contentLen ∧ t.parser.chunksDone = s.parser.chunksDone := by
  cases a with
  | chunkSize => exact absurd rfl hsize
  | writeContentLen => exact absurd rfl hlen
  | httpVersion =>
      obtain ⟨v, _, rfl⟩ := Option.map_eq_some_iff.mp h
      rw [(HttpResponseParser.onResponseVersion_keeps s v).2.1]
      exact ⟨rfl, rfl⟩
  | writeValue =>
      obtain ⟨v, _, rfl⟩ := Option.map_eq_some_iff.mp h
      rw [(HttpResponseParser.onResponseHttpField_keeps s _ v _).2.1]
      exact ⟨rfl, rfl⟩
  | reasonPhrase =>
      obtain ⟨v, _, rfl⟩ := Option.map_eq_some_iff.mp h
      exact ⟨rfl, rfl⟩
  | _ =>
      cases h
      exact ⟨rfl, rfl⟩

theorem perform_size {es : List (Nat × ResponseAction)}
    (hes : ∀ e ∈ es, e.2 ≠ .chunkSize ∧ e.2 ≠ .writeContentLen)
    (h : Scanner.perform (HttpResponseParser.act buf) es s = some t) :
    t.parser.contentLen = s.parser.contentLen ∧ t.parser.chunksDone = s.parser.chunksDone := by
  induction es generalizing s with
  | nil =>
      cases h
      exact ⟨rfl, rfl⟩
  | cons e es ih =>
      obtain ⟨u, hu, hrest⟩ := Option.bind_eq_some_iff.mp h
      obtain ⟨hsize, hlen⟩ := hes e (by simp)
      obtain ⟨hfirst, hdone⟩ := act_size hsize hlen hu
      obtain ⟨hfirst', hdone'⟩ := ih (fun e' he' => hes e' (by simp [he'])) hrest
      exact ⟨hfirst'.trans hfirst, hdone'.trans hdone⟩

/-- The rules behind the digits set no size. -/
theorem events_behind {rs : List (Rule ResponseAction)} (h : ∀ r ∈ rs, QuietRule r) (p : Nat) :
    ∀ e ∈ events p (rs ++ [Scanner.byte 10 [.done] 120]),
      e.2 ≠ .chunkSize ∧ e.2 ≠ .writeContentLen := by
  intro e he
  obtain ⟨i, r, hget, _, ha⟩ := Scanner.mem_events he
  rcases List.mem_append.mp (List.mem_of_getElem? hget) with hr | hr
  · obtain ⟨hsize, hlen, _⟩ := h r hr
    exact ⟨fun heq => hsize (heq ▸ ha), fun heq => hlen (heq ▸ ha)⟩
  · rw [List.mem_singleton.mp hr] at ha
    simp [List.mem_singleton.mp ha]

/-- Digits are not taken for the mark `0x`. -/
theorem skipMark_digits (hbs : ∀ b ∈ bs, digitValue b < 16) (hb : b = 13 ∨ b = 59)
    (rest : List UInt8) : skipMark 16 (bs ++ b :: rest) = bs ++ b :: rest := by
  have hno : ∀ x : UInt8, digitValue x < 16 ∨ x = 13 ∨ x = 59 → ¬ (x = 88 ∨ x = 120) := by
    rintro x hx (rfl | rfl)
    · exact absurd hx (by decide)
    · exact absurd hx (by decide)
  rw [skipMark.eq_def]
  split
  · next x text heq =>
      have hdigit : digitValue x < 16 ∨ x = 13 ∨ x = 59 := by
        cases bs with
        | nil => rcases hb with rfl | rfl <;> cases heq
        | cons b₁ bs =>
            cases bs with
            | nil => exact .inr ((List.cons.inj (List.cons.inj heq).2).1 ▸ hb)
            | cons b₂ bs =>
                left
                rw [← (List.cons.inj (List.cons.inj heq).2).1]
                exact hbs b₂ (by simp)
      have hmark : ¬ (16 = 16 ∧ (x = 88 ∨ x = 120)) := fun h => hno x hdigit h.2
      rw [if_neg hmark, heq]
  · rfl

/-- `strtol` on a size line. -/
theorem SizeLine.strtol_bytes (line : SizeLine) (h : line.size < 2 ^ 31) (more : List UInt8) :
    longToInt (strtol 16 (line.bytes ++ more)) = line.size := by
  obtain ⟨b, bs, _, hbehind, hb, _⟩ := line.behind_cons
  have hno : ¬ digitValue b < 16 := by
    rcases hb with rfl | rfl
    · decide
    · decide
  have hno' : ∀ x, (b :: (bs ++ [10] ++ more)).head? = some x → ¬ digitValue x < 16 := by
    rintro x ⟨⟩
    exact hno
  have htext : line.bytes ++ more = line.digits ++ b :: (bs ++ [10] ++ more) := by
    simp [bytes, hbehind]
  have hhead : ∀ x, (line.digits ++ b :: (bs ++ [10] ++ more)).head? = some x →
      digitValue x < 36 := by
    intro x hx
    rw [List.head?_append_of_ne_nil _ line.digits_ne] at hx
    have := line.hex x (List.mem_of_mem_head? hx)
    omega
  rw [htext, strtol_of_digit hhead, skipMark_digits line.hex hb, digitsValue_append hno', ← size]
  have hmin : (min (2 ^ 63 - 1) (line.size : Nat) : Int) = line.size := by omega
  rw [hmin, longToInt_of_lt h]

/-- **A call on a buffer with a whole size line.** -/
theorem execute_sizeLine (herror : s.error = 0) (line : SizeLine) (hsmall : line.size < 2 ^ 31)
    (more : List UInt8) :
    ∃ s', HttpResponseParser.execute true s (line.bytes ++ more) = some (more, s') ∧
      s'.error = 0 ∧ s'.hasError = false ∧ s'.isFinished = true ∧
      s'.parser.contentLen = line.size ∧ s'.parser.chunksDone = decide (line.size = 0) := by
  obtain ⟨r, rs, hwalk, hacts, hquiet⟩ := line.walk_bytes
  have hhead : line.bytes.head? ≠ some 72 := by
    intro h
    rw [SizeLine.bytes, List.append_assoc, List.head?_append_of_ne_nil _ line.digits_ne] at h
    exact absurd (line.hex 72 (List.mem_of_mem_head? h)) (by decide)
  obtain ⟨t, s', hperform, hexecute, hparser, herror'⟩ :=
    Connection.execute_line_last herror hwalk hhead more
  have hlast : s'.parser.cs = 120 := by
    rw [hparser, Scanner.lastState_append]
    rfl
  refine ⟨s', hexecute, herror', ?_, ?_, ?_⟩
  · simp [HttpResponseParser.hasError, HttpClientParser.hasError, hlast, herror']
  · simp [HttpResponseParser.isFinished, HttpClientParser.isFinished, hlast]
  have hdigits : ∀ p, events p (List.replicate (line.digits.length - 1)
      (Scanner.on Scanner.xdigit ([] : List ResponseAction) 2)) = [] := fun p =>
    Scanner.events_of_silent (by simp +contextual [List.mem_replicate, Scanner.on]) p
  rw [List.append_assoc, List.cons_append, List.cons_append, events, Scanner.events_append,
    hdigits, events, hacts] at hperform
  simp only [Scanner.on, List.map_cons, List.map_nil, List.nil_append, List.cons_append,
    Scanner.perform, HttpResponseParser.act, Option.bind_some, List.drop_zero] at hperform
  obtain ⟨hlen, hdone⟩ := perform_size (events_behind hquiet _) hperform
  simp only [line.strtol_bytes hsmall more] at hlen hdone
  rw [hparser]
  refine ⟨hlen, hdone.trans ?_⟩
  rw [decide_eq_decide]
  omega

end Mingo.Http
