import Mingo.Http.DumpFraming
import Mingo.Http.ResponseScan
import Mingo.Lib.Passage
import Mingo.Uri.Print

/-!
# The phrases of a response

The automaton of the response parser reads what `HttpResponse::dump` writes phrase by phrase.
It spells three names of header fields with states of their own, for it has to act on their
values: a field with another name is one that it stops spelling somewhere.

* `phrase_version`, `phrase_status`, `phrase_reason` -- the status line;
* `phrase_ordinary` -- a field with any other name;
* `phrase_connection`, `phrase_length` -- the fields that `dump` adds.
-/

namespace Mingo.Http

open Scanner (Rule inClass on byte)

namespace HttpResponseParser

/-- Wherever they stand, the bytes `bs` lead from state `q` to `q'` and turn the response into
what `f` makes of it, without an error and without the chunked coding. -/
def Phrase (bs : List UInt8) (q : Nat) (f : HttpResponse → HttpResponse) (q' : Nat) : Prop :=
  ∀ pre s, ∃ s', scanner.Passes act pre bs q s q' s' ∧ s'.data = f s.data ∧
    s'.error = s.error ∧ s'.parser.chunked = s.parser.chunked

variable {bs bs' : List UInt8} {q q' q'' : Nat} {f g : HttpResponse → HttpResponse} {b c : UInt8}
  {r r₀ : Rule ResponseAction} {a : ResponseAction} {name rest value : List UInt8}

theorem Phrase.append (h : Phrase bs q f q') (h' : Phrase bs' q' g q'') :
    Phrase (bs ++ bs') q (fun rsp => g (f rsp)) q'' := by
  intro pre s
  obtain ⟨s', hfirst, hdata, herror, hchunked⟩ := h pre s
  obtain ⟨s'', hsecond, hdata', herror', hchunked'⟩ := h' (pre ++ bs) s'
  refine ⟨s'', hfirst.append hsecond, ?_, herror'.trans herror, hchunked'.trans hchunked⟩
  rw [hdata', hdata]

theorem Phrase.silent (h : scanner.Silent q bs q') : Phrase bs q (fun rsp => rsp) q' :=
  fun pre s => ⟨s, .silent h pre s, rfl, rfl, rfl⟩

theorem not_ends (h : .done ∉ r.acts) : scanner.ends r = false := by
  rw [← Bool.not_eq_true, ends_iff]
  exact h

/-- A single byte with one action. -/
theorem passes_act (pre : List UInt8) (s : HttpResponseParser) {s' : HttpResponseParser}
    (hrule : scanner.rule q b = some r) (hacts : r.acts = [a]) (ha : a ≠ .done)
    (hact : ∀ post, act (pre ++ b :: post) pre.length a s = some s') :
    scanner.Passes act pre [b] q s r.next s' := by
  refine .byte hrule (not_ends (by simpa [hacts] using ha.symm)) fun post => ?_
  simp [hacts, Scanner.perform, hact]

/-- What stands in the middle of a buffer. -/
theorem token_middle (pre mid post : List UInt8) :
    token (pre ++ mid ++ post) pre.length (pre ++ mid).length = some mid := by
  simp [token]

/-! ### The status line -/

/-- A token whose first byte sets the mark and which the byte behind it completes. -/
theorem phrase_token {q₀ : Nat} (hrule₀ : scanner.rule q₀ c = some r₀) (hacts₀ : r₀.acts = [.mark])
    (hsilent : scanner.Silent r₀.next rest q) (hrule : scanner.rule q b = some r)
    (hacts : r.acts = [a]) (ha : a ≠ .done)
    (hact : ∀ pre s, s.parser.mark = pre.length → ∃ s', (∀ post,
      act (pre ++ c :: rest ++ b :: post) (pre ++ c :: rest).length a s = some s') ∧
        s'.data = f s.data ∧ s'.error = s.error ∧ s'.parser.chunked = s.parser.chunked) :
    Phrase (c :: rest ++ [b]) q₀ f r.next := by
  intro pre s
  obtain ⟨s', hlast, hdata, herror, hchunked⟩ :=
    hact pre { s with parser := { s.parser with mark := pre.length } } rfl
  have hmark := passes_act pre s hrule₀ hacts₀ (by decide) fun post => rfl
  have hrest : scanner.Passes act (pre ++ [c]) rest _ _ _ _ :=
    .silent hsilent (pre ++ [c]) { s with parser := { s.parser with mark := pre.length } }
  have hpre : pre ++ ([c] ++ rest) = pre ++ c :: rest := rfl
  have hend := passes_act (pre ++ ([c] ++ rest)) _ hrule hacts ha fun post => hlast post
  exact ⟨s', (hmark.append hrest).append hend, hdata, herror, hchunked⟩

/-- The version and the space behind it. -/
theorem phrase_version {v : Nat} (hv : v = 0x10 ∨ v = 0x11) :
    Phrase (bytes "HTTP/" ++ decimal (v >>> 4) ++ bytes "." ++ decimal (v &&& 0x0F) ++ bytes " ") 1
      (fun rsp => { rsp with version := v }) 16 := by
  obtain ⟨d, hbytes, hversion, hsilent⟩ : ∃ d : UInt8, bytes "HTTP/" ++ decimal (v >>> 4) ++
      bytes "." ++ decimal (v &&& 0x0F) ++ bytes " " = 72 :: [84, 84, 80, 47, 49, 46, d] ++ [32] ∧
      versionOf [72, 84, 84, 80, 47, 49, 46, d] = some v ∧
      scanner.Silent 8 [84, 84, 80, 47, 49, 46, d] 15 := by
    rcases hv with rfl | rfl
    · exact ⟨48, by decide⟩
    · exact ⟨49, by decide⟩
  have hspace : scanner.rule 15 32 = some (byte 32 [.httpVersion] 16) := by decide
  rw [hbytes]
  refine phrase_token rule_response rfl hsilent hspace rfl (by decide) fun pre s hmark => ?_
  refine ⟨{ s with data := { s.data with version := v } }, fun post => ?_, rfl, rfl, rfl⟩
  rw [act, hmark, token_middle, Option.map_some, onResponseVersion, hversion]

theorem silent_of_class {class_ : List (Nat × Nat)}
    (h : Scanner.firstFits (on r.on [] q) class_ (scanner.rules q) = true)
    (hbs : ∀ b ∈ bs, inClass class_ b = true) : scanner.Silent q bs q := by
  induction bs with
  | nil => exact .nil q
  | cons b bs ih =>
      have hrule := Scanner.find_of_firstFits scanner.flag h (hbs b (by simp))
      exact .cons hrule rfl (ih fun b' hb' => hbs b' (by simp [hb']))

theorem inClass_digit (h : 48 ≤ b.toNat ∧ b.toNat ≤ 57) : inClass Scanner.digit b = true := by
  simpa [inClass, Scanner.digit] using h

/-- The status code and the space behind it. -/
theorem phrase_status {n : Nat} (hn : n < 2 ^ 31) :
    Phrase (decimal n ++ bytes " ") 16 (fun rsp => { rsp with status := n }) 18 := by
  have hdigits : ∀ b ∈ decimal n, inClass Scanner.digit b = true :=
    fun b hb => inClass_digit (decimal_digits hb)
  have hvalue : ∀ post, atoi (decimal n ++ 32 :: post) = n := by
    intro post
    rw [Uri.atoi_append (Uri.decimal_ne_nil n) hdigits, Uri.atoi_decimal hn]
    intro b hb
    cases hb
    decide
  obtain ⟨c, rest, hdecimal⟩ := List.exists_cons_of_ne_nil (Uri.decimal_ne_nil n)
  rw [hdecimal] at hdigits hvalue ⊢
  have hfirst : scanner.rule 16 c = some (on Scanner.digit [.mark] 17) :=
    Scanner.find_of_firstFits scanner.flag (by decide) (hdigits c (by simp))
  have hspace : scanner.rule 17 32 = some (byte 32 [.statusCode] 18) := by decide
  have hrest : scanner.Silent 17 rest 17 :=
    silent_of_class (r := on Scanner.digit [] 17) (by decide)
      fun b hb => hdigits b (by simp [hb])
  refine phrase_token hfirst rfl hrest hspace rfl (by decide) fun pre s hmark => ?_
  refine ⟨{ s with
    parser := { s.parser with status := n }
    data := { s.data with status := n } }, fun post => ?_, rfl, rfl, rfl⟩
  have hdrop : (pre ++ c :: rest ++ 32 :: post).drop s.parser.mark = c :: rest ++ 32 :: post := by
    rw [hmark, List.append_assoc, List.drop_left]
  have hstrtol : longToInt (strtol 10 (c :: rest ++ 32 :: post)) = n := hvalue post
  rw [act, onResponseStatus, hdrop, hstrtol, hvalue]

/-- The bytes of a line. -/
def lineByte (b : UInt8) : Bool := b != 10 && b != 13

/-- The line ends of both kinds are apart from the other bytes. -/
def lineClass : List (Nat × Nat) := [(0, 9), (11, 12), (14, 255)]

theorem inClass_line (h : lineByte b = true) : inClass lineClass b = true := by
  have hall := Scanner.forall_byte (P := fun b => !lineByte b || inClass lineClass b)
    (by decide +kernel) b
  simpa [h] using hall

/-- The reason and the end of the line. -/
theorem phrase_reason (hne : value ≠ []) (hline : value.all lineByte = true) :
    Phrase (value ++ crlf) 18 (fun rsp => { rsp with reason := value }) 20 := by
  rw [List.all_eq_true] at hline
  have hclass : ∀ b ∈ value, inClass lineClass b = true := fun b hb => inClass_line (hline b hb)
  obtain ⟨c, rest, rfl⟩ := List.exists_cons_of_ne_nil hne
  have hfirst : scanner.rule 18 c = some (on [(0, 9), (11, 255)] [.mark] 19) :=
    Scanner.find_of_firstFits scanner.flag (by decide) (hclass c (by simp))
  have hreturn : scanner.rule 19 13 = some (byte 13 [.reasonPhrase] 24) := by decide
  have hrest : scanner.Silent 19 rest 19 :=
    silent_of_class (r := on ResponseTable.any [] 19) (by decide)
      fun b hb => hclass b (by simp [hb])
  have hnewline : scanner.Silent 24 [10] 20 := by decide
  have hbytes : c :: rest ++ crlf = c :: rest ++ [13] ++ [10] := by simp [crlf, bytes]
  rw [hbytes]
  refine Phrase.append (phrase_token hfirst rfl hrest hreturn rfl (by decide)
    fun pre s hmark => ?_) (.silent hnewline)
  refine ⟨{ s with data := { s.data with reason := c :: rest } }, fun post => ?_, rfl, rfl, rfl⟩
  rw [act, hmark, token_middle, Option.map_some, onResponseReason]

/-! ### The header fields -/

/-- From state `q` the automaton reads a value and the carriage return behind it, and hands over
the field whose name it has read. -/
def HandsOver (value : List UInt8) (q q' : Nat) : Prop :=
  ∀ (pre : List UInt8) (s : HttpResponseParser) (name : List UInt8), name ≠ [] →
    (∀ post, ((pre ++ post).drop s.parser.fieldStart).take s.parser.fieldLen = name) →
      s.parser.fieldLen = name.length →
        ∃ s', scanner.Passes act pre (value ++ [13]) q s q' s' ∧
          s'.data = s.data.setHeader name value ∧ s'.error = s.error ∧
          s'.parser.chunked = s.parser.chunked

/-- The field that is handed over. -/
theorem onResponseHttpField_eq {s : HttpResponseParser} {field : List UInt8} {flen : Nat}
    (hne : name ≠ []) (hlen : flen = name.length) (htake : field.take flen = name) :
    s.onResponseHttpField field flen value = { s with data := s.data.setHeader name value } := by
  have hzero : ¬ flen = 0 := by
    rw [hlen, List.length_eq_zero_iff]
    exact hne
  rw [onResponseHttpField, if_neg hzero, htake]

theorem handsOver_nil (hrule : scanner.rule q 13 = some r)
    (hacts : r.acts = [.startValue, .writeValue]) : HandsOver [] q r.next := by
  intro pre s name hne hname hlen
  refine ⟨{ s with
    parser := { s.parser with mark := pre.length }
    data := s.data.setHeader name [] }, ?_, rfl, rfl, rfl⟩
  refine .byte hrule (not_ends (by simp [hacts])) fun post => ?_
  have htoken : token (pre ++ 13 :: post) pre.length pre.length = some [] := by simp [token]
  simp only [hacts, List.map_cons, List.map_nil, Scanner.perform, act, Option.bind_some, htoken,
    Option.map_some]
  rw [List.append_assoc, onResponseHttpField_eq hne hlen (hname _)]

/-- A value with a first byte that is no blank. -/
theorem handsOver_cons {vs : List UInt8} {q₁ : Nat} (hrule₀ : scanner.rule q c = some r₀)
    (hacts₀ : r₀.acts = [.startValue]) (hsilent : scanner.Silent r₀.next vs q₁)
    (hrule : scanner.rule q₁ 13 = some r)
    (hacts : r.acts = [.writeValue] ∨ r.acts = [.writeContentLen, .writeValue] ∧
      ∀ b ∈ c :: vs, inClass Scanner.digit b = true) :
    HandsOver (c :: vs) q r.next := by
  intro pre s name hne hname hlen
  have hstart := passes_act pre s hrule₀ hacts₀ (by decide) fun post => rfl
  have hrest : scanner.Passes act (pre ++ [c]) vs _ _ _ _ :=
    .silent hsilent (pre ++ [c]) { s with parser := { s.parser with mark := pre.length } }
  have htoken : ∀ post, token (pre ++ c :: vs ++ post) pre.length (pre ++ c :: vs).length =
      some (c :: vs) := token_middle pre (c :: vs)
  have hname' : ∀ post, ((pre ++ c :: vs ++ post).drop s.parser.fieldStart).take s.parser.fieldLen =
      name := by
    intro post
    rw [List.append_assoc]
    exact hname (c :: vs ++ post)
  have hdone : .done ∉ r.acts := by
    rcases hacts with hacts | ⟨hacts, -⟩
    · simp [hacts]
    · simp [hacts]
  -- what the digits come to does not depend on the bytes behind them
  obtain ⟨k, hhanded⟩ : ∃ k : Int, ∀ post,
      Scanner.perform (act (pre ++ c :: vs ++ 13 :: post))
          (r.acts.map ((pre ++ c :: vs).length, ·))
          { s with parser := { s.parser with mark := pre.length } } =
        some { s with
          parser := { s.parser with mark := pre.length, contentLen := k }
          data := s.data.setHeader name (c :: vs) } := by
    rcases hacts with hacts | ⟨hacts, hdigits⟩
    · refine ⟨s.parser.contentLen, fun post => ?_⟩
      simp only [hacts, List.map_cons, List.map_nil, Scanner.perform, act, htoken, Option.map_some,
        Option.bind_some]
      rw [List.append_assoc, onResponseHttpField_eq hne hlen (hname' _)]
    · refine ⟨atoi (c :: vs), fun post => ?_⟩
      have hdrop : (pre ++ c :: vs ++ 13 :: post).drop pre.length = c :: vs ++ 13 :: post := by
        rw [List.append_assoc, List.drop_left]
      have hnumber : longToInt (strtol 10 (c :: vs ++ 13 :: post)) = atoi (c :: vs) := by
        refine Uri.atoi_append (by simp) hdigits fun b hb => ?_
        cases hb
        decide
      simp only [hacts, List.map_cons, List.map_nil, Scanner.perform, act, htoken, Option.map_some,
        Option.bind_some, hdrop, hnumber]
      rw [List.append_assoc, onResponseHttpField_eq hne hlen (hname' _)]
  have hend : scanner.Passes act (pre ++ ([c] ++ vs)) [13] _ _ _ _ :=
    .byte hrule (not_ends hdone) hhanded
  exact ⟨_, (hstart.append hrest).append hend, rfl, rfl, rfl⟩

/-- **A header field** as `dump` writes it, for a name without actions on its letters. -/
theorem phrase_field {q₁ q₂ q₃ : Nat} (hfirst : scanner.rule q c = some r₀)
    (hacts₀ : r₀.acts = [.startField] ∨ r₀.acts = [.writeConnectionClose, .startField])
    (hname : scanner.Silent r₀.next rest q₁)
    (hcolon : scanner.rule q₁ 58 = some (byte 58 [.writeField] q₂))
    (hblank : scanner.rule q₂ 32 = some (on ResponseTable.space [.startValue] q₂))
    (hvalue : HandsOver value q₂ q₃) (hnewline : scanner.Silent q₃ [10] q') :
    Phrase (dumpField (c :: rest, value)) q (·.setHeader (c :: rest) value) q' := by
  intro pre s
  have hdone : .done ∉ r₀.acts := by
    rcases hacts₀ with hacts₀ | hacts₀
    · simp [hacts₀]
    · simp [hacts₀]
  obtain ⟨close, hstart⟩ : ∃ close : Bool, ∀ post,
      Scanner.perform (act (pre ++ c :: post)) (r₀.acts.map (pre.length, ·)) s =
        some { s with parser := { s.parser with close := close, fieldStart := pre.length } } := by
    rcases hacts₀ with hacts₀ | hacts₀
    · exact ⟨s.parser.close, fun post => by simp [hacts₀, Scanner.perform, act]⟩
    · exact ⟨true, fun post => by simp [hacts₀, Scanner.perform, act]⟩
  have hbyte := Scanner.Passes.byte hfirst (not_ends hdone) hstart
  have hrest : scanner.Passes act (pre ++ [c]) rest _ _ _ _ :=
    .silent hname (pre ++ [c])
      { s with parser := { s.parser with close := close, fieldStart := pre.length } }
  have hlength : (pre ++ ([c] ++ rest)).length - pre.length = (c :: rest).length := by simp
  have hend : scanner.Passes act (pre ++ ([c] ++ rest)) [58] q₁
      { s with parser := { s.parser with close := close, fieldStart := pre.length } } q₂
      { s with parser := { s.parser with
        close := close, fieldStart := pre.length, fieldLen := (c :: rest).length } } :=
    passes_act _ _ hcolon rfl (by decide) fun post => by rw [act, hlength]
  have hspace := passes_act (pre ++ ([c] ++ rest ++ [58]))
    { s with parser := { s.parser with
      close := close, fieldStart := pre.length, fieldLen := (c :: rest).length } }
    hblank rfl (by decide) fun post => rfl
  obtain ⟨s', hread, hdata, herror, hchunked⟩ := hvalue (pre ++ ([c] ++ rest ++ [58] ++ [32]))
    { s with parser := { s.parser with
      close := close, fieldStart := pre.length, fieldLen := (c :: rest).length
      mark := (pre ++ ([c] ++ rest ++ [58])).length } } (c :: rest) (by simp)
    (fun post => by simp) rfl
  have hline := (((hbyte.append hrest).append hend).append hspace).append hread
  have hbytes : dumpField (c :: rest, value) =
      [c] ++ rest ++ [58] ++ [32] ++ (value ++ [13]) ++ [10] := by
    simp [dumpField, bytes, crlf]
  rw [hbytes]
  exact ⟨s', hline.append (.silent hnewline _ s'), hdata, herror, hchunked⟩

end HttpResponseParser

/-! ### Names -/

namespace ResponseTable

/-- The states in which the name of a field is read. -/
def inName (q : Nat) : Bool :=
  q == 21 || (25 ≤ q && q ≤ 34) || (44 ≤ q && q ≤ 60) || (101 ≤ q && q ≤ 111)

/-- What has been read in a state that spells one of the three names. -/
def spelled (q : Nat) : List UInt8 :=
  if 25 ≤ q ∧ q ≤ 34 then (bytes "connection").take (q - 24)
  else if 44 ≤ q ∧ q ≤ 60 then (bytes "transfer-encoding").take (q - 43)
  else if 101 ≤ q ∧ q ≤ 111 then (bytes "content-length").take (q - 97)
  else []

/-- The state behind the colon: one of its own behind each of the three names. -/
def behindName (q : Nat) : Nat :=
  if q = 34 then 35 else if q = 60 then 61 else if q = 111 then 112 else 22

/-- Behind the text `w` a rule spells on, or gives up. -/
def spellsOn (w : List UInt8) (r : Rule ResponseAction) : Bool :=
  r.next == 21 ||
    r.on.all fun c => c.1 == c.2 && spelled r.next == w ++ [tolower (UInt8.ofNat c.1)]

/-- How a row reads a name. -/
def nameRow (q : Nat) (rs : List (Rule ResponseAction)) : Bool :=
  !inName q ||
    (rs.contains (on token [] 21) &&
      rs.find? (·.takes false 58) == some (byte 58 [.writeField] (behindName q)) &&
      rs.all fun r => r == byte 58 [.writeField] (behindName q) ||
        (r.acts == [] && inName r.next && (q != 21 || r.next == 21) && spellsOn (spelled q) r))

theorem name_rows :
    ((List.range 112).all fun q => nameRow q ((rows.lookup q).getD [])) = true := by
  decide +kernel

/-- How the first byte of a name is read. -/
theorem first_row : on token [.startField] 21 ∈ (rows.lookup 20).getD [] ∧
    ∀ r ∈ (rows.lookup 20).getD [], r.on = [(10, 10)] ∨ r.on = [(13, 13)] ∨
      (r.acts = [.startField] ∧ inName r.next = true ∧ spellsOn [] r = true) := by
  decide +kernel

end ResponseTable

namespace HttpResponseParser

open ResponseTable (inName spelled behindName spellsOn)

variable {q q' : Nat} {b c : UInt8} {r : Rule ResponseAction} {name value rest : List UInt8}

/-- A rule that takes the byte is there, and the first one is taken. -/
theorem rule_of_mem (hmem : r ∈ scanner.rules q) (htakes : r.takes scanner.flag b = true) :
    ∃ r', scanner.rule q b = some r' := by
  rw [← Option.isSome_iff_exists, Scanner.rule, List.find?_isSome]
  exact ⟨r, hmem, htakes⟩

theorem spelled_of_spellsOn {w : List UInt8} (h : spellsOn w r = true)
    (htakes : r.takes scanner.flag b = true) :
    r.next = 21 ∨ spelled r.next = w ++ [tolower b] := by
  rw [spellsOn, Bool.or_eq_true, beq_iff_eq] at h
  refine h.imp_right fun hon => ?_
  rw [Rule.takes, Bool.and_eq_true] at htakes
  obtain ⟨d, hd, hb⟩ := List.any_eq_true.mp htakes.2
  have hd' := List.all_eq_true.mp hon d hd
  simp only [Bool.and_eq_true, beq_iff_eq, decide_eq_true_eq] at hd' hb
  have hbyte : UInt8.ofNat d.1 = b := by
    have heq : d.1 = b.toNat := by omega
    rw [heq, UInt8.ofNat_toNat]
  rw [hd'.2, hbyte]

theorem takes_token (hb : inClass tchar b = true) (acts : List ResponseAction) :
    (on ResponseTable.token acts 21).takes scanner.flag b = true := hb

theorem name_row (hq : inName q = true) :
    on ResponseTable.token [] 21 ∈ scanner.rules q ∧
      scanner.rule q 58 = some (byte 58 [.writeField] (behindName q)) ∧
      ∀ r ∈ scanner.rules q, r = byte 58 [.writeField] (behindName q) ∨
        (r.acts = [] ∧ inName r.next = true ∧ (q = 21 → r.next = 21) ∧
          spellsOn (spelled q) r = true) := by
  have hlt : q < 112 := by
    simp only [inName, Bool.or_eq_true, Bool.and_eq_true, beq_iff_eq, decide_eq_true_eq] at hq
    omega
  have hrow := List.all_eq_true.mp ResponseTable.name_rows q (List.mem_range.mpr hlt)
  simp only [ResponseTable.nameRow, hq, Bool.not_true, Bool.false_or, Bool.and_eq_true,
    beq_iff_eq, List.contains_iff_mem, List.all_eq_true, Bool.or_eq_true, bne_iff_ne, ne_eq] at hrow
  obtain ⟨⟨hmem, hcolon⟩, hall⟩ := hrow
  refine ⟨hmem, hcolon, fun r hr => ?_⟩
  refine (hall r hr).imp_right fun ⟨⟨⟨hacts, hnext⟩, hlost⟩, hspells⟩ => ?_
  exact ⟨hacts, hnext, hlost.resolve_left ∘ not_not.mpr, hspells⟩

/-- A byte of a name. -/
theorem rule_name (hq : inName q = true) (hb : inClass tchar b = true) :
    ∃ r, scanner.rule q b = some r ∧ r.acts = [] ∧ inName r.next = true ∧
      (r.next = 21 ∨ (q ≠ 21 ∧ spelled r.next = spelled q ++ [tolower b])) := by
  obtain ⟨hmem, -, hall⟩ := name_row hq
  obtain ⟨r, hrule⟩ := rule_of_mem hmem (takes_token hb [])
  have htakes := Scanner.rule_takes hrule
  refine ⟨r, hrule, ?_⟩
  rcases hall r (Scanner.rule_mem hrule) with rfl | ⟨hacts, hnext, hlost, hspells⟩
  · have hcolon : b = 58 := by
      simpa [byte, Rule.takes, ← UInt8.toNat_inj, Nat.le_antisymm_iff, and_comm] using htakes
    subst hcolon
    exact absurd hb (by decide)
  · refine ⟨hacts, hnext, ?_⟩
    rcases spelled_of_spellsOn hspells htakes with hgives | hon
    · exact .inl hgives
    · by_cases hq' : q = 21
      · exact .inl (hlost hq')
      · exact .inr ⟨hq', hon⟩

/-- **The bytes of a name**: as long as the automaton has not stopped spelling, they are what it
has spelled. -/
theorem silent_name (hq : inName q = true) (hname : name.all (inClass tchar) = true) :
    ∃ q', scanner.Silent q name q' ∧ inName q' = true ∧
      (q' = 21 ∨ (q ≠ 21 ∧ spelled q' = spelled q ++ name.map tolower)) := by
  induction name generalizing q with
  | nil =>
      refine ⟨q, .nil q, hq, ?_⟩
      by_cases hlost : q = 21
      · exact .inl hlost
      · exact .inr ⟨hlost, by simp⟩
  | cons b name ih =>
      rw [List.all_cons, Bool.and_eq_true] at hname
      obtain ⟨r, hrule, hacts, hnext, hspells⟩ := rule_name hq hname.1
      obtain ⟨q', hsilent, hin, hspelled⟩ := ih hnext hname.2
      refine ⟨q', .cons hrule hacts hsilent, hin, ?_⟩
      rcases hspelled with hlost | ⟨hnot, hspelled⟩
      · exact .inl hlost
      · obtain ⟨hq', hon⟩ := hspells.resolve_left hnot
        refine .inr ⟨hq', ?_⟩
        rw [hspelled, hon, List.append_assoc]
        rfl

/-- The first byte of a name. -/
theorem rule_first_name (hc : inClass tchar c = true) :
    ∃ r, scanner.rule 20 c = some r ∧ r.acts = [.startField] ∧ inName r.next = true ∧
      (r.next = 21 ∨ spelled r.next = [tolower c]) := by
  obtain ⟨hmem, hall⟩ := ResponseTable.first_row
  obtain ⟨r, hrule⟩ := rule_of_mem hmem (takes_token hc [.startField])
  have htakes := Scanner.rule_takes hrule
  have hon : ∀ k : Nat, r.on = [(k, k)] → c.toNat = k := by
    intro k hk
    simp only [Rule.takes, hk, List.any_cons, List.any_nil, Bool.or_false, Bool.and_eq_true,
      decide_eq_true_eq] at htakes
    omega
  refine ⟨r, hrule, ?_⟩
  rcases hall r (Scanner.rule_mem hrule) with hten | hthirteen | ⟨hacts, hnext, hspells⟩
  · obtain rfl : c = 10 := UInt8.toNat_inj.mp (hon 10 hten)
    exact absurd hc (by decide)
  · obtain rfl : c = 13 := UInt8.toNat_inj.mp (hon 13 hthirteen)
    exact absurd hc (by decide)
  · exact ⟨hacts, hnext, spelled_of_spellsOn hspells htakes⟩

end HttpResponseParser

/-! ### The fields that `dump` writes -/

/-- The names on which the automaton acts. -/
def spelledNames : List (List UInt8) :=
  [bytes "connection", bytes "transfer-encoding", bytes "content-length"]

/-- A header field that the automaton takes as it is: the name is a token and none of those that
it spells, the value has no line end and does not begin with a blank. -/
structure PlainField (f : List UInt8 × List UInt8) : Prop where
  named : f.1 ≠ []
  name : f.1.all (inClass tchar) = true
  other : ∀ n ∈ spelledNames, caseFold f.1 ≠ caseFold n
  value : f.2.all HttpResponseParser.lineByte = true
  noBlank : f.2.head?.all (fun b => !inClass ResponseTable.space b) = true

instance (f : List UInt8 × List UInt8) : Decidable (PlainField f) :=
  decidable_of_iff (f.1 ≠ [] ∧ f.1.all (inClass tchar) = true ∧
      (∀ n ∈ spelledNames, caseFold f.1 ≠ caseFold n) ∧
      f.2.all HttpResponseParser.lineByte = true ∧
      f.2.head?.all (fun b => !inClass ResponseTable.space b) = true)
    ⟨fun ⟨h₁, h₂, h₃, h₄, h₅⟩ => ⟨h₁, h₂, h₃, h₄, h₅⟩,
      fun ⟨h₁, h₂, h₃, h₄, h₅⟩ => ⟨h₁, h₂, h₃, h₄, h₅⟩⟩

/-- A name whose letters are those of one of the three, in either case, is compared as that. -/
theorem caseFold_of_spelled {name n : List UInt8} (hn : n ∈ spelledNames)
    (hname : name.all (inClass tchar) = true) (h : name.map tolower = n) :
    caseFold name = caseFold n := by
  have hzero : name.takeWhile (· ≠ 0) = name := by
    rw [List.takeWhile_eq_self_iff]
    intro b hb
    have hchar := List.all_eq_true.mp hname b hb
    have hne : b ≠ 0 := by
      intro heq
      rw [heq] at hchar
      exact absurd hchar (by decide)
    simpa using hne
  have hsame : ∀ n ∈ spelledNames, caseFold n = n.map UInt8.toNat := by decide
  have hfold : caseFold name = (name.map tolower).map UInt8.toNat := by
    rw [caseFold, hzero, List.map_map]
    rfl
  rw [hfold, h, hsame n hn]

namespace HttpResponseParser

open ResponseTable (spelled behindName)

variable {q : Nat} {f : List UInt8 × List UInt8}

/-- The bytes that a value may begin with. -/
def valueClass : List (Nat × Nat) := [(0, 8), (14, 31), (33, 255)]

/-- **A plain field.** -/
theorem phrase_plain (h : PlainField f) :
    Phrase (dumpField f) 20 (·.setHeader f.1 f.2) 20 := by
  obtain ⟨name, value⟩ := f
  obtain ⟨hne, hname, hother, hline, hblank⟩ := h
  obtain ⟨c, rest, rfl⟩ := List.exists_cons_of_ne_nil hne
  have hall := hname
  rw [List.all_cons, Bool.and_eq_true] at hall
  obtain ⟨r, hrule, hacts, hin, hspells⟩ := rule_first_name hall.1
  obtain ⟨q', hsilent, hin', hspells'⟩ := silent_name hin hall.2
  have hspelled : q' = 21 ∨ spelled q' = (c :: rest).map tolower := by
    rcases hspells' with hlost | ⟨hnot, hon⟩
    · exact .inl hlost
    · right
      rw [hon, hspells.resolve_left hnot]
      rfl
  -- it has not come to the end of one of the three names
  have hnot : ∀ q₀ n, n ∈ spelledNames → q₀ ≠ 21 → spelled q₀ = n → q' ≠ q₀ := by
    intro q₀ n hn hlost hspelling heq
    subst heq
    have hletters : (c :: rest).map tolower = n :=
      (hspelled.resolve_left hlost).symm.trans hspelling
    exact hother n hn (caseFold_of_spelled hn hname hletters)
  have hbehind : behindName q' = 22 := by
    rw [behindName, if_neg (hnot 34 (bytes "connection") (by decide) (by decide) (by decide)),
      if_neg (hnot 60 (bytes "transfer-encoding") (by decide) (by decide) (by decide)),
      if_neg (hnot 111 (bytes "content-length") (by decide) (by decide) (by decide))]
  have hcolon := (name_row hin').2.1
  rw [hbehind] at hcolon
  have hspace : scanner.rule 22 32 = some (on ResponseTable.space [.startValue] 22) := by decide
  have hvalue : HandsOver value 22 24 := by
    cases value with
    | nil => exact handsOver_nil (r := byte 13 [.startValue, .writeValue] 24) (by decide) rfl
    | cons v vs =>
        have hlines := List.all_eq_true.mp hline
        have hfirst : inClass valueClass v = true := by
          have hcheck := Scanner.forall_byte (P := fun v => !lineByte v ||
            (inClass ResponseTable.space v || inClass valueClass v)) (by decide +kernel) v
          have hv : inClass ResponseTable.space v = false := by simpa using hblank
          simpa [hlines v (by simp), hv] using hcheck
        have hstart : scanner.rule 22 v = some (on ResponseTable.any [.startValue] 23) :=
          Scanner.find_of_firstFits scanner.flag (by decide) hfirst
        have hrest : scanner.Silent 23 vs 23 :=
          silent_of_class (r := on ResponseTable.any [] 23) (by decide)
            fun b hb => inClass_line (hlines b (by simp [hb]))
        exact handsOver_cons (r := byte 13 [.writeValue] 24) hstart rfl hrest (by decide)
          (.inl rfl)
  exact phrase_field hrule (.inl hacts) hsilent hcolon hspace hvalue (by decide)

/-- What becomes of the connection. -/
theorem phrase_connection (rsp : HttpResponse) :
    ∃ q', Phrase (dumpField (bytes "connection", rsp.connectionValue)) 20
      (·.setHeader (bytes "connection") rsp.connectionValue) q' ∧ (q' = 20 ∨ q' = 43) := by
  have hname : bytes "connection" = 99 :: bytes "onnection" := by decide
  have hfirst : scanner.rule 20 99 = some (on (ResponseTable.letter 67) [.startField] 25) := by
    decide
  have hsilent : scanner.Silent 25 (bytes "onnection") 34 := by decide
  have hcolon : scanner.rule 34 58 = some (byte 58 [.writeField] 35) := by decide
  have hspace : scanner.rule 35 32 = some (on ResponseTable.space [.startValue] 35) := by decide
  rw [hname, HttpResponse.connectionValue]
  cases rsp.close with
  | true =>
      have hclose : bytes "close" = 99 :: bytes "lose" := by decide
      rw [if_pos rfl, hclose]
      have hstart : scanner.rule 35 99 = some (on (ResponseTable.letter 67) [.startValue] 96) := by
        decide
      have hrest : scanner.Silent 96 (bytes "lose") 100 := by decide
      have hvalue : HandsOver (99 :: bytes "lose") 35 88 :=
        handsOver_cons (r := byte 13 [.writeValue] 88) hstart rfl hrest (by decide) (.inl rfl)
      exact ⟨43, phrase_field hfirst (.inl rfl) hsilent hcolon hspace hvalue (by decide), .inr rfl⟩
  | false =>
      have hkeep : bytes "keep-alive" = 107 :: bytes "eep-alive" := by decide
      rw [if_neg Bool.false_ne_true, hkeep]
      have hstart : scanner.rule 35 107 = some (on ResponseTable.any [.startValue] 23) := by
        decide
      have hrest : scanner.Silent 23 (bytes "eep-alive") 23 := by decide
      have hvalue : HandsOver (107 :: bytes "eep-alive") 35 24 :=
        handsOver_cons (r := byte 13 [.writeValue] 24) hstart rfl hrest (by decide) (.inl rfl)
      exact ⟨20, phrase_field hfirst (.inl rfl) hsilent hcolon hspace hvalue (by decide), .inl rfl⟩

/-- The length of the body. -/
theorem phrase_length (n : Nat) (hq : q = 20 ∨ q = 43) :
    Phrase (dumpField (bytes "content-length", decimal n)) q
      (·.setHeader (bytes "content-length") (decimal n)) 20 := by
  have hname : bytes "content-length" = 99 :: bytes "ontent-length" := by decide
  have hsilent : scanner.Silent 25 (bytes "ontent-length") 111 := by decide
  have hcolon : scanner.rule 111 58 = some (byte 58 [.writeField] 112) := by decide
  have hspace : scanner.rule 112 32 = some (on ResponseTable.space [.startValue] 112) := by decide
  have hdigits : ∀ b ∈ decimal n, inClass Scanner.digit b = true :=
    fun b hb => inClass_digit (decimal_digits hb)
  obtain ⟨d, ds, hdecimal⟩ := List.exists_cons_of_ne_nil (Uri.decimal_ne_nil n)
  rw [hdecimal] at hdigits ⊢
  have hstart : scanner.rule 112 d = some (on Scanner.digit [.startValue] 119) :=
    Scanner.find_of_firstFits scanner.flag (by decide) (hdigits d (by simp))
  have hrest : scanner.Silent 119 ds 119 :=
    silent_of_class (r := on Scanner.digit [] 119) (by decide)
      fun b hb => hdigits b (by simp [hb])
  have hvalue : HandsOver (d :: ds) 112 24 :=
    handsOver_cons (r := byte 13 [.writeContentLen, .writeValue] 24) hstart rfl hrest (by decide)
      (.inr ⟨rfl, hdigits⟩)
  have hplain : scanner.rule 20 99 = some (on (ResponseTable.letter 67) [.startField] 25) := by
    decide
  have hclosing : scanner.rule 43 99 =
      some (on (ResponseTable.letter 67) [.writeConnectionClose, .startField] 25) := by decide
  rw [hname]
  rcases hq with rfl | rfl
  · exact phrase_field hplain (.inl rfl) hsilent hcolon hspace hvalue (by decide)
  · exact phrase_field hclosing (.inr rfl) hsilent hcolon hspace hvalue (by decide)

/-- **Plain fields**, by induction on their list. -/
theorem phrase_fields {fs : List (List UInt8 × List UInt8)} (h : ∀ f ∈ fs, PlainField f) :
    Phrase (fs.flatMap dumpField) 20
      (fun rsp => fs.foldl (fun rsp f => rsp.setHeader f.1 f.2) rsp) 20 := by
  induction fs with
  | nil => exact .silent (.nil 20)
  | cons f fs ih =>
      rw [List.flatMap_cons]
      exact (phrase_plain (h f (by simp))).append (ih fun f' hf' => h f' (by simp [hf']))

end HttpResponseParser

end Mingo.Http
