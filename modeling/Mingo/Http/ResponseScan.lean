import Mingo.Http.ResponseParser

/-!
# One call of the response parser

What `httpclient_parser_execute` does with a buffer, whatever the buffer is: no
assertion and no check fails, and the only thing that can go wrong is a version
that `on_response_version` does not know.

* `httpclientParserExecute_eq` -- a call performs the actions of the rules its
  automaton takes;
* `perform_keeps` -- they never touch the body, and the flag `chunked` stays set;
* `error_of_follow` -- a call sets an error exactly when it reads the space behind
  the version and the bytes in front of it, as far as they are in this buffer, are
  no version.
-/

namespace Mingo.Http

open Scanner (Rule events)

namespace HttpResponseParser

variable {buf : List UInt8} {p q n len : Nat} {s t : HttpResponseParser}

/-! ### The actions -/

/-- The offsets of the parser when its actions have come to position `p` of a
buffer of `len` bytes. -/
structure Offsets (len p : Nat) (s : HttpResponseParser) : Prop where
  mark : s.parser.mark ≤ p
  fieldStart : s.parser.fieldStart ≤ p
  fieldLen : s.parser.fieldLen ≤ p
  bodyStart : s.parser.bodyStart ≤ len

theorem Offsets.mono {p' : Nat} (hp : p ≤ p') (h : Offsets len p s) : Offsets len p' s :=
  ⟨h.mark.trans hp, h.fieldStart.trans hp, h.fieldLen.trans hp, h.bodyStart⟩

/-- What the actions `as` leave as it was. -/
structure Keeps (as : List ResponseAction) (s t : HttpResponseParser) : Prop where
  body : t.data.body = s.data.body
  error : .httpVersion ∉ as → t.error = s.error
  bodyStart : .done ∉ as → t.parser.bodyStart = s.parser.bodyStart
  chunked : s.parser.chunked = true ∨ .transChunked ∈ as → t.parser.chunked = true

theorem Keeps.refl (s : HttpResponseParser) : Keeps [] s s :=
  ⟨rfl, fun _ => rfl, fun _ => rfl, fun h => by simpa using h⟩

theorem Keeps.append {as as' : List ResponseAction} {u : HttpResponseParser}
    (h : Keeps as s t) (h' : Keeps as' t u) : Keeps (as ++ as') s u := by
  refine ⟨h'.body.trans h.body, fun hno => ?_, fun hno => ?_, fun hyes => ?_⟩
  · rw [List.mem_append, not_or] at hno
    exact (h'.error hno.2).trans (h.error hno.1)
  · rw [List.mem_append, not_or] at hno
    exact (h'.bodyStart hno.2).trans (h.bodyStart hno.1)
  · apply h'.chunked
    rw [List.mem_append, ← or_assoc] at hyes
    exact hyes.imp_left h.chunked

theorem onResponseVersion_keeps (s : HttpResponseParser) (v : List UInt8) :
    (s.onResponseVersion v).data.body = s.data.body ∧
      (s.onResponseVersion v).parser = s.parser ∧
      (s.onResponseVersion v).error = if versionOf v = none then 1001 else s.error := by
  rw [onResponseVersion]
  cases versionOf v with
  | none => exact ⟨rfl, rfl, rfl⟩
  | some version => exact ⟨rfl, rfl, rfl⟩

theorem onResponseHttpField_keeps (s : HttpResponseParser) (field value : List UInt8)
    (flen : Nat) :
    (s.onResponseHttpField field flen value).data.body = s.data.body ∧
      (s.onResponseHttpField field flen value).parser = s.parser ∧
      (s.onResponseHttpField field flen value).error = s.error := by
  rw [onResponseHttpField]
  split
  · exact ⟨rfl, rfl, rfl⟩
  · exact ⟨rfl, rfl, rfl⟩

/-- **What one action can do.** -/
theorem act_keeps {a : ResponseAction} (h : act buf p a s = some t) : Keeps [a] s t := by
  cases a with
  | httpVersion =>
      obtain ⟨v, _, rfl⟩ := Option.map_eq_some_iff.mp h
      obtain ⟨hbody, hparser, _⟩ := onResponseVersion_keeps s v
      exact ⟨hbody, by simp, by simp [hparser], by simp [hparser]⟩
  | writeValue =>
      obtain ⟨v, _, rfl⟩ := Option.map_eq_some_iff.mp h
      obtain ⟨hbody, hparser, herror⟩ := onResponseHttpField_keeps s
        ((buf ++ 0 :: s.memory buf).drop s.parser.fieldStart) v s.parser.fieldLen
      exact ⟨hbody, fun _ => herror, by simp [hparser], by simp [hparser]⟩
  | reasonPhrase =>
      obtain ⟨v, _, rfl⟩ := Option.map_eq_some_iff.mp h
      exact ⟨rfl, fun _ => rfl, fun _ => rfl, by simp [onResponseReason]⟩
  | _ =>
      cases h
      exact ⟨rfl, fun _ => rfl, by simp [onResponseStatus], by simp [onResponseStatus]⟩

theorem Offsets.of_parser (hparser : t.parser = s.parser) (h : Offsets len p s) :
    Offsets len p t := by
  obtain ⟨hmark, hstart, hlen, hbody⟩ := h
  exact ⟨by rwa [hparser], by rwa [hparser], by rwa [hparser], by rwa [hparser]⟩

/-- **No action throws**, and the offsets stay in the buffer. -/
theorem act_offsets (buf : List UInt8) (a : ResponseAction) (hp : p < len)
    (h : Offsets len p s) : ∃ t, act buf p a s = some t ∧ Offsets len p t := by
  obtain ⟨v, hv⟩ : ∃ v, token buf s.parser.mark p = some v := ⟨_, if_pos h.mark⟩
  cases a with
  | httpVersion =>
      refine ⟨s.onResponseVersion v, by simp [act, hv], ?_⟩
      exact h.of_parser (onResponseVersion_keeps s v).2.1
  | writeValue =>
      refine ⟨_, by rw [act, hv, Option.map_some], ?_⟩
      exact h.of_parser (onResponseHttpField_keeps s _ v s.parser.fieldLen).2.1
  | reasonPhrase =>
      refine ⟨s.onResponseReason v, by simp [act, hv], ?_⟩
      exact ⟨h.mark, h.fieldStart, h.fieldLen, h.bodyStart⟩
  | mark => exact ⟨_, rfl, Nat.le_refl p, h.fieldStart, h.fieldLen, h.bodyStart⟩
  | startField => exact ⟨_, rfl, h.mark, Nat.le_refl p, h.fieldLen, h.bodyStart⟩
  | writeField => exact ⟨_, rfl, h.mark, h.fieldStart, Nat.sub_le p _, h.bodyStart⟩
  | startValue => exact ⟨_, rfl, Nat.le_refl p, h.fieldStart, h.fieldLen, h.bodyStart⟩
  | done => exact ⟨_, rfl, h.mark, h.fieldStart, h.fieldLen, hp⟩
  | _ => exact ⟨_, rfl, h.mark, h.fieldStart, h.fieldLen, h.bodyStart⟩

/-- **What the actions of a call can do.** -/
theorem perform_keeps {rs : List (Rule ResponseAction)}
    (h : Scanner.perform (act buf) (events p rs) s = some t) :
    Keeps (rs.flatMap Rule.acts) s t := by
  rw [← Scanner.map_snd_events p rs]
  generalize events p rs = es at h
  induction es generalizing s with
  | nil =>
      cases h
      exact Keeps.refl t
  | cons e es ih =>
      obtain ⟨u, hu, hrest⟩ := Option.bind_eq_some_iff.mp h
      exact (act_keeps hu).append (ih hrest)

/-- **What a call of `execute` did**, unless it ended in an error: the automaton
took rules on the bytes in front of those left. -/
theorem execute_some {chunck : Bool} {left : List UInt8}
    (h : execute chunck s buf = some (left, t)) (herror : t.hasError = false) :
    ∃ pre rs, buf = pre ++ left ∧
      scanner.follow (if chunck then 1 else s.parser.cs) pre = some rs ∧
      Scanner.lastState (if chunck then 1 else s.parser.cs) rs = t.parser.cs ∧
      t.data.body = s.data.body ∧
      (chunck = false → s.parser.chunked = true ∨ .transChunked ∈ rs.flatMap Rule.acts →
        t.parser.chunked = true) := by
  obtain ⟨⟨n, u⟩, hexecute, heq⟩ := Option.map_eq_some_iff.mp h
  obtain ⟨rfl, rfl⟩ := Prod.mk.inj heq
  have hcs : u.parser.cs ≠ 0 := by
    intro hcs
    simp [hasError, HttpClientParser.hasError, hcs] at herror
  simp only [httpclientParserExecute] at hexecute
  split at hexecute
  · cases hexecute
  · next q' p v hexec =>
      split at hexecute
      · cases hexecute
        obtain ⟨pre, post, rs, rfl, hp, hfollow, hlast, hperform⟩ :=
          Scanner.exec_follow hexec hcs
        have hkeeps := perform_keeps hperform
        refine ⟨pre, rs, by simp [hp], ?_⟩
        cases chunck with
        | false => exact ⟨hfollow, hlast, hkeeps.body, fun _ => hkeeps.chunked⟩
        | true => exact ⟨hfollow, hlast, hkeeps.body, by simp⟩
      · cases hexecute

/-- **A call of `httpclient_parser_execute`** whose automaton takes the rules `rs`
and then stops, by the end of the header block or of the buffer. -/
theorem httpclientParserExecute_eq {rs : List (Rule ResponseAction)} {q' : Nat}
    (hbody : s.parser.bodyStart = 0) (hne : buf ≠ []) (hn : rs.length ≤ buf.length)
    (hexec : scanner.exec (act buf) s.parser.cs 0 s.rewind buf =
      (Scanner.perform (act buf) (events 0 rs) s.rewind).map fun t => (q', 0 + rs.length, t)) :
    ∃ t s', Scanner.perform (act buf) (events 0 rs) s.rewind = some t ∧
      s.httpclientParserExecute buf = some (rs.length, s') ∧
      s'.parser = { t.parser with cs := q', nread := rs.length } ∧ s'.data = t.data ∧
      s'.error = t.error := by
  have hpos : 0 < buf.length := List.length_pos_iff.mpr hne
  have hstart : Offsets buf.length 0 s.rewind :=
    ⟨Nat.le_refl 0, Nat.le_refl 0, Nat.le_refl 0, by simp [rewind, hbody]⟩
  have hle : ∀ e ∈ events 0 rs, e.1 ≤ buf.length - 1 := by
    intro e he
    have := (Scanner.events_bounds he).2
    omega
  obtain ⟨t, ht, hoff⟩ := Scanner.perform_inv (I := Offsets buf.length) Offsets.mono
    (fun a _ _ hp h => act_offsets buf a (by omega) h) (Scanner.events_sorted 0 rs) hle hstart
  refine ⟨t, { t with parser := { t.parser with cs := q', nread := rs.length } }, ht, ?_, rfl,
    rfl, rfl⟩
  have hinb : inBounds { t.parser with cs := q', nread := rs.length } buf.length = true := by
    have hmark := hoff.mark
    have hfield := hoff.fieldStart
    have hflen := hoff.fieldLen
    have hbodyStart := hoff.bodyStart
    simp only [inBounds, Bool.and_eq_true, decide_eq_true_eq]
    omega
  simp only [httpclientParserExecute, hexec, ht, Option.map_some, Nat.zero_add, hinb, if_true]

end HttpResponseParser

/-! ### The version -/

namespace ResponseTable

/-- The states in front of the end of the version. -/
def inVersion (q : Nat) : Bool := q == 1 || (8 ≤ q && q ≤ 15)

/-- How the rules of a state read the version: its bytes do nothing but go on, and
the space behind it hands it over. -/
def versionRule (q : Nat) (r : Rule ResponseAction) : Bool :=
  if q == 1 then r.acts == [.mark] && ((r.on == [(72, 72)] && r.next == 8) || r.next == 2)
  else if 8 ≤ q && q ≤ 15 then
    (r.acts == [] && 8 ≤ r.next && r.next ≤ 15 && !r.takes false 32) ||
      (r.acts == [.httpVersion] && r.on == [(32, 32)] && r.next == 16)
  else !r.acts.contains .httpVersion && !inVersion r.next

theorem version_rules : (rows.all fun row => row.2.all (versionRule row.1)) = true := by
  decide

/-- A scan ends with a rule that leads to a final state, and only there; no rule
leads back to the start. -/
def finalRule (r : Rule ResponseAction) : Bool :=
  if r.acts.contains .done then 120 ≤ r.next && r.next ≤ 123 else 1 < r.next && r.next < 120

theorem final_rules : (rows.all fun row => row.2.all fun r => finalRule r) = true := by
  decide

/-- The states of a size line. -/
def inSizeLine (q : Nat) : Bool := (2 ≤ q && q ≤ 7) || q == 120

theorem size_line_rules : (rows.all fun row => row.2.all fun r =>
    !inSizeLine row.1 || (inSizeLine r.next && !r.acts.contains .transChunked)) = true := by
  decide

end ResponseTable

namespace HttpResponseParser

open ResponseTable (inVersion inSizeLine)

variable {buf bs pre post : List UInt8} {p q q' : Nat} {s t : HttpResponseParser}
  {r : Rule ResponseAction} {rs : List (Rule ResponseAction)} {b : UInt8}

theorem rule_version (h : scanner.rule q b = some r) :
    ResponseTable.versionRule q r = true :=
  Scanner.of_all (m := scanner) ResponseTable.version_rules (Scanner.rule_mem h)

/-- A rule of the version reads a byte of it, or the space behind it. -/
theorem rule_in_version (hq : 8 ≤ q ∧ q ≤ 15) (h : scanner.rule q b = some r) :
    (b ≠ 32 ∧ r.acts = [] ∧ 8 ≤ r.next ∧ r.next ≤ 15) ∨
      (b = 32 ∧ r.acts = [.httpVersion] ∧ r.next = 16) := by
  have hcheck := rule_version h
  have htakes := Scanner.rule_takes h
  have hone : ¬ q = 1 := by omega
  simp only [ResponseTable.versionRule, beq_iff_eq, hone, if_false, hq.1, hq.2, decide_true,
    Bool.and_self, if_true, Bool.or_eq_true, Bool.and_eq_true, decide_eq_true_eq,
    Bool.not_eq_true'] at hcheck
  rcases hcheck with ⟨⟨⟨hacts, hlo⟩, hhi⟩, hno⟩ | ⟨⟨hacts, hon⟩, hnext⟩
  · refine .inl ⟨?_, hacts, hlo, hhi⟩
    rintro rfl
    exact absurd htakes (by simp [scanner, hno])
  · refine .inr ⟨?_, hacts, hnext⟩
    simp only [Rule.takes, hon, List.any_cons, List.any_nil, Bool.or_false, Bool.and_eq_true,
      decide_eq_true_eq] at htakes
    exact UInt8.toNat.inj (Nat.le_antisymm htakes.2.2 htakes.2.1)

/-- Behind the version there is no other. -/
theorem rule_behind_version (hq : inVersion q = false) (h : scanner.rule q b = some r) :
    .httpVersion ∉ r.acts ∧ inVersion r.next = false := by
  have hcheck := rule_version h
  simp only [inVersion, Bool.or_eq_false_iff] at hq
  simpa [ResponseTable.versionRule, hq.1, hq.2] using hcheck

/-- A response begins with an `H`. -/
theorem rule_response : scanner.rule 1 72 = some (Scanner.byte 72 [.mark] 8) := by
  decide

/-- The first rule of a response or of a size line. -/
theorem rule_first (h : scanner.rule 1 b = some r) :
    r.acts = [.mark] ∧ ((b = 72 ∧ r.next = 8) ∨ r.next = 2) := by
  have hcheck := rule_version h
  have htakes := Scanner.rule_takes h
  simp only [ResponseTable.versionRule, beq_self_eq_true, if_true, Bool.and_eq_true,
    Bool.or_eq_true, beq_iff_eq] at hcheck
  refine ⟨hcheck.1, hcheck.2.imp_left fun ⟨hon, hnext⟩ => ⟨?_, hnext⟩⟩
  simp only [Rule.takes, hon, List.any_cons, List.any_nil, Bool.or_false, Bool.and_eq_true,
    decide_eq_true_eq] at htakes
  exact UInt8.toNat.inj (Nat.le_antisymm htakes.2.2 htakes.2.1)

theorem follow_behind_version (hq : inVersion q = false) (h : scanner.follow q bs = some rs) :
    (∀ r ∈ rs, .httpVersion ∉ r.acts) ∧ inVersion (Scanner.lastState q rs) = false := by
  induction bs generalizing q rs with
  | nil =>
      cases h
      exact ⟨by simp, hq⟩
  | cons b bs ih =>
      obtain ⟨r, rs', hrule, hrest, rfl⟩ := Scanner.follow_cons h
      obtain ⟨hno, hnext⟩ := rule_behind_version hq hrule
      obtain ⟨hrules, hlast⟩ := ih hnext hrest
      exact ⟨by simpa [hno] using hrules, hlast⟩

/-- Behind the version no action sets an error. -/
theorem error_behind_version (hq : inVersion q = false) (h : scanner.follow q bs = some rs)
    (hperform : Scanner.perform (act buf) (events p rs) s = some t) : t.error = s.error := by
  apply (perform_keeps hperform).error
  intro hmem
  obtain ⟨r, hr, hacts⟩ := List.mem_flatMap.mp hmem
  exact (follow_behind_version hq h).1 r hr hacts

/-- The version is handed over with the space behind it, as far as it is in this
buffer. -/
theorem error_in_version (pre : List UInt8) (hq : 8 ≤ q ∧ q ≤ 15)
    (h : scanner.follow q bs = some rs)
    (hspace : 32 ∉ pre) (hmark : s.parser.mark = 0)
    (hperform : Scanner.perform (act (pre ++ bs ++ post)) (events pre.length rs) s = some t) :
    t.error = if 32 ∈ bs ∧ versionOf ((pre ++ bs).takeWhile (· ≠ 32)) = none then 1001
      else s.error := by
  induction bs generalizing q rs pre s with
  | nil =>
      cases h
      cases hperform
      simp
  | cons b bs ih =>
      obtain ⟨r, rs', hrule, hrest, rfl⟩ := Scanner.follow_cons h
      rcases rule_in_version hq hrule with ⟨hb, hacts, hlo, hhi⟩ | ⟨rfl, hacts, hnext⟩
      · have hpre : pre ++ b :: bs = pre ++ [b] ++ bs := by simp
        have hlen : (pre ++ [b]).length = pre.length + 1 := by simp
        simp only [events, hacts, List.map_nil, List.nil_append] at hperform
        rw [hpre] at hperform ⊢
        rw [← hlen] at hperform
        have hspace' : 32 ∉ pre ++ [b] := by
          simp [hspace, Ne.symm hb]
        rw [ih (pre ++ [b]) ⟨hlo, hhi⟩ hrest hspace' hmark hperform]
        simp [Ne.symm hb]
      · have htake : (pre ++ 32 :: bs).takeWhile (· ≠ 32) = pre := by
          rw [List.takeWhile_append_of_pos]
          · simp
          · intro x hx
            simpa using fun hx32 : x = 32 => hspace (hx32 ▸ hx)
        have htoken : token (pre ++ 32 :: bs ++ post) s.parser.mark pre.length = some pre := by
          simp [token, hmark]
        simp only [events, hacts, List.map_cons, List.map_nil, List.singleton_append,
          Scanner.perform, act, htoken, Option.map_some, Option.bind_some] at hperform
        have hbehind : inVersion r.next = false := by simp [hnext, inVersion]
        rw [error_behind_version hbehind hrest hperform, (onResponseVersion_keeps s pre).2.2,
          htake]
        simp

/-- **The error of a call**: set when it reads the space behind the version, and
the bytes in front of it in this buffer are no version. -/
theorem error_of_follow (post : List UInt8) (h : scanner.follow q bs = some rs)
    (hfirst : q = 1 → bs.head? = some 72)
    (hperform : Scanner.perform (act (bs ++ post)) (events 0 rs) s.rewind = some t) :
    t.error = if inVersion q = true ∧ 32 ∈ bs ∧ versionOf (bs.takeWhile (· ≠ 32)) = none
      then 1001 else s.error := by
  cases hq : inVersion q with
  | false => simpa [rewind] using error_behind_version hq h hperform
  | true =>
      by_cases hone : q = 1
      · subst hone
        obtain ⟨bs, rfl⟩ := List.head?_eq_some_iff.mp (hfirst rfl)
        obtain ⟨r, rs', hrule, hrest, rfl⟩ := Scanner.follow_cons h
        obtain rfl := Option.some.inj (hrule.symm.trans rule_response)
        simp only [events, Scanner.byte, List.map_cons, List.map_nil, List.singleton_append,
          Scanner.perform, act, Option.bind_some] at hperform
        have hin := error_in_version (q := 8) [72] (by omega) hrest (by simp)
          (by rfl) hperform
        rw [hin]
        simp [rewind]
      · have hin : 8 ≤ q ∧ q ≤ 15 := by simpa [inVersion, hone] using hq
        rw [error_in_version [] hin h (by simp) (by rfl) hperform]
        simp [rewind]

/-- Where the automaton is with respect to the version. -/
theorem inVersion_of_follow (h : scanner.follow q bs = some rs)
    (hfirst : q = 1 → bs.head? = some 72) :
    inVersion (Scanner.lastState q rs) = (inVersion q && !bs.contains 32) := by
  have hin : ∀ {q : Nat} {bs : List UInt8} {rs : List (Rule ResponseAction)},
      8 ≤ q ∧ q ≤ 15 → scanner.follow q bs = some rs →
        inVersion (Scanner.lastState q rs) = !bs.contains 32 := by
    intro q bs rs hq h
    induction bs generalizing q rs with
    | nil =>
        cases h
        simp [Scanner.lastState, inVersion, hq.1, hq.2]
    | cons b bs ih =>
        obtain ⟨r, rs', hrule, hrest, rfl⟩ := Scanner.follow_cons h
        rcases rule_in_version hq hrule with ⟨hb, _, hlo, hhi⟩ | ⟨rfl, _, hnext⟩
        · rw [Scanner.lastState, ih ⟨hlo, hhi⟩ hrest]
          simp [Ne.symm hb]
        · have hbehind : inVersion r.next = false := by simp [hnext, inVersion]
          rw [Scanner.lastState, (follow_behind_version hbehind hrest).2]
          simp
  cases hq : inVersion q with
  | false => simpa using (follow_behind_version hq h).2
  | true =>
      by_cases hone : q = 1
      · subst hone
        obtain ⟨bs, rfl⟩ := List.head?_eq_some_iff.mp (hfirst rfl)
        obtain ⟨r, rs', hrule, hrest, rfl⟩ := Scanner.follow_cons h
        obtain rfl := Option.some.inj (hrule.symm.trans rule_response)
        rw [Scanner.lastState, hin (by decide) hrest]
        simp
      · have hstates : 8 ≤ q ∧ q ≤ 15 := by simpa [inVersion, hone] using hq
        simpa using hin hstates h

/-! ### The end of a scan -/

theorem rule_final {q : Nat} (h : r ∈ scanner.rules q) : ResponseTable.finalRule r = true :=
  Scanner.of_all (m := scanner) (P := fun _ r => ResponseTable.finalRule r)
    ResponseTable.final_rules h

theorem ends_iff : scanner.ends r = true ↔ .done ∈ r.acts := by
  simp [Scanner.ends, scanner]

/-- A scan that ends does so in one of the four final states. -/
theorem lastState_of_walk (h : scanner.walk q bs = some rs) :
    120 ≤ Scanner.lastState q rs ∧ Scanner.lastState q rs ≤ 123 := by
  induction bs generalizing q rs with
  | nil => cases h
  | cons b bs ih =>
      obtain ⟨r, hrule, ⟨hends, rfl, rfl⟩ | ⟨_, rs', hrest, rfl⟩⟩ := Scanner.walk_cons h
      · have hfinal := rule_final (Scanner.rule_mem hrule)
        simpa [ResponseTable.finalRule, ends_iff.mp hends, Scanner.lastState] using hfinal
      · rw [Scanner.lastState]
        exact ih hrest

/-- Until then it is in none of them, nor in the error state. -/
theorem lastState_of_not_ends (h : scanner.follow q bs = some rs)
    (hends : ∀ r ∈ rs, scanner.ends r = false) (hne : bs ≠ []) :
    1 < Scanner.lastState q rs ∧ Scanner.lastState q rs < 120 := by
  have hrs : rs ≠ [] := by
    rintro rfl
    cases bs with
    | nil => exact hne rfl
    | cons b bs =>
        obtain ⟨_, _, _, _, hcons⟩ := Scanner.follow_cons h
        cases hcons
  obtain ⟨r, hr, hlast⟩ := Scanner.lastState_mem (q := q) hrs
  obtain ⟨q', hmem⟩ := Scanner.mem_of_follow h hr
  have hno : .done ∉ r.acts := by
    rw [← ends_iff, hends r hr]
    simp
  have hfinal := rule_final hmem
  rw [hlast]
  simpa [ResponseTable.finalRule, hno] using hfinal

theorem not_chunked_of_size_line (hq : inSizeLine q = true) (h : scanner.follow q bs = some rs) :
    ∀ r ∈ rs, .transChunked ∉ r.acts := by
  induction bs generalizing q rs with
  | nil =>
      cases h
      simp
  | cons b bs ih =>
      obtain ⟨r, rs', hrule, hrest, rfl⟩ := Scanner.follow_cons h
      have hcheck := Scanner.of_all (m := scanner)
        (P := fun q r => !inSizeLine q || (inSizeLine r.next && !r.acts.contains .transChunked))
        ResponseTable.size_line_rules (Scanner.rule_mem hrule)
      simp only [hq, Bool.not_true, Bool.false_or, Bool.and_eq_true, Bool.not_eq_true',
        List.contains_eq_mem, decide_eq_false_iff_not] at hcheck
      simpa [hcheck.2] using ih hcheck.1 hrest

/-- Only a response has the chunked transfer coding, not a size line. -/
theorem head_of_chunked (h : scanner.follow 1 bs = some rs) (hr : r ∈ rs)
    (hchunked : .transChunked ∈ r.acts) : bs.head? = some 72 := by
  cases bs with
  | nil =>
      cases h
      cases hr
  | cons b bs =>
      obtain ⟨r', rs', hrule, hrest, rfl⟩ := Scanner.follow_cons h
      obtain ⟨hacts, ⟨rfl, _⟩ | hnext⟩ := rule_first hrule
      · rfl
      · rcases List.mem_cons.mp hr with rfl | hr
        · simp [hacts] at hchunked
        · have hline : inSizeLine r'.next = true := by simp [hnext, inSizeLine]
          exact absurd hchunked (not_chunked_of_size_line hline hrest r hr)

end HttpResponseParser

end Mingo.Http
