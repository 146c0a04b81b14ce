import Mingo.Http.RequestParser

/-!
# The tokens of a request

The callbacks of the request parser are handed tokens, and where a token begins
and ends in the request does not depend on how the request arrives.  `tokens`
lists them for the rules the automaton takes on a header block.  What a callback
then sees of its token does depend on it: the offsets are reset at the start of
every read result, so of most tokens only the part in the last of them is left.
`Token.apply` says so for one token; `cut x` is the index in the request at which
the read result with byte `x` begins.

* `perform_tokens` -- the parser on one buffer computes what the tokens that end
  in this buffer say;
* `ranked_of_walk` -- the tokens of a request come in the order of its grammar,
  each but the header fields once.
-/

namespace Mingo.Http

open Scanner (Rule events)

/-- The bytes of `input` from index `start` up to `stop`. -/
def slice (input : List UInt8) (start stop : Nat) : List UInt8 :=
  (input.drop start).take (stop - start)

/-- A token of a request by the indices of its first byte and of the byte behind
it; a header field by those of its name and of its value. -/
inductive Token
  | method (start stop : Nat)
  | path (start stop : Nat)
  | query (start stop : Nat)
  | fragment (start stop : Nat)
  | version (start stop : Nat)
  | field (start colon valueStart stop : Nat)
  deriving DecidableEq, Repr

/-- The place of a token in the grammar of a request. -/
def Token.rank : Token → Nat
  | .method .. => 0
  | .path .. => 1
  | .query .. => 2
  | .fragment .. => 3
  | .version .. => 4
  | .field .. => 5

theorem Token.rank_le (t : Token) : t.rank ≤ 5 := by
  cases t <;> simp [Token.rank]

/-- Where the actions last marked something, as indices in the request. -/
structure Marks where
  mark : Nat
  fieldStart : Nat
  nameStart : Nat
  nameEnd : Nat
  queryStart : Nat

namespace Marks

/-- Before the first action. -/
def zero : Marks := ⟨0, 0, 0, 0, 0⟩

/-- The marks behind the action `a` at index `p`. -/
def after (m : Marks) (p : Nat) : RequestAction → Marks
  | .mark => { m with mark := p }
  | .startValue => { m with mark := p }
  | .startField => { m with fieldStart := p }
  | .writeField => { m with nameStart := m.fieldStart, nameEnd := p }
  | .startQuery => { m with queryStart := p }
  | _ => m

/-- The token the action `a` at index `p` completes. -/
def completed (m : Marks) (p : Nat) : RequestAction → Option Token
  | .requestMethod => some (.method m.mark p)
  | .requestPath => some (.path m.mark p)
  | .queryString => some (.query m.queryStart p)
  | .fragment => some (.fragment m.mark p)
  | .httpVersion => some (.version m.mark p)
  | .writeValue => some (.field m.nameStart m.nameEnd m.mark p)
  | _ => none

/-- The marks behind a list of actions. -/
def afterAll : Marks → List (Nat × RequestAction) → Marks
  | m, [] => m
  | m, e :: es => afterAll (m.after e.1 e.2) es

/-- The tokens a list of actions completes. -/
def tokens : Marks → List (Nat × RequestAction) → List Token
  | _, [] => []
  | m, e :: es => (m.completed e.1 e.2).toList ++ tokens (m.after e.1 e.2) es

theorem tokens_append (m : Marks) (es es' : List (Nat × RequestAction)) :
    m.tokens (es ++ es') = m.tokens es ++ (m.afterAll es).tokens es' := by
  induction es generalizing m with
  | nil => rfl
  | cons e es ih => simp only [List.cons_append, tokens, afterAll, ih, List.append_assoc]

theorem afterAll_append (m : Marks) (es es' : List (Nat × RequestAction)) :
    m.afterAll (es ++ es') = (m.afterAll es).afterAll es' := by
  induction es generalizing m with
  | nil => rfl
  | cons e es ih => simp only [List.cons_append, afterAll, ih]

/-- No mark lies behind index `p`. -/
structure Within (m : Marks) (p : Nat) : Prop where
  mark : m.mark ≤ p
  fieldStart : m.fieldStart ≤ p
  nameEnd : m.nameEnd ≤ p
  queryStart : m.queryStart ≤ p

theorem Within.mono {m : Marks} {p p' : Nat} (h : m.Within p) (hp : p ≤ p') : m.Within p' :=
  ⟨h.mark.trans hp, h.fieldStart.trans hp, h.nameEnd.trans hp, h.queryStart.trans hp⟩

theorem Within.after {m : Marks} {p p' : Nat} (h : m.Within p) (hp : p' ≤ p)
    (a : RequestAction) : (m.after p' a).Within p := by
  obtain ⟨hm, hf, hn, hq⟩ := h
  cases a <;> exact ⟨by simp [Marks.after, *], by simp [Marks.after, *],
    by simp [Marks.after, *], by simp [Marks.after, *]⟩

theorem Within.afterAll {m : Marks} {p : Nat} (h : m.Within p)
    {es : List (Nat × RequestAction)} (hes : ∀ e ∈ es, e.1 ≤ p) : (m.afterAll es).Within p := by
  induction es generalizing m with
  | nil => exact h
  | cons e es ih =>
      exact ih (h.after (hes e (by simp)) e.2) fun e' he' => hes e' (by simp [he'])

/-- The name of a header field is the last field started, whenever its value is
complete. -/
def Named : Marks → List (Nat × RequestAction) → Prop
  | _, [] => True
  | m, e :: es => (e.2 = .writeValue → m.nameStart = m.fieldStart) ∧ Named (m.after e.1 e.2) es

theorem Named.append {m : Marks} {es es' : List (Nat × RequestAction)} :
    m.Named (es ++ es') ↔ m.Named es ∧ (m.afterAll es).Named es' := by
  induction es generalizing m with
  | nil => simp [Named, afterAll]
  | cons e es ih => simp only [List.cons_append, Named, afterAll, ih, and_assoc]

end Marks

/-- **What a callback makes of its token**, when the read result with byte `x`
begins at `cut x`; `none` when it refuses the token or throws. -/
def Token.apply (input : List UInt8) (cut : Nat → Nat) :
    Token → HttpRequest → Option HttpRequest
  | .method start stop, req =>
      match charsToHttpMethod (slice input (max start (cut stop)) stop) with
      | .invalidMethod => none
      | m => some { req with method := m }
  | .path start stop, req => some { req with path := slice input (max start (cut stop)) stop }
  | .query start stop, req =>
      -- the offset of the query in its own read result is applied to the last one
      if start - cut start ≤ stop - cut stop then
        some { req with query := slice input (cut stop + (start - cut start)) stop }
      else none
  | .fragment start stop, req =>
      some { req with fragment := slice input (max start (cut stop)) stop }
  | .version start stop, req =>
      (versionOf (slice input (max start (cut stop)) stop)).map
        fun v => { req with version := v }
  | .field start colon valueStart stop, req =>
      if slice input (max start (cut stop)) colon = [] then some req
      else some (req.setHeader (slice input (max start (cut stop)) colon)
        (slice input (max valueStart (cut stop)) stop))

/-- All tokens, one after the other. -/
def applyAll (input : List UInt8) (cut : Nat → Nat) :
    List Token → HttpRequest → Option HttpRequest
  | [], req => some req
  | t :: ts, req => (t.apply input cut req).bind (applyAll input cut ts)

theorem applyAll_append (input : List UInt8) (cut : Nat → Nat) (ts ts' : List Token)
    (req : HttpRequest) :
    applyAll input cut (ts ++ ts') req =
      (applyAll input cut ts req).bind (applyAll input cut ts') := by
  induction ts generalizing req with
  | nil => rfl
  | cons t ts ih =>
      simp only [List.cons_append, applyAll]
      cases t.apply input cut req with
      | none => rfl
      | some r => simp only [Option.bind_some, ih]

/-! ### One buffer -/

/-- The buffer `buf` holds the bytes of `input` from index `c` on, where a read
result begins. -/
structure Window (input buf : List UInt8) (cut : Nat → Nat) (c : Nat) : Prop where
  bytes : (input.drop c).take buf.length = buf
  cut : ∀ p < buf.length, cut (c + p) = c

/-- The offsets of the parser point to the marks, or to the start of the buffer
where that is later. -/
structure Follows (cut : Nat → Nat) (c : Nat) (m : Marks) (s : HttpRequestParser) : Prop where
  mark : c + s.parser.mark = max m.mark c
  fieldStart : c + s.parser.fieldStart = max m.fieldStart c
  fieldLen : s.parser.fieldLen = m.nameEnd - max m.nameStart c
  queryStart : s.parser.queryStart = m.queryStart - cut m.queryStart

/-- The callbacks took the tokens `ts` and left `s'`, or one of them refused. -/
def Takes (input : List UInt8) (cut : Nat → Nat) (ts : List Token) (s s' : HttpRequestParser) :
    Prop :=
  (s'.error = s.error ∧ applyAll input cut ts s.data = some s'.data) ∨
    (s'.error ≠ 0 ∧ applyAll input cut ts s.data = none)

variable {input buf : List UInt8} {cut : Nat → Nat} {c p : Nat} {m : Marks}
  {s s' s'' : HttpRequestParser}

/-- A piece of the buffer is the piece of the request at the same place. -/
theorem Window.slice_eq (hw : Window input buf cut c) {a b : Nat} (hb : b ≤ buf.length) :
    (buf.drop a).take (b - a) = slice input (c + a) (c + b) := by
  have hlen : min (b - a) (buf.length - a) = b - a := by omega
  have hstop : c + b - (c + a) = b - a := by omega
  have hbuf : buf.drop a = (input.drop (c + a)).take (buf.length - a) := by
    rw [← List.drop_drop, ← List.drop_take, hw.bytes]
  rw [hbuf, List.take_take, hlen, slice, hstop]

/-- The string a callback is handed, when the token begins at or before `p`. -/
theorem Window.token_eq (hw : Window input buf cut c) {a : Nat} (ha : a ≤ p)
    (hp : p < buf.length) :
    token buf a p = some (slice input (c + a) (c + p)) := by
  rw [token, if_pos ha, hw.slice_eq (Nat.le_of_lt hp)]

/-- The method is read up to the space behind it. -/
theorem Window.method_eq (hw : Window input buf cut c) {a : Nat} (ha : a ≤ p)
    (hspace : buf[p]? = some 32) :
    charsToHttpMethod (buf.drop a) = charsToHttpMethod (slice input (c + a) (c + p)) := by
  obtain ⟨hp, hbyte⟩ := List.getElem?_eq_some_iff.mp hspace
  have hback : a + (p - a) = p := by omega
  have hsplit : buf.drop a = (buf.drop a).take (p - a) ++ 32 :: buf.drop (p + 1) := by
    calc buf.drop a
        = (buf.drop a).take (p - a) ++ (buf.drop a).drop (p - a) :=
          (List.take_append_drop _ _).symm
      _ = (buf.drop a).take (p - a) ++ buf.drop p := by rw [List.drop_drop, hback]
      _ = (buf.drop a).take (p - a) ++ 32 :: buf.drop (p + 1) := by
          rw [List.drop_eq_getElem_cons hp, hbyte]
  rw [hsplit, charsToHttpMethod_append_space, hw.slice_eq (Nat.le_of_lt hp)]

/-- The marks are in the C parser, which no callback changes. -/
theorem Follows.of_parser (hf : Follows cut c m s) (h : s'.parser = s.parser) :
    Follows cut c m s' := by
  obtain ⟨hmark, hstart, hlen, hquery⟩ := hf
  exact ⟨h ▸ hmark, h ▸ hstart, h ▸ hlen, h ▸ hquery⟩

theorem Takes.nil (h : s'.error = s.error) (hd : s'.data = s.data) :
    Takes input cut [] s s' :=
  .inl ⟨h, by rw [applyAll, hd]⟩

theorem Takes.append {ts ts' : List Token} (h : Takes input cut ts s s')
    (h' : Takes input cut ts' s' s'') : Takes input cut (ts ++ ts') s s'' := by
  simp only [Takes, applyAll_append]
  rcases h with ⟨he, hd⟩ | ⟨he, hd⟩
  · simp only [hd, Option.bind_some]
    rcases h' with ⟨he', hd'⟩ | ⟨he', hd'⟩
    · exact .inl ⟨he'.trans he, hd'⟩
    · exact .inr ⟨he', hd'⟩
  · refine .inr ⟨?_, by simp [hd]⟩
    rcases h' with ⟨he', _⟩ | ⟨he', _⟩
    · rw [he']
      exact he
    · exact he'

/-- The offset of a token that begins at the mark `k`. -/
theorem offset_le {k a : Nat} (ha : c + a = max k c) (hk : k ≤ c + p) : a ≤ p := by
  omega

/-- `body_start` stays in the buffer, and stays what it is until the end of the
header block. -/
structure Steady (buf : List UInt8) (done : Prop) (s s' : HttpRequestParser) : Prop where
  bound : s.parser.bodyStart ≤ buf.length → s'.parser.bodyStart ≤ buf.length
  same : ¬ done → s'.parser.bodyStart = s.parser.bodyStart

theorem Steady.refl {done : Prop} (h : s'.parser.bodyStart = s.parser.bodyStart) :
    Steady buf done s s' :=
  ⟨fun hle => h ▸ hle, fun _ => h⟩

theorem Steady.trans {done done' : Prop} (h : Steady buf done s s')
    (h' : Steady buf done' s' s'') : Steady buf (done ∨ done') s s'' := by
  refine ⟨h'.bound ∘ h.bound, fun hno => ?_⟩
  rw [not_or] at hno
  rw [h'.same hno.2, h.same hno.1]

/-- **One action.**  It marks what it marks, and hands its token over as
`Token.apply` says. -/
theorem act_spec (hw : Window input buf cut c) (hp : p < buf.length) (hb : m.Within (c + p))
    (hf : Follows cut c m s) (a : RequestAction)
    (hnamed : a = .writeValue → m.nameStart = m.fieldStart)
    (hspace : a = .requestMethod → buf[p]? = some 32) :
    match HttpRequestParser.act buf p a s with
    | none => applyAll input cut (m.completed (c + p) a).toList s.data = none
    | some s' =>
        Follows cut c (m.after (c + p) a) s' ∧ Steady buf (a = .done) s s' ∧
          Takes input cut (m.completed (c + p) a).toList s s' := by
  have hcut := hw.cut p hp
  have hmark := offset_le hf.mark hb.mark
  have htoken := hw.token_eq hmark hp
  rw [hf.mark] at htoken
  cases a with
  | mark =>
      exact ⟨⟨by simp [Marks.after], hf.fieldStart, hf.fieldLen, hf.queryStart⟩, Steady.refl rfl,
        Takes.nil rfl rfl⟩
  | startValue =>
      exact ⟨⟨by simp [Marks.after], hf.fieldStart, hf.fieldLen, hf.queryStart⟩, Steady.refl rfl,
        Takes.nil rfl rfl⟩
  | startField =>
      exact ⟨⟨hf.mark, by simp [Marks.after], hf.fieldLen, hf.queryStart⟩, Steady.refl rfl,
        Takes.nil rfl rfl⟩
  | writeField =>
      refine ⟨⟨hf.mark, hf.fieldStart, ?_, hf.queryStart⟩, Steady.refl rfl, Takes.nil rfl rfl⟩
      have hstart := hf.fieldStart
      simp only [Marks.after]
      omega
  | startQuery =>
      refine ⟨⟨hf.mark, hf.fieldStart, hf.fieldLen, ?_⟩, Steady.refl rfl, Takes.nil rfl rfl⟩
      simp [Marks.after, hcut]
  | writeValue =>
      have hname : (buf.drop s.parser.fieldStart).take s.parser.fieldLen =
          slice input (max m.nameStart c) m.nameEnd := by
        have hstart := hf.fieldStart
        have hend := hb.nameEnd
        by_cases hle : max m.nameStart c ≤ m.nameEnd
        · have hlen : s.parser.fieldLen = m.nameEnd - c - s.parser.fieldStart := by
            rw [hf.fieldLen, hnamed rfl, ← hstart]
            omega
          have hstop : c + (m.nameEnd - c) = m.nameEnd := by omega
          rw [hlen, hw.slice_eq (by omega), hstart, hstop, hnamed rfl]
        · have hlen : s.parser.fieldLen = 0 := by
            rw [hf.fieldLen]
            omega
          have hempty : m.nameEnd - max m.nameStart c = 0 := by omega
          simp [slice, hlen, hempty]
      simp only [HttpRequestParser.act, htoken, Option.map_some, hname]
      rw [HttpRequestParser.onRequestHttpField]
      split
      · next hnil =>
          refine ⟨hf, Steady.refl rfl, .inl ⟨rfl, ?_⟩⟩
          simp [Marks.completed, applyAll, Token.apply, hcut, hnil]
      · next hne =>
          refine ⟨hf.of_parser rfl, Steady.refl rfl, .inl ⟨rfl, ?_⟩⟩
          simp [Marks.completed, applyAll, Token.apply, hcut, hne]
  | requestMethod =>
      have hmethod := hw.method_eq hmark (hspace rfl)
      rw [hf.mark] at hmethod
      simp only [HttpRequestParser.act, HttpRequestParser.onRequestMethod, hmethod]
      split
      · next hinvalid =>
          refine ⟨hf.of_parser rfl, Steady.refl rfl, .inr ?_⟩
          exact ⟨by simp [HttpRequestParser.setError],
            by simp [Marks.completed, applyAll, Token.apply, hcut, hinvalid]⟩
      · next hvalid =>
          refine ⟨hf.of_parser rfl, Steady.refl rfl, .inl ⟨rfl, ?_⟩⟩
          simp [Marks.completed, applyAll, Token.apply, hcut]
  | queryString =>
      simp only [HttpRequestParser.act]
      by_cases hle : s.parser.queryStart ≤ p
      · rw [hw.token_eq hle hp]
        refine ⟨hf.of_parser rfl, Steady.refl rfl, .inl ⟨rfl, ?_⟩⟩
        simp [Marks.completed, applyAll, Token.apply, hcut, ← hf.queryStart, hle,
          HttpRequestParser.onRequestQuery]
      · simp [token, hle, Marks.completed, applyAll, Token.apply, hcut,
          ← hf.queryStart]
  | httpVersion =>
      simp only [HttpRequestParser.act, htoken, Option.map_some,
        HttpRequestParser.onRequestVersion]
      split
      · next hnone =>
          refine ⟨hf.of_parser rfl, Steady.refl rfl, .inr ?_⟩
          exact ⟨by simp [HttpRequestParser.setError],
            by simp [Marks.completed, applyAll, Token.apply, hcut, hnone]⟩
      · next v hv =>
          refine ⟨hf.of_parser rfl, Steady.refl rfl, .inl ⟨rfl, ?_⟩⟩
          simp [Marks.completed, applyAll, Token.apply, hcut, hv]
  | requestPath =>
      simp only [HttpRequestParser.act, htoken, Option.map_some]
      refine ⟨hf.of_parser rfl, Steady.refl rfl, .inl ⟨rfl, ?_⟩⟩
      simp [Marks.completed, applyAll, Token.apply, hcut, HttpRequestParser.onRequestPath]
  | fragment =>
      simp only [HttpRequestParser.act, htoken, Option.map_some]
      refine ⟨hf.of_parser rfl, Steady.refl rfl, .inl ⟨rfl, ?_⟩⟩
      simp [Marks.completed, applyAll, Token.apply, hcut, HttpRequestParser.onRequestFragment]
  | requestUri => exact ⟨hf, Steady.refl rfl, Takes.nil rfl rfl⟩
  | done =>
      cases hsent : s.parser.xmlSent || s.parser.jsonSent with
      | true =>
          simp only [HttpRequestParser.act, hsent, if_true]
          exact ⟨⟨hf.mark, hf.fieldStart, hf.fieldLen, hf.queryStart⟩,
            ⟨fun _ => hmark.trans (Nat.le_of_lt hp), by simp⟩, Takes.nil rfl rfl⟩
      | false =>
          simp only [HttpRequestParser.act, hsent, Bool.false_eq_true, if_false]
          exact ⟨⟨hf.mark, hf.fieldStart, hf.fieldLen, hf.queryStart⟩, ⟨fun _ => hp, by simp⟩,
            Takes.nil rfl rfl⟩
  | xml =>
      exact ⟨⟨hf.mark, hf.fieldStart, hf.fieldLen, hf.queryStart⟩, Steady.refl rfl,
        Takes.nil rfl rfl⟩
  | json =>
      exact ⟨⟨hf.mark, hf.fieldStart, hf.fieldLen, hf.queryStart⟩, Steady.refl rfl,
        Takes.nil rfl rfl⟩

/-- **One buffer.**  The actions on it leave the request its tokens make, and an
error or an exception when a callback refuses one. -/
theorem perform_tokens (hw : Window input buf cut c) {es : List (Nat × RequestAction)}
    (hsorted : es.Pairwise fun e e' => e.1 ≤ e'.1) (hp : ∀ e ∈ es, p ≤ e.1 ∧ e.1 < buf.length)
    (hspace : ∀ e ∈ es, e.2 = .requestMethod → buf[e.1]? = some 32)
    (hnamed : m.Named (es.map fun e => (c + e.1, e.2))) (hb : m.Within (c + p))
    (hf : Follows cut c m s) :
    match Scanner.perform (HttpRequestParser.act buf) es s with
    | none => applyAll input cut (m.tokens (es.map fun e => (c + e.1, e.2))) s.data = none
    | some s' =>
        Follows cut c (m.afterAll (es.map fun e => (c + e.1, e.2))) s' ∧
          Steady buf (∃ e ∈ es, e.2 = .done) s s' ∧
          Takes input cut (m.tokens (es.map fun e => (c + e.1, e.2))) s s' := by
  induction es generalizing m s p with
  | nil => exact ⟨hf, Steady.refl rfl, Takes.nil rfl rfl⟩
  | cons e es ih =>
      obtain ⟨hle, hlt⟩ := hp e (by simp)
      obtain ⟨hfirst, hrest⟩ := List.pairwise_cons.mp hsorted
      have hb' := hb.mono (Nat.add_le_add_left hle c)
      have hact := act_spec hw hlt hb' hf e.2 hnamed.1 (hspace e (by simp))
      simp only [Scanner.perform, List.map_cons, Marks.tokens, Marks.afterAll]
      cases hs : HttpRequestParser.act buf e.1 e.2 s with
      | none =>
          simp only [hs] at hact
          simp [applyAll_append, hact]
      | some t =>
          simp only [hs] at hact
          obtain ⟨hft, hsteady, htakes⟩ := hact
          have hnext := ih hrest (fun e' he' => ⟨hfirst e' he', (hp e' (by simp [he'])).2⟩)
            (fun e' he' => hspace e' (by simp [he'])) hnamed.2 (hb'.after (Nat.le_refl _) e.2) hft
          simp only [Option.bind_some]
          cases ht : Scanner.perform (HttpRequestParser.act buf) es t with
          | none =>
              simp only [ht] at hnext
              rcases htakes with ⟨_, hd⟩ | ⟨_, hd⟩
              · simp [applyAll_append, hd, hnext]
              · simp [applyAll_append, hd]
          | some t' =>
              simp only [ht] at hnext
              refine ⟨hnext.1, ?_, htakes.append hnext.2.2⟩
              simpa [List.exists_mem_cons_iff] using hsteady.trans hnext.2.1

/-! ### What the table says -/

namespace RequestTable

/-- Whether the last field started also has its name, before the actions of a
rule and behind them; `none` when a value would come without. -/
def nameKnown : Bool → List RequestAction → Option Bool
  | known, [] => some known
  | _, .startField :: as => nameKnown false as
  | _, .writeField :: as => nameKnown true as
  | known, .writeValue :: as => if known then nameKnown known as else none
  | known, _ :: as => nameKnown known as

/-- The states between the name of a field and the end of its value. -/
def inValue (q : Nat) : Bool := q == 15 || q == 16

/-- The least rank of the tokens still to come in state `q`. -/
def stage (q : Nat) : Nat :=
  if q ≤ 2 ∨ 175 ≤ q ∧ q ≤ 193 then 0
  else if 4 ≤ q ∧ q ≤ 12 then 4
  else if 13 ≤ q ∧ q ≤ 18 ∨ 196 ≤ q ∧ q ≤ 197 ∨ 199 ≤ q ∧ q ≤ 201 ∨ 348 ≤ q then 5
  else if 20 ≤ q ∧ q ≤ 23 then 3
  else if 29 ≤ q ∧ q ≤ 32 then 2
  else 1

/-- The least rank of the tokens behind one of rank `k`: only header fields may
repeat. -/
def nextRank (k : Nat) : Nat := min (k + 1) 5

/-- The rank of the token an action completes. -/
def rankOf (a : RequestAction) : Option Nat := (Marks.zero.completed 0 a).map Token.rank

/-- The least rank behind a list of actions; `none` when they complete a token of
a smaller one. -/
def stageAfter : Nat → List RequestAction → Option Nat
  | least, [] => some least
  | least, a :: as =>
      match rankOf a with
      | none => stageAfter least as
      | some k => if least ≤ k then stageAfter (nextRank k) as else none

theorem method_on_space : (rows.all fun row => row.2.all fun r =>
    !r.acts.contains .requestMethod || r.on == [(32, 32)]) = true := by
  decide +kernel

theorem names_known : (rows.all fun row => row.2.all fun r =>
    (nameKnown (inValue row.1) r.acts).any (!inValue r.next || ·)) = true := by
  decide +kernel

theorem stages_rise : (rows.all fun row => row.2.all fun r =>
    (stageAfter (stage row.1) r.acts).any (· ≤ stage r.next)) = true := by
  decide +kernel

end RequestTable

variable {uriRelaxed : Bool} {q : Nat} {bs : List UInt8} {rs : List (Rule RequestAction)}

/-- The method of a request ends with a space. -/
theorem space_of_walk (h : (HttpRequestParser.scanner uriRelaxed).walk q bs = some rs)
    {e : Nat × RequestAction} (he : e ∈ events p rs) (ha : e.2 = .requestMethod) :
    bs[e.1 - p]? = some 32 := by
  obtain ⟨i, r, hr, hpos, hmem⟩ := Scanner.mem_events he
  obtain ⟨q', b, hb, hrule⟩ := Scanner.walk_getElem h hr
  have hon := Scanner.of_all (m := HttpRequestParser.scanner uriRelaxed)
    (P := fun _ r => !r.acts.contains .requestMethod || r.on == [(32, 32)])
    RequestTable.method_on_space (Scanner.rule_mem hrule)
  rw [ha] at hmem
  have hspace : r.on = [(32, 32)] := by simpa [hmem] using hon
  have htakes := Scanner.rule_takes hrule
  have hbyte : 32 ≤ b.toNat ∧ b.toNat ≤ 32 := by
    simpa [Rule.takes, hspace] using (Bool.and_eq_true_iff.mp htakes).2
  have h32 : b = 32 := UInt8.toNat_inj.mp (by simpa using Nat.le_antisymm hbyte.2 hbyte.1)
  rw [show e.1 - p = i by omega, hb, h32]

/-- The actions of one rule keep track of whether the name is known. -/
theorem named_of_nameKnown {as : List RequestAction} {known known' : Bool}
    (h : RequestTable.nameKnown known as = some known')
    (hm : known = true → m.nameStart = m.fieldStart) :
    m.Named (as.map (p, ·)) ∧
      (known' = true → (m.afterAll (as.map (p, ·))).nameStart =
        (m.afterAll (as.map (p, ·))).fieldStart) := by
  induction as generalizing m known with
  | nil =>
      cases h
      exact ⟨trivial, hm⟩
  | cons a as ih =>
      have hstep : ∀ k, RequestTable.nameKnown k as = some known' →
          (a = .writeValue → m.nameStart = m.fieldStart) →
          (k = true → (m.after p a).nameStart = (m.after p a).fieldStart) →
          m.Named ((a :: as).map (p, ·)) ∧
            (known' = true → (m.afterAll ((a :: as).map (p, ·))).nameStart =
              (m.afterAll ((a :: as).map (p, ·))).fieldStart) := by
        intro k hk hvalue hafter
        obtain ⟨hn, ht⟩ := ih hk hafter
        exact ⟨⟨hvalue, hn⟩, ht⟩
      cases a with
      | startField => exact hstep false h (by simp) (by simp)
      | writeField => exact hstep true h (by simp) (by simp [Marks.after])
      | writeValue =>
          cases known with
          | false => simp [RequestTable.nameKnown] at h
          | true =>
              rw [RequestTable.nameKnown, if_pos rfl] at h
              exact hstep true h (fun _ => hm rfl) hm
      | _ => exact hstep known h (by simp) hm

/-- **A value comes with its name**: whenever the value of a header field is
complete, the last field started is the one whose name was written. -/
theorem named_of_walk (h : (HttpRequestParser.scanner uriRelaxed).walk q bs = some rs)
    (hm : RequestTable.inValue q = true → m.nameStart = m.fieldStart) :
    m.Named (events p rs) := by
  induction bs generalizing q rs m p with
  | nil => cases h
  | cons b bs ih =>
      obtain ⟨r, hrule, hcases⟩ := Scanner.walk_cons h
      have hcheck := Scanner.of_all (m := HttpRequestParser.scanner uriRelaxed)
        (P := fun q r => (RequestTable.nameKnown (RequestTable.inValue q) r.acts).any
          (!RequestTable.inValue r.next || ·))
        RequestTable.names_known (Scanner.rule_mem hrule)
      obtain ⟨known, hknown, hnext⟩ := Option.any_eq_true _ _ |>.mp hcheck
      obtain ⟨hfirst, hafter⟩ := named_of_nameKnown (p := p) hknown hm
      rcases hcases with ⟨_, _, rfl⟩ | ⟨_, rs', hrest, rfl⟩
      · exact Marks.Named.append.mpr ⟨hfirst, trivial⟩
      · refine Marks.Named.append.mpr ⟨hfirst, ih hrest fun hin => hafter ?_⟩
        simpa [hin] using hnext

/-- The tokens come in the order of their ranks, from `least` on. -/
def RankedFrom : Nat → List Token → Prop
  | _, [] => True
  | least, t :: ts => least ≤ t.rank ∧ RankedFrom (RequestTable.nextRank t.rank) ts

theorem RankedFrom.mono {least least' : Nat} {ts : List Token} (h : RankedFrom least ts)
    (hle : least' ≤ least) : RankedFrom least' ts := by
  cases ts with
  | nil => trivial
  | cons t ts => exact ⟨hle.trans h.1, h.2⟩

theorem rank_of_mem {least : Nat} {ts : List Token} (h : RankedFrom least ts) {t : Token}
    (ht : t ∈ ts) : least ≤ t.rank ∨ t.rank = 5 := by
  induction ts generalizing least with
  | nil => cases ht
  | cons t' ts ih =>
      rcases List.mem_cons.mp ht with rfl | ht
      · exact .inl h.1
      · rcases ih h.2 ht with hle | h5
        · have hfirst := h.1
          have hrank := t.rank_le
          simp only [RequestTable.nextRank] at hle
          omega
        · exact .inr h5

/-- A token that is no header field does not come again. -/
theorem RankedFrom.once {least : Nat} {ts ts' : List Token} {t : Token}
    (h : RankedFrom least (ts ++ t :: ts')) (ht : t.rank ≠ 5) :
    ∀ t' ∈ ts', t'.rank ≠ t.rank := by
  induction ts generalizing least with
  | nil =>
      intro t' ht' heq
      have hrank := t.rank_le
      rcases rank_of_mem h.2 ht' with hle | h5
      · simp only [RequestTable.nextRank] at hle
        omega
      · omega
  | cons _ ts ih => exact ih h.2

theorem rank_completed (m : Marks) (p : Nat) (a : RequestAction) :
    (m.completed p a).map Token.rank = RequestTable.rankOf a := by
  cases a <;> rfl

/-- The actions of one rule complete their tokens in order. -/
theorem ranked_of_stageAfter {as : List RequestAction} {least least' : Nat} {ts : List Token}
    (h : RequestTable.stageAfter least as = some least') (hts : RankedFrom least' ts) :
    RankedFrom least (m.tokens (as.map (p, ·)) ++ ts) := by
  induction as generalizing m least with
  | nil =>
      cases h
      exact hts
  | cons a as ih =>
      have hrank := rank_completed m p a
      simp only [List.map_cons, Marks.tokens, List.append_assoc]
      simp only [RequestTable.stageAfter, ← hrank] at h
      cases hc : m.completed p a with
      | none =>
          simp only [hc, Option.map_none] at h
          exact ih h
      | some t =>
          simp only [hc, Option.map_some] at h
          split at h
          · next hle => exact ⟨hle, ih h⟩
          · cases h

/-- **The tokens of a request come in the order of its grammar.** -/
theorem ranked_of_walk (h : (HttpRequestParser.scanner uriRelaxed).walk q bs = some rs) :
    RankedFrom (RequestTable.stage q) (m.tokens (events p rs)) := by
  induction bs generalizing q rs m p with
  | nil => cases h
  | cons b bs ih =>
      obtain ⟨r, hrule, hcases⟩ := Scanner.walk_cons h
      have hcheck := Scanner.of_all (m := HttpRequestParser.scanner uriRelaxed)
        (P := fun q r => (RequestTable.stageAfter (RequestTable.stage q) r.acts).any
          (· ≤ RequestTable.stage r.next))
        RequestTable.stages_rise (Scanner.rule_mem hrule)
      obtain ⟨least, hleast, hnext⟩ := Option.any_eq_true _ _ |>.mp hcheck
      rcases hcases with ⟨_, _, rfl⟩ | ⟨_, rs', hrest, rfl⟩
      · have hfirst : RankedFrom _ (m.tokens (r.acts.map (p, ·)) ++ []) :=
          ranked_of_stageAfter hleast trivial
        simpa [events] using hfirst
      · rw [events, Marks.tokens_append]
        exact ranked_of_stageAfter hleast ((ih hrest).mono (by simpa using hnext))

end Mingo.Http
