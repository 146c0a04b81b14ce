import Mingo.Http.Session
import Mingo.Http.Tokens

/-!
# Receiving a request in pieces

A `read` returns what has arrived, so a request reaches `recvRequest` in pieces
that have nothing to do with its tokens.  As long as the header block is not
complete the parser consumes every piece whole, so each is scanned in an own
buffer from offset 0 on.

* `execute_spec` -- one call of `execute`: the callbacks take the tokens that end
  in the buffer, and no assertion fails;
* `recvHead_pieces` -- the loop over the pieces, by induction on them: the tokens
  of the header block, each as far as its last piece still shows it;
* `recvRequest_pieces` -- the same for a whole call, with the body.
-/

namespace Mingo.Http

open Scanner (Rule events)

/-- The tokens of a header block: of the bytes the automaton reads up to its
state 348, the end of an HTTP request, and no further. -/
def headTokens (uriRelaxed : Bool) (head : List UInt8) : Option (List Token) :=
  match (HttpRequestParser.scanner uriRelaxed).walk 1 head with
  | none => none
  | some rs =>
      if Scanner.lastState 1 rs = 348 then some (Marks.zero.tokens (events 0 rs)) else none

variable {c : Session} {input buf : List UInt8} {cut : Nat → Nat} {base n q q' : Nat} {m : Marks}
  {s s' : HttpRequestParser} {rs : List (Rule RequestAction)}

/-- The parser between two calls of `execute`, in state `q` and with the next read
result at index `base`. -/
structure Between (cut : Nat → Nat) (base q : Nat) (m : Marks) (s : HttpRequestParser) :
    Prop where
  cs : s.parser.cs = q
  error : s.error = 0
  bodyStart : s.parser.bodyStart = 0
  queryStart : s.parser.queryStart = m.queryStart - cut m.queryStart
  within : m.Within base

theorem Between.follows (h : Between cut base q m s) : Follows cut base m s.rewind := by
  have hw := h.within
  refine ⟨?_, ?_, ?_, h.queryStart⟩
  · have := hw.mark
    simp only [HttpRequestParser.rewind]
    omega
  · have := hw.fieldStart
    simp only [HttpRequestParser.rewind]
    omega
  · have := hw.nameEnd
    simp only [HttpRequestParser.rewind]
    omega

/-- **One call of `execute`.**  When the scan of the buffer takes the rules `rs`
and stops behind them, the callbacks took their tokens, or one of them refused;
no assertion fails. -/
theorem execute_spec {uriRelaxed : Bool} (hw : Window input buf cut base)
    (hb : Between cut base q m s) (hq : q ≠ 0) (hne : buf ≠ []) (hn : n ≤ buf.length)
    (hlen : rs.length = n)
    (hexec : (HttpRequestParser.scanner uriRelaxed).exec (HttpRequestParser.act buf) q 0 s.rewind
      buf = (Scanner.perform (HttpRequestParser.act buf) (events 0 rs) s.rewind).map
        fun t => (q', 0 + n, t))
    (hspace : ∀ e ∈ events 0 rs, e.2 = .requestMethod → buf[e.1]? = some 32)
    (hnamed : m.Named (events base rs)) :
    match s.execute uriRelaxed buf with
    | none => applyAll input cut (m.tokens (events base rs)) s.data = none
    | some (left, s') =>
        left = buf.drop n ∧ s'.parser.cs = q' ∧
          s'.parser.queryStart = (m.afterAll (events base rs)).queryStart -
            cut (m.afterAll (events base rs)).queryStart ∧
          ((∀ e ∈ events 0 rs, e.2 ≠ .done) → s'.parser.bodyStart = 0) ∧
          Takes input cut (m.tokens (events base rs)) s s' := by
  have hevents : events base rs = (events 0 rs).map fun e => (base + e.1, e.2) :=
    Scanner.events_add base 0 rs
  have hpos : 0 < buf.length := List.length_pos_iff.mpr hne
  have hbounds : ∀ e ∈ events 0 rs, 0 ≤ e.1 ∧ e.1 < buf.length := by
    intro e he
    have := Scanner.events_bounds he
    omega
  have hperform := perform_tokens hw (Scanner.events_sorted 0 rs) hbounds hspace
    (hevents ▸ hnamed) hb.within hb.follows
  rw [← hevents] at hperform
  rw [HttpRequestParser.execute, HttpRequestParser.httpParserExecute, if_neg hne, hb.cs, hexec]
  cases ht : Scanner.perform (HttpRequestParser.act buf) (events 0 rs) s.rewind with
  | none =>
      simp only [ht] at hperform
      exact hperform
  | some t =>
      simp only [ht] at hperform
      obtain ⟨hf, hsteady, htakes⟩ := hperform
      have hwithin : (m.afterAll (events base rs)).Within (base + (buf.length - 1)) := by
        refine (hb.within.mono (Nat.le_add_right base _)).afterAll fun e he => ?_
        have := Scanner.events_bounds he
        omega
      have hbody : t.parser.bodyStart ≤ buf.length :=
        hsteady.bound (by simp [HttpRequestParser.rewind, hb.bodyStart])
      have hmark := hwithin.mark
      have hfield := hwithin.fieldStart
      have hname := hwithin.nameEnd
      have hfmark := hf.mark
      have hffield := hf.fieldStart
      have hflen := hf.fieldLen
      have hinb : HttpRequestParser.inBounds { t.parser with cs := q', nread := 0 + n }
          buf.length = true := by
        simp only [HttpRequestParser.inBounds, Bool.and_eq_true, decide_eq_true_eq]
        omega
      have herror : s.parser.hasError = false := by
        simp [HttpParser.hasError, hb.cs, hq]
      simp only [Option.map_some, herror, Bool.false_eq_true, if_false]
      rw [if_pos hinb]
      refine ⟨by simp, rfl, hf.queryStart, fun hno => ?_, htakes⟩
      have hsame := hsteady.same fun ⟨e, he, hdone⟩ => hno e he hdone
      exact hsame.trans hb.bodyStart

theorem RequestTable.final_by_done : (RequestTable.rows.all fun row => row.2.all fun r =>
    r.acts.contains .done || decide (r.next < 348)) = true := by
  decide +kernel

variable {uriRelaxed : Bool} {bs bs' : List UInt8}

theorem start_ne_zero (h : (HttpRequestParser.scanner uriRelaxed).walk q bs = some rs) :
    q ≠ 0 := by
  rintro rfl
  cases bs with
  | nil => cases h
  | cons b bs =>
      obtain ⟨r, hrule, _⟩ := Scanner.walk_cons h
      have hempty : (HttpRequestParser.scanner uriRelaxed).rules 0 = [] := by
        have hrow : RequestTable.rows.lookup 0 = none := by decide
        simp [Scanner.rules, HttpRequestParser.scanner, hrow]
      have hmem := Scanner.rule_mem hrule
      simp [hempty] at hmem

theorem not_done_of_not_ends {r : Rule RequestAction}
    (h : (HttpRequestParser.scanner uriRelaxed).ends r = false) : RequestAction.done ∉ r.acts := by
  intro hmem
  rw [Scanner.ends, List.any_eq_false] at h
  exact h _ hmem rfl

/-- The automaton is not in a final state before the end of the header block. -/
theorem lt_final_of_walk {rs₁ : List (Rule RequestAction)}
    (h : (HttpRequestParser.scanner uriRelaxed).walk q bs = some rs) (hsub : ∀ r ∈ rs₁, r ∈ rs)
    (hends : ∀ r ∈ rs₁, (HttpRequestParser.scanner uriRelaxed).ends r = false)
    (hne : rs₁ ≠ []) : Scanner.lastState q rs₁ < 348 := by
  obtain ⟨r, hr, hlast⟩ := Scanner.lastState_mem (q := q) hne
  obtain ⟨q', hmem⟩ := Scanner.mem_of_walk h (hsub r hr)
  have hcheck := Scanner.of_all (m := HttpRequestParser.scanner uriRelaxed)
    (P := fun _ r => r.acts.contains .done || decide (r.next < 348))
    RequestTable.final_by_done hmem
  have hno : RequestAction.done ∉ r.acts := not_done_of_not_ends (hends r hr)
  have hlt : r.next < 348 := by simpa [hno] using hcheck
  rwa [hlast]

variable {turns : Nat} {stream : SocketStream} {piece : List UInt8} {pieces : List (List UInt8)}

/-- **The call of `execute` that completes the header block.** -/
theorem execute_last (hw : Window input (bs ++ bs') cut base) (hb : Between cut base q m s)
    (hwalk : (HttpRequestParser.scanner c.uriRelaxed).walk q bs = some rs)
    (hfinal : Scanner.lastState q rs = 348) (hnamed : m.Named (events base rs)) :
    match applyAll input cut (m.tokens (events base rs)) s.data with
    | none => ∀ left s', s.execute c.uriRelaxed (bs ++ bs') = some (left, s') → s'.hasError = true
    | some data => ∃ s', s.execute c.uriRelaxed (bs ++ bs') = some (bs', s') ∧
        s'.hasError = false ∧ s'.isFinished = true ∧ s'.data = data := by
  have hne : bs ++ bs' ≠ [] := by simp [Scanner.walk_ne_nil hwalk]
  have hspace : ∀ e ∈ events 0 rs, e.2 = .requestMethod → (bs ++ bs')[e.1]? = some 32 := by
    intro e he ha
    have hbyte := space_of_walk hwalk he ha
    obtain ⟨hlt, _⟩ := List.getElem?_eq_some_iff.mp hbyte
    rw [Nat.sub_zero] at hlt hbyte
    rw [List.getElem?_append_left hlt, hbyte]
  have hexecute := execute_spec hw hb (start_ne_zero hwalk) hne (by simp)
    (Scanner.length_of_walk hwalk) (Scanner.exec_of_walk hwalk bs' 0 s.rewind) hspace hnamed
  cases hs : s.execute c.uriRelaxed (bs ++ bs') with
  | none =>
      simp only [hs] at hexecute
      simp [hexecute]
  | some r =>
      obtain ⟨left, s'⟩ := r
      simp only [hs] at hexecute
      obtain ⟨rfl, hcs, _, _, ⟨herror, hdata⟩ | ⟨herror, hdata⟩⟩ := hexecute
      · have hok : s'.hasError = false := by
          simp [HttpRequestParser.hasError, HttpParser.hasError, hcs, hfinal, herror, hb.error]
        have hfin : s'.isFinished = true := by
          simp [HttpRequestParser.isFinished, HttpParser.isFinished, hcs, hfinal]
        rw [hdata]
        exact ⟨s', by rw [List.drop_left], hok, hfin, rfl⟩
      · have hbad : s'.hasError = true := by
          simp [HttpRequestParser.hasError, herror]
        simp [hdata, hbad]

/-- **The read result that completes the header block.** -/
theorem recvHead_last (turns : Nat) (hw : Window input (bs ++ bs') cut base)
    (hb : Between cut base q m s)
    (hwalk : (HttpRequestParser.scanner c.uriRelaxed).walk q bs = some rs)
    (hfinal : Scanner.lastState q rs = 348) (hnamed : m.Named (events base rs))
    (hconn : stream.connected = true) (hpending : stream.pending = (bs ++ bs') :: pieces)
    (hsize : (bs ++ bs').length ≤ c.buffSize) (hmax : (bs ++ bs').length ≤ maxRead) :
    match applyAll input cut (m.tokens (events base rs)) s.data with
    | none => (c.recvHead (turns + 1) s [] stream).1.Failed
    | some data =>
        if bufferFull c.buffSize bs'.length then (c.recvHead (turns + 1) s [] stream).1 = .null
        else ∃ s', c.recvHead (turns + 1) s [] stream =
          (.message (s', bs'), { stream with pending := pieces }) ∧ s'.data = data := by
  have hne : bs ++ bs' ≠ [] := by simp [Scanner.walk_ne_nil hwalk]
  have hread := SocketStream.read_piece hconn hpending hsize hmax
  have hexecute := execute_last hw hb hwalk hfinal hnamed
  simp only [Session.recvHead, readHead, List.length_nil, Nat.sub_zero, hread, hne, if_false,
    List.nil_append]
  cases happly : applyAll input cut (m.tokens (events base rs)) s.data with
  | none =>
      simp only [happly] at hexecute
      cases hs : s.execute c.uriRelaxed (bs ++ bs') with
      | none => simp [Received.Failed]
      | some r => simp [hexecute r.1 r.2 hs, Received.Failed]
  | some data =>
      simp only [happly] at hexecute
      obtain ⟨s', hs, hok, hfin, rfl⟩ := hexecute
      cases hfull : bufferFull c.buffSize bs'.length with
      | true => simp [hs, hok, hfull]
      | false => simp [hs, hok, hfin, hfull]

/-- **A read result that ends before the header block does.** -/
theorem recvHead_middle (turns : Nat) (hw : Window input piece cut base)
    (hb : Between cut base q m s)
    (hwalk : (HttpRequestParser.scanner c.uriRelaxed).walk q (piece ++ bs) = some rs)
    (hne : piece ≠ []) (hrest : bs ≠ []) (hnamed : m.Named (events base rs))
    (hfull : bufferFull c.buffSize 0 = false)
    (hconn : stream.connected = true) (hpending : stream.pending = piece :: pieces)
    (hsize : piece.length ≤ c.buffSize) (hmax : piece.length ≤ maxRead) :
    ∃ rs₁ rs₂, rs = rs₁ ++ rs₂ ∧ rs₁.length = piece.length ∧
      (HttpRequestParser.scanner c.uriRelaxed).walk (Scanner.lastState q rs₁) bs = some rs₂ ∧
      match applyAll input cut (m.tokens (events base rs₁)) s.data with
      | none => (c.recvHead (turns + 1) s [] stream).1.Failed
      | some data =>
          ∃ s', c.recvHead (turns + 1) s [] stream =
              c.recvHead turns s' [] { stream with pending := pieces } ∧ s'.data = data ∧
            Between cut (base + piece.length) (Scanner.lastState q rs₁)
              (m.afterAll (events base rs₁)) s' := by
  obtain ⟨rs₁, rs₂, rfl, hlen, hwalk₂, _, hends, hexec⟩ := Scanner.walk_split hwalk hrest
  refine ⟨rs₁, rs₂, rfl, hlen, hwalk₂, ?_⟩
  have hne₁ : rs₁ ≠ [] := by
    rw [← List.length_pos_iff, hlen]
    exact List.length_pos_iff.mpr hne
  have hspace : ∀ e ∈ events 0 rs₁, e.2 = .requestMethod → piece[e.1]? = some 32 := by
    intro e he ha
    have hmem : e ∈ events 0 (rs₁ ++ rs₂) := by
      rw [Scanner.events_append]
      exact List.mem_append_left _ he
    have hbyte := space_of_walk hwalk hmem ha
    have hlt := (Scanner.events_bounds he).2
    rwa [Nat.sub_zero, List.getElem?_append_left (by omega)] at hbyte
  rw [Scanner.events_append, Marks.Named.append] at hnamed
  have hexecute := execute_spec hw hb (start_ne_zero hwalk) hne (Nat.le_refl _) hlen
    (hexec (HttpRequestParser.act piece) 0 s.rewind) hspace hnamed.1
  have hread := SocketStream.read_piece hconn hpending hsize hmax
  simp only [Session.recvHead, readHead, List.length_nil, Nat.sub_zero, hread, hne, if_false,
    List.nil_append]
  cases hs : s.execute c.uriRelaxed piece with
  | none =>
      simp only [hs] at hexecute
      simp [hexecute, Received.Failed]
  | some r =>
      obtain ⟨left, s'⟩ := r
      simp only [hs] at hexecute
      obtain ⟨rfl, hcs, hquery, hbody, ⟨herror, hdata⟩ | ⟨herror, hdata⟩⟩ := hexecute
      · have hlast := lt_final_of_walk hwalk (fun r hr => List.mem_append_left rs₂ hr) hends hne₁
        have hok : s'.hasError = false := by
          simp [HttpRequestParser.hasError, HttpParser.hasError, hcs, herror, hb.error,
            start_ne_zero hwalk₂]
        have hfin : s'.isFinished = false := by
          simp [HttpRequestParser.isFinished, HttpParser.isFinished, hcs, hlast]
        simp only [hdata, hok, hfin, List.drop_length, List.length_nil, hfull,
          Bool.false_eq_true, if_false]
        refine ⟨s', rfl, rfl, hcs, herror.trans hb.error, hbody ?_, hquery, ?_⟩
        · intro e he hdone
          obtain ⟨i, r, hr, _, hmem⟩ := Scanner.mem_events he
          exact not_done_of_not_ends (hends r (List.mem_of_getElem? hr)) (hdone ▸ hmem)
        · refine (hb.within.mono (Nat.le_add_right base _)).afterAll fun e he => ?_
          have := (Scanner.events_bounds he).2
          omega
      · have hbad : s'.hasError = true := by
          simp [HttpRequestParser.hasError, herror]
        simp [hdata, hbad, Received.Failed]

/-- **The header block in pieces.**  The loop ends with the request that the
tokens make of what is left of them, and with the bytes behind the header block
still in front of it. -/
theorem recvHead_pieces {body : List UInt8}
    (hinput : input.drop base = pieces.flatten) (hbytes : pieces.flatten = bs ++ body)
    (hcut : ∀ x, base ≤ x → cut x = base + readStart pieces (x - base))
    (hb : Between cut base q m s)
    (hwalk : (HttpRequestParser.scanner c.uriRelaxed).walk q bs = some rs)
    (hfinal : Scanner.lastState q rs = 348) (hnamed : m.Named (events base rs))
    (hfull : bufferFull c.buffSize 0 = false ∨ AtOnce pieces bs.length)
    (hread : Readable c.buffSize bs.length pieces) (hconn : stream.connected = true)
    (hpending : stream.pending = pieces)
    (hturns : pieces.length ≤ turns) :
    match applyAll input cut (m.tokens (events base rs)) s.data with
    | none => (c.recvHead turns s [] stream).1.Failed
    | some data =>
        if bufferFull c.buffSize (overshoot pieces bs.length) then
          (c.recvHead turns s [] stream).1.Failed
        else ∃ s' left pieces',
          c.recvHead turns s [] stream =
              (.message (s', left), { stream with pending := pieces' }) ∧
            s'.data = data ∧ left ++ pieces'.flatten = body ∧
            left.length = overshoot pieces bs.length ∧ ∀ p ∈ pieces', p ≠ [] := by
  induction pieces generalizing base bs q m s rs turns stream with
  | nil =>
      have hnil : bs = [] := (List.append_eq_nil_iff.mp hbytes.symm).1
      exact absurd hnil (Scanner.walk_ne_nil hwalk)
  | cons piece pieces ih =>
      obtain ⟨k, hk⟩ : ∃ k, bs.length = k + 1 :=
        Nat.exists_eq_succ_of_ne_zero (by simpa using Scanner.walk_ne_nil hwalk)
      rw [hk] at hread
      obtain ⟨hne, hmax, hsize, hrest⟩ := hread
      rw [← hk] at hrest
      obtain ⟨turns, rfl⟩ : ∃ t, turns = t + 1 :=
        Nat.exists_eq_succ_of_ne_zero (by simp at hturns; omega)
      have hw : Window input piece cut base := by
        refine ⟨by simp [hinput], fun p hp => ?_⟩
        rw [hcut _ (Nat.le_add_right base p), Nat.add_sub_cancel_left, readStart, if_pos hp,
          Nat.add_zero]
      rw [List.flatten_cons] at hbytes
      by_cases hle : bs.length ≤ piece.length
      · obtain ⟨more, rfl, hbody⟩ := split_of_le hbytes hle
        have hover : overshoot ((bs ++ more) :: pieces) bs.length = more.length := by
          simp [overshoot]
        have hlast := recvHead_last turns hw hb hwalk hfinal hnamed hconn hpending
          hsize hmax
        rw [hover]
        cases happly : applyAll input cut (m.tokens (events base rs)) s.data with
        | none =>
            simp only [happly] at hlast
            exact hlast
        | some data =>
            simp only [happly] at hlast
            cases hf : bufferFull c.buffSize more.length with
            | true =>
                simp only [hf, if_true] at hlast ⊢
                exact Received.failed_of_null hlast
            | false =>
                simp only [hf, Bool.false_eq_true, if_false] at hlast ⊢
                obtain ⟨s', heq, hdata⟩ := hlast
                exact ⟨s', more, pieces, heq, hdata, hbody.symm, rfl, hrest.nonempty⟩
      · obtain ⟨bs', rfl, hbytes'⟩ := split_of_le hbytes.symm (Nat.le_of_not_le hle)
        have hne' : bs' ≠ [] := by
          intro hnil
          simp [hnil] at hle
        have hinput' : input.drop (base + piece.length) = pieces.flatten := by
          rw [← List.drop_drop, hinput, List.flatten_cons, List.drop_left]
        have hcut' : ∀ x, base + piece.length ≤ x →
            cut x = base + piece.length + readStart pieces (x - (base + piece.length)) := by
          intro x hx
          have hout : ¬ x - base < piece.length := by omega
          rw [hcut x (by omega), readStart, if_neg hout, Nat.add_assoc, Nat.sub_sub]
        have hover : overshoot (piece :: pieces) (piece ++ bs').length =
            overshoot pieces bs'.length := by
          rw [overshoot, if_neg hle, List.length_append, Nat.add_sub_cancel_left]
        have hfull' : bufferFull c.buffSize 0 = false := by
          rcases hfull with hfull | ⟨_, _, heq, hle'⟩
          · exact hfull
          · cases heq
            exact absurd hle' hle
        obtain ⟨rs₁, rs₂, rfl, hlen, hwalk₂, hmiddle⟩ := recvHead_middle turns hw hb hwalk hne hne'
          hnamed hfull' hconn hpending hsize hmax
        rw [Scanner.events_append, Marks.Named.append, hlen] at hnamed
        rw [Scanner.lastState_append] at hfinal
        rw [Scanner.events_append, Marks.tokens_append, applyAll_append, hlen, hover]
        cases happly : applyAll input cut (m.tokens (events base rs₁)) s.data with
        | none =>
            simp only [happly] at hmiddle
            exact hmiddle
        | some data =>
            simp only [happly] at hmiddle
            obtain ⟨s', heq, rfl, hb'⟩ := hmiddle
            rw [heq]
            rw [List.length_append, Nat.add_sub_cancel_left] at hrest
            exact ih hinput' hbytes' hcut' hb' hwalk₂ hfinal hnamed.2 (.inl hfull') hrest hconn rfl
              (by simpa using hturns)

/-! ### The body -/

/-- The number of body bytes `recvRequest` waits for. -/
def bodyLength (lexicalCast : List UInt8 → Option UInt64) (headers : MapType) : Nat :=
  (toInt64 (contentLength lexicalCast headers)).toNat

/-- A body of `n` bytes of which `offset` came with the header block passes the
check on the result of `readFixSize`. -/
def BodyFits (offset n : Nat) : Prop := n ≤ offset ∨ 0 < toInt32 (n - offset)

instance (offset n : Nat) : Decidable (BodyFits offset n) :=
  inferInstanceAs (Decidable (_ ∨ _))

/-- **Reading a body.**  When the bytes left and the stream hold exactly the body,
it is read whole. -/
theorem readBody_eq {length : Int} {left body : List UInt8} (hconn : stream.connected = true)
    (hne : stream.Nonempty) (hbytes : left ++ stream.unread = body)
    (hlen : body.length = length.toNat) :
    (readBody length left stream).1 =
      if 0 < length then
        if BodyFits left.length body.length then .message (some body) else .null
      else .message none := by
  have hsum : left.length + stream.unread.length = body.length := by
    rw [← hbytes, List.length_append]
  simp only [readBody, ← hlen]
  by_cases hpos : 0 < length
  · rw [if_pos hpos, if_pos hpos]
    by_cases hlt : left.length < body.length
    · have hthere : body.length - left.length ≤ stream.unread.length := by omega
      obtain ⟨stream', hread⟩ := SocketStream.readFixSize_eq hconn hne hthere
      have htake : stream.unread.take (body.length - left.length) = stream.unread :=
        List.take_of_length_le (by omega)
      have hfits : BodyFits left.length body.length ↔
          ¬ toInt32 (body.length - left.length) ≤ 0 := by
        simp only [BodyFits]
        omega
      simp only [if_pos hlt, hread, htake, hbytes, hfits, ite_not]
      split <;> rfl
    · have hfits : BodyFits left.length body.length := .inl (by omega)
      have hrest : stream.unread = [] := List.length_eq_zero_iff.mp (by omega)
      have hleft : left = body := by rw [← hbytes, hrest, List.append_nil]
      rw [if_neg hlt, if_pos hfits, hleft, List.take_length]
  · rw [if_neg hpos, if_neg hpos]

/-- A body that is in the buffer needs no `read`. -/
theorem readBody_buffered {length : Int} {body more : List UInt8}
    (hlen : body.length = length.toNat) :
    readBody length (body ++ more) stream =
      (.message (if 0 < length then some body else none), stream) := by
  have hlt : ¬ (body ++ more).length < body.length := by simp
  simp only [readBody, ← hlen]
  by_cases hpos : 0 < length
  · rw [if_pos hpos, if_neg hlt, if_pos hpos, List.take_left]
  · rw [if_neg hpos, if_neg hpos]

/-- Whatever the body is, the rest of the request is what the parser made. -/
theorem recvBody_message {data : List UInt8} {req : HttpRequest}
    (h : (c.recvBody s data stream).1 = .message req) :
    ∃ body, req = (s.data.setBody body).init := by
  simp only [Session.recvBody] at h
  generalize readBody _ data stream = r at h
  obtain ⟨body, _⟩ := r
  cases body with
  | null => cases h
  | raised => cases h
  | message body =>
      cases body with
      | none => exact ⟨s.data.body, (Received.message.inj h).symm⟩
      | some body => exact ⟨body, (Received.message.inj h).symm⟩

/-- Without a body the request is what the parser made. -/
theorem setBody_nil (h : s.data.body = []) : s.data.setBody [] = s.data := by
  rw [HttpRequest.setBody, ← h]

/-- **The body.**  When the bytes left and the stream hold exactly the body, the
request gets it. -/
theorem recvBody_eq {left body : List UInt8} (hconn : stream.connected = true)
    (hne : stream.Nonempty) (hbytes : left ++ stream.unread = body)
    (hlen : body.length = bodyLength c.lexicalCast s.data.headers)
    (hempty : s.data.body = []) :
    (c.recvBody s left stream).1 =
      if BodyFits left.length body.length then .message (s.data.setBody body).init else .null := by
  simp only [Session.recvBody, HttpRequestParser.getContentLength,
    readBody_eq hconn hne hbytes hlen]
  by_cases hpos : 0 < toInt64 (contentLength c.lexicalCast s.data.headers)
  · rw [if_pos hpos]
    split <;> rfl
  · have hzero : body = [] := by
      rw [← List.length_eq_zero_iff, hlen, bodyLength]
      omega
    have hfits : BodyFits left.length body.length := .inl (by simp [hzero])
    rw [if_neg hpos, if_pos hfits, hzero, setBody_nil hempty]
    rfl

/-- A body that is in the buffer needs no `read`. -/
theorem recvBody_buffered {body more : List UInt8}
    (hlen : body.length = bodyLength c.lexicalCast s.data.headers) (hempty : s.data.body = []) :
    c.recvBody s (body ++ more) stream = (.message (s.data.setBody body).init, stream) := by
  simp only [Session.recvBody, HttpRequestParser.getContentLength, readBody_buffered hlen]
  by_cases hpos : 0 < toInt64 (contentLength c.lexicalCast s.data.headers)
  · rw [if_pos hpos]
    rfl
  · have hzero : body = [] := by
      rw [← List.length_eq_zero_iff, hlen, bodyLength]
      omega
    rw [if_neg hpos, hzero, setBody_nil hempty]
    rfl

/-! ### A whole call -/

theorem between_new (cut : Nat → Nat) : Between cut 0 1 Marks.zero HttpRequestParser.new :=
  ⟨rfl, rfl, rfl, by simp [Marks.zero, HttpRequestParser.new, HttpParser.init],
    ⟨Nat.le_refl 0, Nat.le_refl 0, Nat.le_refl 0, Nat.le_refl 0⟩⟩

theorem headTokens_eq {uriRelaxed : Bool} {head : List UInt8} {ts : List Token}
    (h : headTokens uriRelaxed head = some ts) :
    ∃ rs, (HttpRequestParser.scanner uriRelaxed).walk 1 head = some rs ∧
      Scanner.lastState 1 rs = 348 ∧ ts = Marks.zero.tokens (events 0 rs) := by
  rw [headTokens] at h
  split at h
  · cases h
  · next rs hwalk =>
      split at h
      · next hfinal => exact ⟨rs, hwalk, hfinal, (Option.some.inj h).symm⟩
      · cases h

theorem Token.apply_body {t : Token} {req req' : HttpRequest}
    (h : t.apply input cut req = some req') :
    req'.body = req.body ∧ req'.close = req.close := by
  cases t with
  | method start stop =>
      simp only [Token.apply] at h
      split at h
      · cases h
      · cases h
        exact ⟨rfl, rfl⟩
  | path start stop =>
      cases h
      exact ⟨rfl, rfl⟩
  | query start stop =>
      simp only [Token.apply] at h
      split at h
      · cases h
        exact ⟨rfl, rfl⟩
      · cases h
  | fragment start stop =>
      cases h
      exact ⟨rfl, rfl⟩
  | version start stop =>
      obtain ⟨v, _, rfl⟩ := Option.map_eq_some_iff.mp h
      exact ⟨rfl, rfl⟩
  | field start colon valueStart stop =>
      simp only [Token.apply] at h
      split at h
      · cases h
        exact ⟨rfl, rfl⟩
      · cases h
        exact ⟨rfl, rfl⟩

/-- The callbacks touch neither the body nor the connection flag. -/
theorem applyAll_body {ts : List Token} {req req' : HttpRequest}
    (h : applyAll input cut ts req = some req') :
    req'.body = req.body ∧ req'.close = req.close := by
  induction ts generalizing req with
  | nil =>
      cases h
      exact ⟨rfl, rfl⟩
  | cons t ts ih =>
      obtain ⟨mid, hmid, hrest⟩ := Option.bind_eq_some_iff.mp h
      have hfirst := t.apply_body hmid
      exact ⟨(ih hrest).1.trans hfirst.1, (ih hrest).2.trans hfirst.2⟩

theorem recvRequest_failed (h : (c.recvHead (stream.unread.length + 1) .new [] stream).1.Failed) :
    (c.recvRequest stream).1.Failed := by
  rw [Session.recvRequest]
  split
  · next hmessage => exact absurd (congrArg Prod.fst hmessage) (h _)
  · simp [Received.Failed]
  · simp [Received.Failed]

theorem recvRequest_message {left : List UInt8} {stream' : SocketStream}
    (h : c.recvHead (stream.unread.length + 1) .new [] stream = (.message (s, left), stream')) :
    c.recvRequest stream = c.recvBody s left stream' := by
  rw [Session.recvRequest, h]

/-- **A request in pieces**, up to the end of its header block. -/
theorem recvRequest_pieces {head body : List UInt8} {ts : List Token}
    (hts : headTokens c.uriRelaxed head = some ts)
    (hfull : bufferFull c.buffSize 0 = false ∨ AtOnce pieces head.length)
    (hbytes : pieces.flatten = head ++ body) (hread : Readable c.buffSize head.length pieces) :
    match applyAll (head ++ body) (readStart pieces) ts HttpRequest.new with
    | none => (c.recvRequest (.ofPieces pieces)).1.Failed
    | some data =>
        if bufferFull c.buffSize (overshoot pieces head.length) then
          (c.recvRequest (.ofPieces pieces)).1.Failed
        else
          (∀ req, (c.recvRequest (.ofPieces pieces)).1 = .message req →
            ∃ b, req = (data.setBody b).init) ∧
          (body.length = bodyLength c.lexicalCast data.headers →
            (c.recvRequest (.ofPieces pieces)).1 =
              if BodyFits (overshoot pieces head.length) body.length
              then .message (data.setBody body).init else .null) := by
  obtain ⟨rs, hwalk, hfinal, rfl⟩ := headTokens_eq hts
  have hcut : ∀ x, 0 ≤ x → readStart pieces x = 0 + readStart pieces (x - 0) := by simp
  have hnamed : Marks.zero.Named (events 0 rs) := named_of_walk hwalk fun _ => rfl
  have hturns : pieces.length ≤ (SocketStream.ofPieces pieces).unread.length + 1 :=
    (length_le_flatten hread.nonempty).trans (Nat.le_succ _)
  have hinput : (head ++ body).drop 0 = pieces.flatten := hbytes.symm
  have hconn : (SocketStream.ofPieces pieces).connected = true := rfl
  have hhead := recvHead_pieces hinput hbytes hcut (between_new (readStart pieces)) hwalk hfinal
    hnamed hfull hread hconn rfl hturns
  have hnew : HttpRequestParser.new.data = HttpRequest.new := rfl
  rw [hnew] at hhead
  cases happly : applyAll (head ++ body) (readStart pieces) (Marks.zero.tokens (events 0 rs))
      HttpRequest.new with
  | none =>
      simp only [happly] at hhead
      exact recvRequest_failed hhead
  | some data =>
      simp only [happly] at hhead
      dsimp only
      split at hhead
      · next hover =>
          rw [if_pos hover]
          exact recvRequest_failed hhead
      · next hover =>
          rw [if_neg hover]
          obtain ⟨s', left, pieces', heq, rfl, hleft, hlen, hne⟩ := hhead
          rw [recvRequest_message heq]
          refine ⟨fun req hreq => recvBody_message hreq, fun hbody => ?_⟩
          have hempty : s'.data.body = [] := (applyAll_body happly).1
          have hconn' : (⟨pieces', true⟩ : SocketStream).connected = true := rfl
          have hne' : (⟨pieces', true⟩ : SocketStream).Nonempty := hne
          have hres := recvBody_eq hconn' hne' hleft hbody hempty
          rwa [hlen] at hres

end Mingo.Http
