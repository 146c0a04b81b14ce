import Mingo.Http.ResponseHead

/-!
# Receiving a chunked response

Behind the header block of a chunked response, for every split of the bytes into
results of `read`.

* `recvBody_chunked` -- the loops collect the chunks in a string of their own, and
  the response keeps the empty body the parser gave it;
* `recvSizeLine_pieces` -- the automaton is set back for every read result, so the
  end of a size line has to come with its last digit;
* `recvResponse_chunked_iff` -- so a response gets the data of its chunks exactly
  when there are none, and the bytes come well.
-/

namespace Mingo.Http

open Scanner (Rule events)
open HttpResponseParser (scanner)

namespace Connection

variable {c : Connection} {turns : Nat} {s s' : HttpResponseParser}
  {data left body bs piece : List UInt8} {stream stream' : SocketStream}
  {pieces : List (List UInt8)} {rs : List (Rule ResponseAction)}

/-! ### The body of a chunked response -/

/-- The loop over a size line does not touch the body of the response. -/
theorem recvSizeLine_body {begin_ : Bool}
    (h : c.recvSizeLine turns begin_ s data stream = (.message (s', left), stream')) :
    s'.data.body = s.data.body := by
  induction turns generalizing begin_ s data stream with
  | zero => cases h
  | succ turns ih =>
      simp only [recvSizeLine] at h
      generalize (if (!begin_ || data.isEmpty) = true then stream.read (c.buffSize - data.length)
        else ([], stream)) = r at h
      split at h
      · cases h
      · split at h
        · cases h
        · next data₁ s₁ hexecute =>
            split at h
            · cases h
            · next herror =>
                have hok : s₁.hasError = false := by simpa using herror
                obtain ⟨_, _, _, _, _, hbody, _⟩ := HttpResponseParser.execute_some hexecute hok
                split at h
                · cases h
                · split at h
                  · cases h
                    exact hbody
                  · exact (ih h).trans hbody

/-- Neither does the loop over the chunks, which collects their data elsewhere. -/
theorem recvChunks_body {r : HttpResponseParser × List UInt8}
    (h : c.recvChunks turns s data body stream = (.message r, stream')) :
    r.1.data.body = s.data.body := by
  induction turns generalizing s data body stream with
  | zero => cases h
  | succ turns ih =>
      rw [recvChunks] at h
      split at h
      · cases h
      · cases h
      · next hline =>
          split at h
          · cases h
          · cases h
          · split at h
            · cases h
              exact recvSizeLine_body hline
            · exact (ih h).trans (recvSizeLine_body hline)

/-- A chunked response keeps the body the parser gave it. -/
theorem recvBody_chunked {rsp : HttpResponse} (hchunked : s.parser.chunked = true)
    (h : (c.recvBody s data stream).1 = .message rsp) : rsp.body = s.data.body := by
  rw [recvBody, if_pos hchunked] at h
  generalize hrun : c.recvChunks (data.length + stream.unread.length + 1) s data [] stream = r at h
  obtain ⟨r, stream₁⟩ := r
  cases r with
  | null => cases h
  | raised => cases h
  | message r =>
      cases h
      exact recvChunks_body hrun

/-! ### A size line in pieces -/

/-- The parser at the start of a size line. -/
theorem awaits_restart (h : s.error = 0) : Awaits 1 s.restart := ⟨rfl, h, rfl⟩

/-- The rules of a size line set no error. -/
theorem no_version_of_size_line (h : scanner.follow 1 bs = some rs) (hfirst : bs.head? ≠ some 72) :
    .httpVersion ∉ rs.flatMap Rule.acts := by
  cases bs with
  | nil =>
      cases h
      simp
  | cons b bs =>
      obtain ⟨r, rs', hrule, hrest, rfl⟩ := Scanner.follow_cons h
      obtain ⟨hacts, ⟨rfl, _⟩ | hnext⟩ := HttpResponseParser.rule_first hrule
      · simp at hfirst
      · have hbehind : ResponseTable.inVersion r.next = false := by
          simp [hnext, ResponseTable.inVersion]
        have hno := (HttpResponseParser.follow_behind_version hbehind hrest).1
        simpa [hacts] using hno

/-- A call on a buffer with the end of a size line. -/
theorem execute_line_last (herror : s.error = 0) (hwalk : scanner.walk 1 bs = some rs)
    (hfirst : bs.head? ≠ some 72) (more : List UInt8) :
    ∃ t s', Scanner.perform (HttpResponseParser.act (bs ++ more)) (events 0 rs)
        s.restart.rewind = some t ∧
      HttpResponseParser.execute true s (bs ++ more) = some (more, s') ∧
      s'.parser = { t.parser with cs := Scanner.lastState 1 rs, nread := rs.length } ∧
      s'.error = 0 := by
  have hs := awaits_restart herror
  have hlen := Scanner.length_of_walk hwalk
  have hne : bs ++ more ≠ [] := by simp [Scanner.walk_ne_nil hwalk]
  have hscan : scanner.exec (HttpResponseParser.act (bs ++ more)) 1 0 s.restart.rewind
      (bs ++ more) = _ := Scanner.exec_of_walk hwalk more 0 s.restart.rewind
  rw [← hlen] at hscan
  obtain ⟨t, s', hperform, hexecute, hparser, _, herr⟩ :=
    HttpResponseParser.httpclientParserExecute_eq hs.bodyStart hne (by simp [hlen]) hscan
  have hkeeps := HttpResponseParser.perform_keeps hperform
  refine ⟨t, s', hperform, ?_, hparser, ?_⟩
  · rw [HttpResponseParser.execute, if_pos rfl, hexecute, Option.map_some, hlen, List.drop_left]
  · rw [herr, hkeeps.error (no_version_of_size_line (Scanner.follow_of_walk hwalk) hfirst)]
    exact herror

/-- A call on a buffer that ends within a size line. -/
theorem execute_line_middle (herror : s.error = 0)
    (hwalk : scanner.walk 1 (piece ++ bs) = some rs) (hne : piece ≠ []) (hrest : bs ≠ [])
    (hfirst : piece.head? ≠ some 72) :
    ∃ s', HttpResponseParser.execute true s piece = some ([], s') ∧ s'.error = 0 ∧
      s'.hasError = false ∧ s'.isFinished = false := by
  have hs := awaits_restart herror
  obtain ⟨rs₁, rs₂, rfl, hlen, _, hfollow, hends, hexec⟩ := Scanner.walk_split hwalk hrest
  obtain ⟨hpos, hlt⟩ := HttpResponseParser.lastState_of_not_ends hfollow hends hne
  have hscan := hexec (HttpResponseParser.act piece) 0 s.restart.rewind
  rw [← hlen] at hscan
  obtain ⟨t, s', hperform, hexecute, hparser, _, herr⟩ :=
    HttpResponseParser.httpclientParserExecute_eq hs.bodyStart hne (Nat.le_of_eq hlen) hscan
  have hkeeps := HttpResponseParser.perform_keeps hperform
  have herror' : s'.error = 0 := by
    rw [herr, hkeeps.error (no_version_of_size_line hfollow hfirst)]
    exact herror
  have hcs : s'.parser.cs = Scanner.lastState 1 rs₁ := by rw [hparser]
  refine ⟨s', ?_, herror', ?_, ?_⟩
  · rw [HttpResponseParser.execute, if_pos rfl, hexecute, Option.map_some, hlen,
      List.drop_length]
  · have : Scanner.lastState 1 rs₁ ≠ 0 := by omega
    simp [HttpResponseParser.hasError, HttpClientParser.hasError, hcs, herror', this]
  · simp [HttpResponseParser.isFinished, HttpClientParser.isFinished, hcs, Nat.ne_of_lt hlt]

/-- One turn of the loop over a size line, on the bytes in the buffer. -/
theorem recvSizeLine_turn (hne : bs ≠ []) :
    c.recvSizeLine (turns + 1) true s bs stream =
      match HttpResponseParser.execute true s bs with
      | none => (.raised, stream)
      | some (data, s) =>
          if s.hasError then (.null, stream.close)
          else if bufferFull c.buffSize data.length then (.null, stream.close)
          else if s.isFinished then (.message (s, data), stream)
          else c.recvSizeLine turns false s data stream := by
  have hfull : bs.isEmpty = false := by simpa using hne
  cases hexec : HttpResponseParser.execute true s bs with
  | none =>
      simp only [recvSizeLine, hfull, Bool.not_true, Bool.or_self, Bool.false_eq_true, if_false,
        Bool.false_and, List.append_nil, hexec]
  | some r =>
      simp only [recvSizeLine, hfull, Bool.not_true, Bool.or_self, Bool.false_eq_true, if_false,
        Bool.false_and, List.append_nil, hexec]

/-- With an empty buffer the loop reads first. -/
theorem recvSizeLine_read (turns : Nat) (begin_ : Bool)
    (hread : ReadResults c.buffSize (piece :: pieces)) :
    c.recvSizeLine (turns + 1) begin_ s [] ⟨piece :: pieces, true⟩ =
      c.recvSizeLine (turns + 1) true s piece ⟨pieces, true⟩ := by
  obtain ⟨hne, hmax, hsize⟩ := hread piece (by simp)
  have hpiece : (⟨piece :: pieces, true⟩ : SocketStream).read c.buffSize =
      (piece, ⟨pieces, true⟩) := SocketStream.read_piece rfl rfl hsize hmax
  have hfull : piece.isEmpty = false := by simpa using hne
  rw [recvSizeLine_turn hne]
  cases hexec : HttpResponseParser.execute true s piece with
  | none =>
      simp only [recvSizeLine, List.isEmpty_nil, Bool.or_true, if_true, List.length_nil, hexec,
        Nat.sub_zero, hpiece, hfull, Bool.and_false, Bool.false_eq_true, if_false, List.nil_append]
  | some r =>
      simp only [recvSizeLine, List.isEmpty_nil, Bool.or_true, if_true, List.length_nil, hexec,
        Nat.sub_zero, hpiece, hfull, Bool.and_false, Bool.false_eq_true, if_false, List.nil_append]

/-- A size line cannot begin with a byte the automaton has no rule for. -/
theorem recvSizeLine_first {b : UInt8} (hrule : scanner.rule 1 b = none) :
    (c.recvSizeLine turns true s (b :: bs) stream).1.Failed := by
  cases turns with
  | zero => simp [recvSizeLine, Received.Failed]
  | succ turns =>
      have hexec : scanner.exec (HttpResponseParser.act (b :: bs)) s.restart.parser.cs 0
          s.restart.rewind (b :: bs) = some (0, 0, s.restart.rewind) := by
        have hcs : s.restart.parser.cs = 1 := rfl
        simp [Scanner.exec, hcs, hrule]
      rw [recvSizeLine_turn (by simp)]
      cases hexecute : HttpResponseParser.execute true s (b :: bs) with
      | none => simp [Received.Failed]
      | some r =>
          have herror : r.2.hasError = true := by
            obtain ⟨⟨n, u⟩, hscan, rfl⟩ := Option.map_eq_some_iff.mp hexecute
            simp only [HttpResponseParser.httpclientParserExecute, if_true, hexec] at hscan
            split at hscan
            · cases hscan
              simp [HttpResponseParser.hasError, HttpClientParser.hasError]
            · cases hscan
          simp [herror, Received.Failed]

/-! ### The last chunk -/

/-- The size line of the last chunk, with `z` digits. -/
def zeroLine (z : Nat) : List UInt8 := List.replicate z 48 ++ [13, 10]

theorem walk_zeroLine (z : Nat) : scanner.walk 1 (zeroLine (z + 1)) =
    some (Scanner.on Scanner.xdigit [.mark] 2 ::
      List.replicate z (Scanner.on Scanner.xdigit [] 2) ++
        [Scanner.byte 13 [.chunkSize] 3, Scanner.byte 10 [.done] 120]) := by
  have hfirst : scanner.rule 1 48 = some (Scanner.on Scanner.xdigit [.mark] 2) := by
    decide
  have hdigit : scanner.rule 2 48 = some (Scanner.on Scanner.xdigit [] 2) := by decide
  have hend : scanner.walk 2 [13, 10] =
      some [Scanner.byte 13 [.chunkSize] 3, Scanner.byte 10 [.done] 120] := by decide
  have hrest : ∀ z, scanner.walk 2 (zeroLine z) =
      some (List.replicate z (Scanner.on Scanner.xdigit [] 2) ++
        [Scanner.byte 13 [.chunkSize] 3, Scanner.byte 10 [.done] 120]) := by
    intro z
    induction z with
    | zero => exact hend
    | succ z ih =>
        rw [zeroLine, List.replicate_succ, List.cons_append, ← zeroLine, Scanner.walk, hdigit]
        simp only [Scanner.ends, Scanner.on, List.any_nil, Bool.false_eq_true, if_false, ih]
        rfl
  rw [zeroLine, List.replicate_succ, List.cons_append, ← zeroLine, Scanner.walk, hfirst]
  have hmark : scanner.halts .mark = false := rfl
  simp only [Scanner.ends, Scanner.on, List.any_cons, hmark, List.any_nil, Bool.or_self,
    Bool.false_eq_true, if_false, hrest]
  rfl

theorem strtol_zeros (z : Nat) (more : List UInt8) :
    strtol 16 (zeroLine (z + 1) ++ more) = 0 := by
  have hvalue : ∀ z, digitsValue 16 0 (zeroLine z ++ more) = 0 := by
    intro z
    induction z with
    | zero => rfl
    | succ z ih =>
        rw [zeroLine, List.replicate_succ, List.cons_append, List.cons_append, ← zeroLine,
          digitsValue]
        exact ih
  have hskip : skipMark 16 (zeroLine (z + 1) ++ more) = zeroLine (z + 1) ++ more := by
    cases z with
    | zero => rfl
    | succ z => rfl
  have hspace : (zeroLine (z + 1) ++ more).dropWhile isspace = zeroLine (z + 1) ++ more := rfl
  have hdef : strtol 16 (zeroLine (z + 1) ++ more) =
      (min (2 ^ 63 - 1) (digitsValue 16 0 (skipMark 16 (zeroLine (z + 1) ++ more))) : Int) := rfl
  rw [hdef, hskip, hvalue]
  rfl

/-- The last size line is received: its end is in the read result with its last
digit, and the buffer is never taken for full. -/
structure LineOk (c : Connection) (buf : List UInt8) (pieces : List (List UInt8)) (z : Nat) :
    Prop where
  digits : 0 < z
  uncut : 2 ≤ overshoot (buf :: pieces) z
  room : bufferFull c.buffSize 0 = false ∨ z + 2 ≤ buf.length
  left : bufferFull c.buffSize (overshoot (buf :: pieces) (z + 2)) = false

/-- The call that reads the end of the last size line. -/
theorem execute_zeroLine (herror : s.error = 0) (z : Nat) (more : List UInt8) :
    ∃ s', HttpResponseParser.execute true s (zeroLine (z + 1) ++ more) = some (more, s') ∧
      s'.hasError = false ∧ s'.isFinished = true ∧ s'.parser.contentLen = 0 ∧
      s'.parser.chunksDone = true := by
  have hhead : (zeroLine (z + 1)).head? ≠ some 72 := by
    simp [zeroLine, List.replicate_succ]
  obtain ⟨t, s', hperform, hexecute, hparser, herror'⟩ :=
    execute_line_last herror (walk_zeroLine z) hhead more
  have hevents : events 0 (Scanner.on Scanner.xdigit [ResponseAction.mark] 2 ::
      List.replicate z (Scanner.on Scanner.xdigit [] 2) ++
        [Scanner.byte 13 [.chunkSize] 3, Scanner.byte 10 [.done] 120]) =
      [(0, .mark), (z + 1, .chunkSize), (z + 2, .done)] := by
    have hnone : ∀ z p, events p (List.replicate z
        (Scanner.on Scanner.xdigit ([] : List ResponseAction) 2)) = [] := by
      intro z
      induction z with
      | zero => exact fun p => rfl
      | succ z ih => exact fun p => ih (p + 1)
    rw [Scanner.events_append, List.length_cons, List.length_replicate, events, hnone]
    simp [events, Scanner.on, Scanner.byte]
  have hlast : Scanner.lastState 1 (Scanner.on Scanner.xdigit [ResponseAction.mark] 2 ::
      List.replicate z (Scanner.on Scanner.xdigit [] 2) ++
        [Scanner.byte 13 [.chunkSize] 3, Scanner.byte 10 [.done] 120]) = 120 := by
    rw [Scanner.lastState_append]
    rfl
  rw [hevents] at hperform
  rw [hlast] at hparser
  simp only [Scanner.perform, HttpResponseParser.act, Option.bind_some, List.drop_zero,
    strtol_zeros] at hperform
  cases hperform
  have hcs : s'.parser.cs = 120 := by rw [hparser]
  refine ⟨s', hexecute, ?_, ?_, by rw [hparser]; rfl, by rw [hparser]; rfl⟩
  · simp [HttpResponseParser.hasError, HttpClientParser.hasError, herror', hcs]
  · simp [HttpResponseParser.isFinished, HttpClientParser.isFinished, hcs]

theorem drop_zeroLine {n z : Nat} (h : n ≤ z) : (zeroLine z).drop n = zeroLine (z - n) := by
  rw [zeroLine, List.drop_append_of_le_length (by simpa using h), List.drop_replicate, zeroLine]

/-- A buffer that ends within the last size line is consumed, and the next one has
to begin another. -/
theorem recvSizeLine_middle {z : Nat} (turns : Nat) (stream : SocketStream) (herror : s.error = 0)
    (hne : bs ≠ [])
    (hrest : piece ≠ []) (hbytes : bs ++ piece = zeroLine (z + 1)) :
    ∃ s', s'.error = 0 ∧ c.recvSizeLine (turns + 1) true s bs stream =
      if bufferFull c.buffSize 0 then (.null, stream.close)
      else c.recvSizeLine turns false s' [] stream := by
  have hwalk := walk_zeroLine z
  rw [← hbytes] at hwalk
  have hhead : bs.head? ≠ some 72 := by
    have hzero := congrArg List.head? hbytes
    rw [List.head?_append_of_ne_nil bs hne] at hzero
    simp [hzero, zeroLine, List.replicate_succ]
  obtain ⟨s', hexecute, herror', hno, hfinished⟩ :=
    execute_line_middle herror hwalk hne hrest hhead
  refine ⟨s', herror', ?_⟩
  rw [recvSizeLine_turn hne, hexecute]
  simp only [hno, hfinished, Bool.false_eq_true, if_false, List.length_nil]

theorem length_zeroLine (z : Nat) : (zeroLine z).length = z + 2 := by simp [zeroLine]

/-- The buffer with the end of the last size line. -/
theorem recvSizeLine_last (turns z : Nat) (more : List UInt8) (pieces : List (List UInt8))
    (herror : s.error = 0) :
    (LineOk c (zeroLine (z + 1) ++ more) pieces (z + 1) → ∃ s',
      c.recvSizeLine (turns + 1) true s (zeroLine (z + 1) ++ more) ⟨pieces, true⟩ =
          (.message (s', more), ⟨pieces, true⟩) ∧
        s'.parser.contentLen = 0 ∧ s'.parser.chunksDone = true ∧
        more.length = overshoot ((zeroLine (z + 1) ++ more) :: pieces) (z + 1 + 2)) ∧
    (¬ LineOk c (zeroLine (z + 1) ++ more) pieces (z + 1) →
      (c.recvSizeLine (turns + 1) true s (zeroLine (z + 1) ++ more)
        ⟨pieces, true⟩).1.Failed) := by
  have hlen := length_zeroLine (z + 1)
  have hle : z + 1 + 2 ≤ (zeroLine (z + 1) ++ more).length := by
    rw [List.length_append]
    omega
  have hne : zeroLine (z + 1) ++ more ≠ [] := by
    rw [← List.length_pos_iff]
    omega
  have hover : overshoot ((zeroLine (z + 1) ++ more) :: pieces) (z + 1 + 2) = more.length := by
    rw [overshoot, if_pos hle, List.length_append, hlen, Nat.add_sub_cancel_left]
  have huncut : 2 ≤ overshoot ((zeroLine (z + 1) ++ more) :: pieces) (z + 1) := by
    rw [overshoot, if_pos (by omega), List.length_append, hlen]
    omega
  obtain ⟨s', hexecute, hno, hfinished, hzero, hdone⟩ := execute_zeroLine herror z more
  rw [recvSizeLine_turn hne, hexecute]
  simp only [hno, hfinished, Bool.false_eq_true, if_false, if_true]
  constructor
  · intro hok
    have hleft := hok.left
    rw [hover] at hleft
    exact ⟨s', by simp [hleft], hzero, hdone, hover.symm⟩
  · intro hbad
    cases hfull : bufferFull c.buffSize more.length with
    | true => simp [Received.Failed]
    | false => exact absurd ⟨by simp, huncut, .inr hle, by rw [hover, hfull]⟩ hbad

/-- When the buffer ends within the digits, the next one decides. -/
theorem lineOk_middle {z : Nat} (hfull : bufferFull c.buffSize 0 = false) (hz : bs.length ≤ z) :
    LineOk c bs (piece :: pieces) z ↔ LineOk c piece pieces (z - bs.length) := by
  have hbehind : ∀ n, bs.length < n →
      overshoot (bs :: piece :: pieces) n = overshoot (piece :: pieces) (n - bs.length) := by
    intro n hn
    rw [overshoot, if_neg (by omega)]
  have hsame : z + 2 - bs.length = z - bs.length + 2 := by omega
  constructor
  · rintro ⟨_, huncut, _, hleft⟩
    have hlt : bs.length < z := by
      by_contra hge
      rw [overshoot, if_pos (by omega)] at huncut
      omega
    rw [hbehind z hlt] at huncut
    rw [hbehind (z + 2) (by omega), hsame] at hleft
    exact ⟨by omega, huncut, .inl hfull, hleft⟩
  · rintro ⟨hdigits, huncut, _, hleft⟩
    refine ⟨by omega, ?_, .inl hfull, ?_⟩
    · rwa [hbehind z (by omega)]
    · rwa [hbehind (z + 2) (by omega), hsame]

/-- **The last size line in pieces.**  The loop over it returns what is behind it,
or fails. -/
theorem recvSizeLine_pieces {z : Nat} {rest : List UInt8} (herror : s.error = 0) (hne : bs ≠ [])
    (hbytes : bs ++ pieces.flatten = zeroLine z ++ rest)
    (hread : ReadResults c.buffSize pieces) (hturns : pieces.length < turns) :
    (LineOk c bs pieces z → ∃ s' left pieces',
      c.recvSizeLine turns true s bs ⟨pieces, true⟩ = (.message (s', left), ⟨pieces', true⟩) ∧
        s'.parser.contentLen = 0 ∧ s'.parser.chunksDone = true ∧
        left.length = overshoot (bs :: pieces) (z + 2) ∧ left ++ pieces'.flatten = rest ∧
        ReadResults c.buffSize pieces') ∧
    (¬ LineOk c bs pieces z → (c.recvSizeLine turns true s bs ⟨pieces, true⟩).1.Failed) := by
  have hlen := length_zeroLine
  have hreturn : scanner.rule 1 13 = none := by decide
  have hfeed : scanner.rule 1 10 = none := by decide
  induction turns generalizing pieces z s bs with
  | zero => omega
  | succ turns ih =>
      cases z with
      | zero =>
          obtain ⟨b, bs', rfl⟩ := List.exists_cons_of_ne_nil hne
          obtain rfl : b = 13 := (List.cons.inj hbytes).1
          exact ⟨fun hok => absurd hok.digits (by simp), fun _ => recvSizeLine_first hreturn⟩
      | succ z =>
          by_cases hle : z + 1 + 2 ≤ bs.length
          · obtain ⟨more, rfl, hrest⟩ := split_of_le hbytes (by rw [hlen]; exact hle)
            obtain ⟨hok, hfail⟩ :=
              recvSizeLine_last (c := c) turns z more pieces herror
            refine ⟨fun h => ?_, hfail⟩
            obtain ⟨s', heq, hzero, hdone, hover⟩ := hok h
            exact ⟨s', more, pieces, heq, hzero, hdone, hover, hrest.symm, hread⟩
          · rcases List.append_eq_append_iff.mp hbytes with ⟨cut, hcut, hflat⟩ | ⟨more, rfl, _⟩
            · have hcutlen : bs.length + cut.length = z + 1 + 2 := by
                rw [← hlen, hcut, List.length_append]
              have hcutne : cut ≠ [] := by
                rw [← List.length_pos_iff]
                omega
              have hdrop : cut = (zeroLine (z + 1)).drop bs.length := by
                rw [hcut, List.drop_left]
              obtain ⟨s', herror', heq⟩ :=
                recvSizeLine_middle (c := c) turns ⟨pieces, true⟩ herror hne hcutne hcut.symm
              cases pieces with
              | nil => exact absurd (List.append_eq_nil_iff.mp hflat.symm).1 hcutne
              | cons piece pieces =>
                  rw [heq]
                  have hover : overshoot (bs :: piece :: pieces) (z + 1 + 2) =
                      overshoot (piece :: pieces) (z + 1 + 2 - bs.length) := by
                    rw [overshoot, if_neg hle]
                  cases hfull : bufferFull c.buffSize 0 with
                  | true =>
                      refine ⟨fun hok => ?_, fun _ => by simp [Received.Failed]⟩
                      rcases hok.room with hroom | hroom
                      · rw [hfull] at hroom
                        cases hroom
                      · exact absurd hroom hle
                  | false =>
                      obtain ⟨turns, rfl⟩ : ∃ t, turns = t + 1 :=
                        Nat.exists_eq_succ_of_ne_zero (by simp at hturns; omega)
                      have hpiece : piece ≠ [] := (hread piece (by simp)).1
                      have hread' : ReadResults c.buffSize pieces :=
                        fun p hp => hread p (by simp [hp])
                      simp only [Bool.false_eq_true, if_false]
                      rw [recvSizeLine_read turns false hread, hover]
                      rw [List.flatten_cons] at hflat
                      by_cases hdigits : bs.length ≤ z + 1
                      · rw [drop_zeroLine hdigits] at hdrop
                        rw [hdrop] at hflat
                        have hsame : z + 1 + 2 - bs.length = z + 1 - bs.length + 2 := by omega
                        rw [lineOk_middle hfull hdigits, hsame]
                        exact ih herror' hpiece hflat hread' (by simpa using hturns)
                      · -- the read result ends between the two bytes of the line end
                        have hone : overshoot (bs :: piece :: pieces) (z + 1) = 1 := by
                          have : 0 < cut.length := List.length_pos_iff.mpr hcutne
                          rw [overshoot, if_pos (by omega)]
                          omega
                        have hfeed' : cut = [10] := by
                          have : bs.length = z + 1 + 1 := by
                            have : 0 < cut.length := List.length_pos_iff.mpr hcutne
                            omega
                          rw [hdrop, this, ← List.drop_drop, drop_zeroLine (Nat.le_refl _),
                            Nat.sub_self]
                          rfl
                        refine ⟨fun hok => ?_, fun _ => ?_⟩
                        · have := hok.uncut
                          omega
                        · obtain ⟨b, piece', rfl⟩ := List.exists_cons_of_ne_nil hpiece
                          rw [hfeed'] at hflat
                          obtain rfl : b = 10 := (List.cons.inj hflat).1
                          exact recvSizeLine_first hfeed
            · rw [List.length_append, hlen] at hle
              omega

/-! ### The end of the last chunk -/

theorem toSize_pos {v : Int} (h : -(2 ^ 63) ≤ v ∧ v < 2 ^ 63) (hv : v ≠ 0) : 0 < toSize v := by
  rw [toSize]
  omega

/-- The loop `while(left > 0)` reads the bytes that are still missing, when the
stream has just these. -/
theorem readLeft_eq (body : List UInt8) (hsize : toInt32 c.buffSize ≠ 0)
    (hconn : stream.connected = true)
    (hne : stream.Nonempty) (hleft : stream.unread.length < 2 ^ 63)
    (hturns : stream.unread.length ≤ turns) :
    ∃ stream', c.readLeft turns stream.unread.length body stream =
      (.message (body ++ stream.unread), stream') := by
  induction turns generalizing body stream with
  | zero =>
      have hnil : stream.unread = [] := List.length_eq_zero_iff.mp (by omega)
      exact ⟨stream, by simp [readLeft, hnil]⟩
  | succ turns ih =>
      by_cases hnil : stream.unread = []
      · exact ⟨stream, by simp [readLeft, hnil]⟩
      · have hpos : 0 < stream.unread.length := List.length_pos_iff.mpr hnil
        have hbounds := toInt32_bounds c.buffSize
        have hask : 0 < toSize (if toInt32 c.buffSize < stream.unread.length
            then toInt32 c.buffSize else stream.unread.length) := by
          split
          · exact toSize_pos (by omega) hsize
          · exact toSize_pos (by omega) (by omega)
        obtain ⟨bs, stream₁, hread, hbs, _, hconn₁, hne₁, hunread⟩ :=
          SocketStream.read_spec hask hconn hne hnil
        have hsum : stream.unread.length = bs.length + stream₁.unread.length := by
          rw [hunread, List.length_append]
        have hbspos : 0 < bs.length := List.length_pos_iff.mpr hbs
        have hrest : (stream.unread.length : Int) - bs.length = stream₁.unread.length := by omega
        obtain ⟨stream', heq⟩ := ih (body ++ bs) hconn₁ hne₁ (by omega) (by omega)
        refine ⟨stream', ?_⟩
        have hposInt : (0 : Int) < stream.unread.length := by omega
        simp only [readLeft, if_pos hposInt, hread]
        rw [if_neg hbs, hrest, heq, List.append_assoc, ← hunread]

/-- Without room in an `int` the loop asks for no bytes, and gets none. -/
theorem readLeft_zero {left : Int} (turns : Nat) (body : List UInt8)
    (hsize : toInt32 c.buffSize = 0) (hleft : 0 < left)
    (hne : stream.Nonempty) : (c.readLeft turns left body stream).1.Failed := by
  have hread : (stream.read 0).1 = [] := by
    rw [SocketStream.read]
    split
    · split
      · rfl
      · next piece rest hp =>
          have hpiece : piece ≠ [] := hne piece (by simp [hp])
          simp [hpiece]
    · rfl
  have hask : toSize (if toInt32 c.buffSize < left then toInt32 c.buffSize else left) = 0 := by
    rw [hsize, if_pos hleft]
    rfl
  cases turns with
  | zero => simp [readLeft, hleft, Received.Failed]
  | succ turns => simp [readLeft, hleft, hask, hread, Received.Failed]

/-- **The two bytes behind the last chunk**, of which `data` is in the buffer. -/
theorem recvChunk_last (hconn : stream.connected = true) (hne : stream.Nonempty)
    (hbytes : data ++ stream.unread = [13, 10]) :
    (bufferFull c.buffSize 0 = false ∨ 2 ≤ data.length →
      ∃ stream', c.recvChunk 0 data [] stream = (.message ([], []), stream')) ∧
    (¬ (bufferFull c.buffSize 0 = false ∨ 2 ≤ data.length) →
      (c.recvChunk 0 data [] stream).1.Failed) := by
  have hsum : data.length + stream.unread.length = 2 := by
    rw [← List.length_append, hbytes]
    rfl
  have hoverflow : ¬ (2 ^ 31 - 1 < (0 : Int) + 2) := by decide
  have hfull : bufferFull c.buffSize 0 = false ↔ toInt32 c.buffSize ≠ 0 := by
    rw [bufferFull, beq_eq_false_iff_ne]
    exact ⟨Ne.symm, Ne.symm⟩
  rw [recvChunk, if_neg hoverflow]
  by_cases htwo : 2 ≤ data.length
  · have hin : (0 : Int) + 2 ≤ data.length := by omega
    have hall : data.drop 2 = [] := List.drop_eq_nil_of_le (by omega)
    refine ⟨fun _ => ⟨stream, ?_⟩, fun h => absurd (.inr htwo) h⟩
    rw [if_pos hin, if_neg (by decide)]
    simp [hall]
  · have hin : ¬ (0 : Int) + 2 ≤ data.length := by omega
    have hleft : (0 : Int) - data.length + 2 = stream.unread.length := by omega
    rw [if_neg hin, hleft]
    simp only [List.nil_append, Int.toNat_natCast]
    refine ⟨fun hok => ?_, fun hbad => ?_⟩
    · have hroom : toInt32 c.buffSize ≠ 0 := hfull.mp (hok.resolve_right htwo)
      obtain ⟨stream', heq⟩ :=
        readLeft_eq data hroom hconn hne (by omega) (Nat.le_refl _)
      exact ⟨stream', by simp [heq, hbytes]⟩
    · have hroom : toInt32 c.buffSize = 0 := by
        by_contra hroom
        exact hbad (.inl (hfull.mpr hroom))
      have hpos : (0 : Int) < stream.unread.length := by omega
      have hfailed := readLeft_zero (c := c) stream.unread.length data hroom hpos hne
      generalize c.readLeft stream.unread.length stream.unread.length data stream = r at hfailed
      obtain ⟨r, stream'⟩ := r
      cases r with
      | message m => exact absurd rfl (hfailed m)
      | null => simp [Received.Failed]
      | raised => simp [Received.Failed]

/-! ### A whole response -/

/-- A chunk: the digits of its size line, and its data. -/
structure Chunk where
  digits : List UInt8
  data : List UInt8
  digits_ne : digits ≠ []
  hex : ∀ b ∈ digits, digitValue b < 16
  size : digitsValue 16 0 digits = data.length
  data_ne : data ≠ []
  small : data.length < 2 ^ 31 - 2

def Chunk.bytes (chunk : Chunk) : List UInt8 :=
  chunk.digits ++ [13, 10] ++ chunk.data ++ [13, 10]

/-- The chunks, the last one with `z` digits, and the empty line. -/
def chunkedBody (chunks : List Chunk) (z : Nat) : List UInt8 :=
  (chunks.map Chunk.bytes).flatten ++ (zeroLine z ++ [13, 10])

/-- How the bytes of a response without a chunk have to come: the version is known
by what the read result with the space behind it shows, the end of the last size
line is in the read result with its last digit, and the buffer is never taken for
full. -/
structure ReadsWell (c : Connection) (pieces : List (List UInt8)) (head : List UInt8) (z : Nat) :
    Prop where
  version : versionOf (versionShown pieces head) ≠ none
  line : 2 ≤ overshoot pieces (head.length + z)
  room : bufferFull c.buffSize 0 = false ∨ AtOnce pieces (head.length + z + 4)
  behindHead : bufferFull c.buffSize (overshoot pieces head.length) = false
  behindLine : bufferFull c.buffSize (overshoot pieces (head.length + z + 2)) = false

variable {head tail : List UInt8} {z : Nat}

/-- Behind the header block of a chunked response the flag is set and the body is
empty. -/
theorem recvHead_chunked (hwalk : scanner.walk 1 head = some rs)
    (hchunked : .transChunked ∈ rs.flatMap Rule.acts) (hbytes : stream.unread = head ++ tail)
    (h : c.recvHead turns (.new c.memory) [] stream = (.message (s, left), stream')) :
    s.parser.chunked = true ∧ s.data.body = [] ∧
      ∃ more rs', tail = more ++ (left ++ stream'.unread) ∧
        scanner.follow (Scanner.lastState 1 rs) more = some rs' ∧
        Scanner.lastState (Scanner.lastState 1 rs) rs' = 120 := by
  obtain ⟨pre, rs₁, hsplit, hfollow, hlast, hbody, hflag⟩ := recvHead_follow h
  rw [List.nil_append, hbytes] at hsplit
  obtain ⟨more, rs₂, rfl, htail, rfl, hmore⟩ :=
    head_prefix_of_follow hwalk hsplit hfollow hlast
  refine ⟨hflag (.inr ?_), hbody, more, rs₂, htail, hmore, ?_⟩
  · rw [List.flatMap_append]
    exact List.mem_append_left _ hchunked
  · rw [Scanner.lastState_append] at hlast
    exact hlast

/-- In its final state 123 the automaton still takes a number, and with it the
whole last chunk. -/
theorem rest_of_follow_number {more rest : List UInt8}
    (hfollow : scanner.follow 115 more = some rs) (hlast : Scanner.lastState 115 rs = 120)
    (hbytes : zeroLine z ++ [13, 10] = more ++ rest) : rest = [] := by
  have hdigit : scanner.rule 115 48 = some (Scanner.on Scanner.digit [] 115) := by
    decide
  have hbefore : ∀ k < 4, (scanner.follow 115 (([13, 10, 13, 10] : List UInt8).take k)).map
      (Scanner.lastState 115) ≠ some 120 := by decide
  induction z generalizing more rs with
  | zero =>
      have hlen : more.length + rest.length = 4 := by
        rw [← List.length_append, ← hbytes]
        rfl
      by_contra hrest
      have hpos : 0 < rest.length := List.length_pos_iff.mpr hrest
      have hmore : more = ([13, 10, 13, 10] : List UInt8).take more.length := by
        have htake := congrArg (List.take more.length) hbytes
        rw [List.take_left] at htake
        exact htake.symm
      refine hbefore more.length (by omega) ?_
      rw [← hmore, hfollow, Option.map_some, hlast]
  | succ z ih =>
      cases more with
      | nil =>
          cases hfollow
          cases hlast
      | cons b more =>
          rw [zeroLine, List.replicate_succ, List.cons_append, ← zeroLine] at hbytes
          obtain ⟨rfl, hbytes'⟩ := List.cons.inj hbytes
          obtain ⟨r, rs', hrule, hrest, rfl⟩ := Scanner.follow_cons hfollow
          obtain rfl := Option.some.inj (hrule.symm.trans hdigit)
          exact ih hrest hlast hbytes'

/-- **Without a chunk in front of the last one, only the state 120 behind the
header block leads to a message.** -/
theorem final_of_message {rsp : HttpResponse} (hwalk : scanner.walk 1 head = some rs)
    (hchunked : .transChunked ∈ rs.flatMap Rule.acts)
    (hbytes : stream.unread = head ++ chunkedBody [] (z + 1))
    (h : (c.recvResponse stream).1 = .message rsp) : Scanner.lastState 1 rs = 120 := by
  obtain ⟨s, left, stream', hhead, hbody⟩ := recvResponse_message h
  obtain ⟨hflag, _, more, rs', htail, hmore, hlast⟩ :=
    recvHead_chunked hwalk hchunked hbytes hhead
  obtain ⟨hlo, hhi⟩ := HttpResponseParser.lastState_of_walk hwalk
  generalize Scanner.lastState 1 rs = q at hmore hlast hlo hhi
  by_contra hq
  cases more with
  | nil =>
      cases hmore
      exact hq hlast
  | cons b more =>
      obtain ⟨rfl, htail'⟩ := List.cons.inj htail
      obtain ⟨r, rs', hrule, hmore', rfl⟩ := Scanner.follow_cons hmore
      have hnone : scanner.rule 121 48 = none ∧ scanner.rule 122 48 = none := by decide
      have hnumber : scanner.rule 123 48 =
          some (Scanner.on Scanner.digit [.startValue] 115) := by decide
      obtain rfl : q = 123 := by
        have h121 : q ≠ 121 := by
          rintro rfl
          rw [hnone.1] at hrule
          cases hrule
        have h122 : q ≠ 122 := by
          rintro rfl
          rw [hnone.2] at hrule
          cases hrule
        omega
      obtain rfl := Option.some.inj (hrule.symm.trans hnumber)
      have hnothing := rest_of_follow_number hmore' hlast htail'
      obtain ⟨hleft, hunread⟩ := List.append_eq_nil_iff.mp hnothing
      have hread : ∀ n, (stream'.read n).1 = [] := by
        intro n
        have happend := stream'.read_append n
        rw [hunread] at happend
        exact (List.append_eq_nil_iff.mp happend).1
      simp [recvBody, hflag, hleft, recvChunks, recvSizeLine, hread, Received.map] at hbody

/-- The loop over a size line starts with what is left in the buffer, or with the
next read result. -/
theorem recvSizeLine_start {buf : List UInt8} {pieces' : List (List UInt8)} (turns : Nat)
    (hread : ReadResults c.buffSize (buf :: pieces))
    (hbufs : (if left = [] then pieces' else left :: pieces') = buf :: pieces) :
    c.recvSizeLine (turns + 1) true s left ⟨pieces', true⟩ =
      c.recvSizeLine (turns + 1) true s buf ⟨pieces, true⟩ := by
  by_cases hleft : left = []
  · rw [if_pos hleft] at hbufs
    rw [hleft, hbufs, recvSizeLine_read turns true hread]
  · rw [if_neg hleft] at hbufs
    obtain ⟨rfl, rfl⟩ := List.cons.inj hbufs
    rfl

/-- **The loop over the chunks**, when the last one is the only one. -/
theorem recvChunks_last {buf : List UInt8} {pieces' : List (List UInt8)} (turns : Nat)
    (herror : s.error = 0) (hread : ReadResults c.buffSize (buf :: pieces))
    (hbufs : (if left = [] then pieces' else left :: pieces') = buf :: pieces)
    (hbytes : (buf :: pieces).flatten = chunkedBody [] z) :
    (LineOk c buf pieces z ∧
        (bufferFull c.buffSize 0 = false ∨ 2 ≤ overshoot (buf :: pieces) (z + 2)) →
      ∃ r stream', c.recvChunks (turns + 1) s left [] ⟨pieces', true⟩ =
        (.message r, stream')) ∧
    (¬ (LineOk c buf pieces z ∧
        (bufferFull c.buffSize 0 = false ∨ 2 ≤ overshoot (buf :: pieces) (z + 2))) →
      (c.recvChunks (turns + 1) s left [] ⟨pieces', true⟩).1.Failed) := by
  have hread' : ReadResults c.buffSize pieces := fun p hp => hread p (by simp [hp])
  have hturns : pieces.length <
      (⟨pieces', true⟩ : SocketStream).unread.length + 2 := by
    have hle : pieces.length ≤ pieces.flatten.length :=
      length_le_flatten fun p hp => (hread' p hp).1
    have hflat : pieces.flatten.length ≤ pieces'.flatten.length := by
      by_cases hleft : left = []
      · rw [if_pos hleft] at hbufs
        simp [hbufs]
      · rw [if_neg hleft] at hbufs
        simp [(List.cons.inj hbufs).2]
    simp only [SocketStream.unread]
    omega
  rw [List.flatten_cons] at hbytes
  obtain ⟨hok, hfail⟩ := recvSizeLine_pieces herror (hread buf (by simp)).1 hbytes hread' hturns
  simp only [recvChunks]
  rw [recvSizeLine_start _ hread hbufs]
  by_cases hline : LineOk c buf pieces z
  · obtain ⟨s', left', pieces'', heq, hzero, hdone, hlen, hrest, hread''⟩ := hok hline
    have hne : (⟨pieces'', true⟩ : SocketStream).Nonempty := fun p hp => (hread'' p hp).1
    obtain ⟨hyes, hno⟩ := recvChunk_last (c := c) rfl hne hrest
    rw [heq]
    simp only [hzero, hdone]
    rw [hlen] at hyes hno
    refine ⟨fun h => ?_, fun h => ?_⟩
    · obtain ⟨stream', hchunk⟩ := hyes h.2
      exact ⟨_, _, by rw [hchunk]; rfl⟩
    · have hfailed := hno fun hroom => h ⟨hline, hroom⟩
      generalize c.recvChunk 0 left' [] ⟨pieces'', true⟩ = r at hfailed
      obtain ⟨r, stream'⟩ := r
      cases r with
      | message m => exact absurd rfl (hfailed m)
      | null => simp [Received.Failed]
      | raised => simp [Received.Failed]
  · refine ⟨fun h => absurd h.1 hline, fun _ => ?_⟩
    have hfailed := hfail hline
    generalize c.recvSizeLine _ true s buf ⟨pieces, true⟩ = r at hfailed
    obtain ⟨r, stream'⟩ := r
    cases r with
    | message m => exact absurd rfl (hfailed m)
    | null => simp [Received.Failed]
    | raised => simp [Received.Failed]

/-- What the conditions on the header block, on the last size line and on the two
bytes behind it come to. -/
theorem readsWell_iff {buf : List UInt8} {pieces' : List (List UInt8)} (hz : 0 < z)
    (hbufs : dropBytes pieces head.length = buf :: pieces') :
    ReadsWell c pieces head z ↔
      HeadOk c 1 pieces head ∧ LineOk c buf pieces' z ∧
        (bufferFull c.buffSize 0 = false ∨ 2 ≤ overshoot (buf :: pieces') (z + 2)) := by
  have hline : overshoot (buf :: pieces') z = overshoot pieces (head.length + z) := by
    rw [← hbufs, overshoot_dropBytes hz]
  have hbehind : overshoot (buf :: pieces') (z + 2) = overshoot pieces (head.length + z + 2) := by
    rw [← hbufs, overshoot_dropBytes (by omega), Nat.add_assoc]
  have hfirst : ∀ piece rest, pieces = piece :: rest → head.length < piece.length →
      buf.length = piece.length - head.length := by
    rintro piece rest rfl hlt
    rw [dropBytes, if_pos hlt] at hbufs
    rw [← (List.cons.inj hbufs).1, List.length_drop]
  constructor
  · rintro ⟨hversion, huncut, hroom, hhead, hleft⟩
    have hrooms : (bufferFull c.buffSize 0 = false ∨ AtOnce pieces head.length) ∧
        (bufferFull c.buffSize 0 = false ∨ z + 2 ≤ buf.length) ∧
        (bufferFull c.buffSize 0 = false ∨ 2 ≤ overshoot (buf :: pieces') (z + 2)) := by
      rcases hroom with hroom | ⟨piece, rest, hpieces, hlen⟩
      · exact ⟨.inl hroom, .inl hroom, .inl hroom⟩
      · have hbuf := hfirst piece rest hpieces (by omega)
        refine ⟨.inr ⟨piece, rest, hpieces, by omega⟩, .inr (by omega), .inr ?_⟩
        rw [overshoot, if_pos (by omega)]
        omega
    exact ⟨⟨fun _ => hversion, hrooms.1, hhead⟩,
      ⟨hz, by rwa [hline], hrooms.2.1, by rwa [hbehind]⟩, hrooms.2.2⟩
  · rintro ⟨⟨hversion, hroom₁, hhead⟩, ⟨_, huncut, hroom₂, hleft⟩, hroom₃⟩
    refine ⟨hversion rfl, by rwa [hline] at huncut, ?_, hhead, by rwa [hbehind] at hleft⟩
    cases hfull : bufferFull c.buffSize 0 with
    | false => exact .inl rfl
    | true =>
        rw [hfull] at hroom₁ hroom₂ hroom₃
        obtain ⟨piece, rest, hpieces, hlen⟩ := hroom₁.resolve_left (by simp)
        have hlt : head.length < piece.length := by
          by_contra hge
          have hnone : overshoot pieces head.length = 0 := by
            rw [hpieces, overshoot, if_pos hlen]
            omega
          rw [hnone, hfull] at hhead
          cases hhead
        have hbuf := hfirst piece rest hpieces hlt
        have htwo := hroom₂.resolve_left (by simp)
        have hrest := hroom₃.resolve_left (by simp)
        rw [overshoot, if_pos htwo] at hrest
        exact .inr ⟨piece, rest, hpieces, by omega⟩

/-- **A response without a chunk**, of which the automaton knows the end. -/
theorem recvResponse_empty (hwalk : scanner.walk 1 head = some rs)
    (hchunked : .transChunked ∈ rs.flatMap Rule.acts) (hfinal : Scanner.lastState 1 rs = 120)
    (hbytes : pieces.flatten = head ++ chunkedBody [] (z + 1))
    (hread : ReadResults c.buffSize pieces) :
    (∃ rsp, (c.recvResponse (.ofPieces pieces)).1 = .message rsp) ↔
      ReadsWell c pieces head (z + 1) := by
  have hne : ∀ p ∈ pieces, p ≠ [] := fun p hp => (hread p hp).1
  have hfirst : (1 : Nat) = 1 → head.head? = some 72 := by
    intro _
    obtain ⟨r, hr, hmem⟩ := List.mem_flatMap.mp hchunked
    exact HttpResponseParser.head_of_chunked (Scanner.follow_of_walk hwalk) hr hmem
  have hdropped : (dropBytes pieces head.length).flatten = chunkedBody [] (z + 1) := by
    rw [flatten_dropBytes, hbytes, List.drop_left]
  obtain ⟨buf, bufs, hbufs⟩ : ∃ buf bufs, dropBytes pieces head.length = buf :: bufs := by
    cases hcase : dropBytes pieces head.length with
    | nil =>
        rw [hcase] at hdropped
        cases hdropped
    | cons buf bufs => exact ⟨buf, bufs, rfl⟩
  have hread' : ReadResults c.buffSize (buf :: bufs) := by
    intro p hp
    obtain ⟨hp, piece, hmem, hle⟩ := mem_dropBytes (hbufs ▸ hp) hne
    obtain ⟨_, hmax, hsize⟩ := hread piece hmem
    exact ⟨hp, by omega, by omega⟩
  have hturns : pieces.length ≤ (SocketStream.ofPieces pieces).unread.length + 1 :=
    (length_le_flatten hne).trans (Nat.le_succ _)
  have hunread : (SocketStream.ofPieces pieces).unread = head ++ chunkedBody [] (z + 1) := hbytes
  obtain ⟨hok, hfail⟩ :=
    recvHead_pieces (c := c) (s := .new c.memory) ⟨rfl, rfl, rfl⟩ hwalk hfinal hfirst hbytes
      hread hturns
  rw [readsWell_iff (by omega) hbufs]
  by_cases hhead : HeadOk c 1 pieces head
  · obtain ⟨s', left, pieces', heq, herror, _, hleft⟩ := hok hhead
    rw [hbufs] at hleft
    rw [hbufs] at hdropped
    obtain ⟨hflag, _⟩ := recvHead_chunked hwalk hchunked hunread heq
    obtain ⟨hyes, hno⟩ := recvChunks_last (c := c)
      (left.length + (⟨pieces', true⟩ : SocketStream).unread.length) herror hread' hleft hdropped
    have heq' : c.recvHead ((SocketStream.ofPieces pieces).unread.length + 1) (.new c.memory) []
        (.ofPieces pieces) = (.message (s', left), ⟨pieces', true⟩) := heq
    rw [recvResponse, heq']
    simp only [recvBody, hflag, if_true]
    constructor
    · rintro ⟨rsp, hrsp⟩
      refine ⟨hhead, ?_⟩
      by_contra hbad
      have hfailed := hno hbad
      generalize c.recvChunks _ s' left [] ⟨pieces', true⟩ = r at hfailed hrsp
      obtain ⟨r, stream'⟩ := r
      cases r with
      | message m => exact hfailed m rfl
      | null => cases hrsp
      | raised => cases hrsp
    · rintro ⟨_, hrest⟩
      obtain ⟨r, stream', hchunks⟩ := hyes hrest
      exact ⟨r.1.data, by rw [hchunks]; rfl⟩
  · refine ⟨?_, fun h => absurd h.1 hhead⟩
    rintro ⟨rsp, hrsp⟩
    obtain ⟨s, left, stream', heq, _⟩ := recvResponse_message hrsp
    exact absurd (congrArg Prod.fst heq) (hfail hhead _)

/-- **The body of a chunked response.**  `recvResponse` returns a response with the
data of the chunks as its body exactly when there is no chunk, the automaton knows
the end of the header block, and the bytes come well: the chunks are collected in a
string that is never handed to the response. -/
theorem recvResponse_chunked_iff (c : Connection) {head : List UInt8}
    {rs : List (Rule ResponseAction)} (hwalk : scanner.walk 1 head = some rs)
    (hchunked : .transChunked ∈ rs.flatMap Rule.acts) (chunks : List Chunk) (z : Nat)
    {pieces : List (List UInt8)} (hbytes : pieces.flatten = head ++ chunkedBody chunks (z + 1))
    (hread : ReadResults c.buffSize pieces) :
    (∃ rsp, (c.recvResponse (.ofPieces pieces)).1 = .message rsp ∧
        rsp.body = (chunks.map Chunk.data).flatten) ↔
      chunks = [] ∧ Scanner.lastState 1 rs = 120 ∧ ReadsWell c pieces head (z + 1) := by
  have hunread : (SocketStream.ofPieces pieces).unread = head ++ chunkedBody chunks (z + 1) :=
    hbytes
  have hempty : ∀ rsp, (c.recvResponse (.ofPieces pieces)).1 = .message rsp → rsp.body = [] := by
    intro rsp hrsp
    obtain ⟨s, left, stream', hhead, hbody⟩ := recvResponse_message hrsp
    obtain ⟨hflag, hnone, _⟩ :=
      recvHead_chunked hwalk hchunked hunread hhead
    exact (recvBody_chunked hflag hbody).trans hnone
  constructor
  · rintro ⟨rsp, hrsp, hbody⟩
    have hnone : chunks = [] := by
      cases chunks with
      | nil => rfl
      | cons chunk chunks =>
          rw [hempty rsp hrsp, List.map_cons, List.flatten_cons] at hbody
          exact absurd (List.append_eq_nil_iff.mp hbody.symm).1 chunk.data_ne
    subst hnone
    have hfinal := final_of_message hwalk hchunked hunread hrsp
    exact ⟨rfl, hfinal, (recvResponse_empty hwalk hchunked hfinal hbytes hread).mp ⟨rsp, hrsp⟩⟩
  · rintro ⟨rfl, hfinal, hwell⟩
    obtain ⟨rsp, hrsp⟩ := (recvResponse_empty hwalk hchunked hfinal hbytes hread).mpr hwell
    exact ⟨rsp, hrsp, hempty rsp hrsp⟩

/-- A header block, and a connection with a small buffer. -/
def sampleHead : List UInt8 :=
  bytes "HTTP/1.1 200 OK\r\nTransfer-Encoding: chunked\r\n\r\n"

def sampleConnection : Connection := ⟨fun _ => none, 64, fun _ => []⟩

def sampleChunk : Chunk where
  digits := bytes "5"
  data := bytes "hello"
  digits_ne := by decide
  hex := by decide +kernel
  size := by decide
  data_ne := by decide
  small := by decide

/-- The response without a chunk arrives in three pieces, cut within the header
block and before the last empty line. -/
theorem recvResponse_no_chunk :
    ∃ rsp, (sampleConnection.recvResponse (.ofPieces [sampleHead.take 20,
        sampleHead.drop 20 ++ bytes "00\r\n", bytes "\r\n"])).1 = .message rsp ∧
      rsp.body = (([] : List Chunk).map Chunk.data).flatten := by
  have hwalk : scanner.walk 1 sampleHead = some ((scanner.walk 1 sampleHead).getD []) := by
    decide
  refine (recvResponse_chunked_iff sampleConnection hwalk (by decide) [] 1 (by decide)
    (by decide)).mpr ⟨rfl, by decide, ?_⟩
  exact ⟨by decide, by decide, .inl (by decide), by decide, by decide⟩

/-- With one chunk the body of the response stays empty. -/
theorem not_recvResponse_one_chunk :
    ((scanner.walk 1 sampleHead).any fun rs =>
        (rs.flatMap Rule.acts).contains .transChunked) = true ∧
      ReadResults sampleConnection.buffSize [sampleHead ++ chunkedBody [sampleChunk] 1] ∧
      ¬ ∃ rsp, (sampleConnection.recvResponse
          (.ofPieces [sampleHead ++ chunkedBody [sampleChunk] 1])).1 = .message rsp ∧
        rsp.body = ([sampleChunk].map Chunk.data).flatten := by
  refine ⟨by decide, by decide, ?_⟩
  rintro ⟨rsp, hrsp, hbody⟩
  have hrun : (sampleConnection.recvResponse
      (.ofPieces [sampleHead ++ chunkedBody [sampleChunk] 1])).1.map HttpResponse.body =
        .message [] := by decide
  rw [hrsp] at hrun
  have hnone : rsp.body = [] := Received.message.inj hrun
  rw [hnone] at hbody
  exact absurd hbody (by decide)

end Connection

end Mingo.Http
