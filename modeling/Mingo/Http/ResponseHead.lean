import Mingo.Http.Connection
import Mingo.Http.ResponseScan

/-!
# The header block of a response, in pieces

The first loop of `recvResponse`, for every split of the bytes into results of
`read`.  As long as the header block is not complete the parser consumes every
read result whole.

* `recvHead_follow` -- whatever comes, the loop ends in a message only where the
  automaton has come to its state 120, and with the body still empty;
* `recvHead_pieces` -- for a header block that ends in this state, exactly when
  that happens: the version is looked at in one read result only.
-/

namespace Mingo.Http

open Scanner (Rule events)
open HttpResponseParser (scanner)

namespace Connection

variable {c : Connection} {turns : Nat} {s s' : HttpResponseParser} {data left body : List UInt8}
  {stream stream' : SocketStream}

/-! ### What a run can do -/

/-- **The first loop** ends where the automaton has come to its state 120. -/
theorem recvHead_follow (h : c.recvHead turns s data stream = (.message (s', left), stream')) :
    ∃ pre rs, data ++ stream.unread = pre ++ (left ++ stream'.unread) ∧
      scanner.follow s.parser.cs pre = some rs ∧ Scanner.lastState s.parser.cs rs = 120 ∧
      s'.data.body = s.data.body ∧
      (s.parser.chunked = true ∨ .transChunked ∈ rs.flatMap Rule.acts →
        s'.parser.chunked = true) := by
  induction turns generalizing s data stream with
  | zero => cases h
  | succ turns ih =>
      obtain ⟨turns₁, bs, stream₁, data₁, s₁, hturns, hread, hexecute, herror, hcase⟩ :=
        readHead_message h
      obtain rfl := Nat.succ.inj hturns
      obtain ⟨pre, rs, hbuf, hfollow, hlast, hbody, hchunked⟩ :=
        HttpResponseParser.execute_some hexecute herror
      simp only [Bool.false_eq_true, if_false, forall_const] at hfollow hlast hchunked
      rcases hcase with ⟨hfinished, rfl, rfl, rfl⟩ | ⟨_, hrest⟩
      · refine ⟨pre, rs, ?_, hfollow, ?_, hbody, hchunked⟩
        · rw [← hread, ← List.append_assoc, hbuf, List.append_assoc]
        · rw [hlast]
          simpa [HttpResponseParser.isFinished, HttpClientParser.isFinished] using hfinished
      · obtain ⟨pre', rs', hbytes, hfollow', hlast', hbody', hchunked'⟩ := ih hrest
        refine ⟨pre ++ pre', rs ++ rs', ?_, ?_, ?_, hbody'.trans hbody, ?_⟩
        · rw [← hread, ← List.append_assoc, hbuf, List.append_assoc, hbytes, List.append_assoc]
        · rw [Scanner.follow_append_eq hfollow, hlast, hfollow']
          rfl
        · rw [Scanner.lastState_append, hlast, hlast']
        · intro hyes
          apply hchunked'
          rw [List.flatMap_append, List.mem_append, ← or_assoc] at hyes
          exact hyes.imp_left hchunked

theorem recvResponse_message {rsp : HttpResponse}
    (h : (c.recvResponse stream).1 = .message rsp) :
    ∃ s left stream', c.recvHead (stream.unread.length + 1) (.new c.memory) [] stream =
        (.message (s, left), stream') ∧ (c.recvBody s left stream').1 = .message rsp := by
  rw [recvResponse] at h
  split at h
  · next s left stream' hhead => exact ⟨s, left, stream', hhead, h⟩
  · cases h
  · cases h

variable {head tail : List UInt8} {rs : List (Rule ResponseAction)}

/-- The automaton does not come to its state 120 within the header block. -/
theorem head_prefix_of_follow {pre rest : List UInt8} {rs' : List (Rule ResponseAction)}
    (hwalk : scanner.walk 1 head = some rs) (hbytes : head ++ tail = pre ++ rest)
    (hfollow : scanner.follow 1 pre = some rs') (hlast : Scanner.lastState 1 rs' = 120) :
    ∃ more rs₂, pre = head ++ more ∧ tail = more ++ rest ∧ rs' = rs ++ rs₂ ∧
      scanner.follow (Scanner.lastState 1 rs) more = some rs₂ := by
  rcases List.append_eq_append_iff.mp hbytes with ⟨more, rfl, htail⟩ | ⟨cut, rfl, hrest⟩
  · obtain ⟨rs₁, rs₂, rfl, hfirst, hsecond⟩ := Scanner.follow_append hfollow
    obtain rfl := Option.some.inj (hfirst.symm.trans (Scanner.follow_of_walk hwalk))
    exact ⟨more, rs₂, rfl, htail, rfl, hsecond⟩
  · by_cases hcut : cut = []
    · subst hcut
      rw [List.append_nil] at hwalk ⊢
      obtain rfl := Option.some.inj (hfollow.symm.trans (Scanner.follow_of_walk hwalk))
      exact ⟨[], [], by simp, by simpa using hrest.symm, by simp, rfl⟩
    · obtain ⟨rs₁, rs₂, _, _, _, hfirst, hends, _⟩ := Scanner.walk_split hwalk hcut
      obtain rfl := Option.some.inj (hfollow.symm.trans hfirst)
      by_cases hpre : pre = []
      · subst hpre
        cases hfollow
        cases hlast
      · have hbefore := HttpResponseParser.lastState_of_not_ends hfollow hends hpre
        omega

/-! ### The header block in pieces -/

/-- What the read result with the space behind the version still has of the
version. -/
def versionShown (pieces : List (List UInt8)) (bs : List UInt8) : List UInt8 :=
  (bs.takeWhile (· ≠ 32)).drop (readStart pieces (bs.takeWhile (· ≠ 32)).length)

variable {piece bs : List UInt8} {pieces : List (List UInt8)} {q : Nat}

theorem takeWhile_append_of_mem {xs : List UInt8} (ys : List UInt8) (h : 32 ∈ xs) :
    (xs ++ ys).takeWhile (· ≠ 32) = xs.takeWhile (· ≠ 32) ∧
      (xs.takeWhile (· ≠ 32)).length < xs.length := by
  induction xs with
  | nil => cases h
  | cons x xs ih =>
      by_cases hx : x = 32
      · simp [hx]
      · have hxs : 32 ∈ xs := by simpa [Ne.symm hx] using h
        simpa [hx] using ih hxs

theorem versionShown_of_lt (h : (bs.takeWhile (· ≠ 32)).length < piece.length) :
    versionShown (piece :: pieces) bs = bs.takeWhile (· ≠ 32) := by
  rw [versionShown, readStart, if_pos h, List.drop_zero]

theorem versionShown_of_not_mem (h : 32 ∉ piece) :
    versionShown (piece :: pieces) (piece ++ bs) = versionShown pieces bs := by
  have happend : (piece ++ bs).takeWhile (· ≠ 32) = piece ++ bs.takeWhile (· ≠ 32) := by
    refine List.takeWhile_append_of_pos fun x hx => ?_
    simpa using fun hx32 : x = 32 => h (hx32 ▸ hx)
  have hlen : (piece ++ bs.takeWhile (· ≠ 32)).length =
      piece.length + (bs.takeWhile (· ≠ 32)).length := List.length_append
  rw [versionShown, happend, hlen, readStart, if_neg (by omega), Nat.add_sub_cancel_left,
    List.drop_append, List.drop_eq_nil_of_le (by omega), Nat.add_sub_cancel_left,
    List.nil_append, versionShown]

/-- The parser in front of the end of the header block. -/
structure Awaits (q : Nat) (s : HttpResponseParser) : Prop where
  cs : s.parser.cs = q
  error : s.error = 0
  bodyStart : s.parser.bodyStart = 0

/-- A call on a buffer that ends before the header block does. -/
theorem execute_middle (hs : Awaits q s) (hwalk : scanner.walk q (piece ++ bs) = some rs)
    (hne : piece ≠ []) (hrest : bs ≠ []) (hfirst : q = 1 → (piece ++ bs).head? = some 72) :
    ∃ q' rs₂ s', 1 < q' ∧ q' < 120 ∧ Scanner.lastState q rs = Scanner.lastState q' rs₂ ∧
      scanner.walk q' bs = some rs₂ ∧
      ResponseTable.inVersion q' = (ResponseTable.inVersion q && !piece.contains 32) ∧
      HttpResponseParser.execute false s piece = some ([], s') ∧
      s'.parser.cs = q' ∧ s'.parser.bodyStart = 0 ∧
      s'.error = if ResponseTable.inVersion q = true ∧ 32 ∈ piece ∧
        versionOf (piece.takeWhile (· ≠ 32)) = none then 1001 else 0 := by
  obtain ⟨rs₁, rs₂, rfl, hlen, hwalk₂, hfollow, hends, hexec⟩ := Scanner.walk_split hwalk hrest
  obtain ⟨hpos, hlt⟩ := HttpResponseParser.lastState_of_not_ends hfollow hends hne
  have hhead : q = 1 → piece.head? = some 72 := by
    intro hone
    rw [← hfirst hone, List.head?_append_of_ne_nil _ hne]
  have hscan := hexec (HttpResponseParser.act piece) 0 s.rewind
  rw [← hlen] at hscan
  nth_rewrite 1 [← hs.cs] at hscan
  obtain ⟨t, s', hperform, hexecute, hparser, _, herr⟩ :=
    HttpResponseParser.httpclientParserExecute_eq hs.bodyStart hne (Nat.le_of_eq hlen) hscan
  have hkeeps := HttpResponseParser.perform_keeps hperform
  refine ⟨_, rs₂, s', hpos, hlt, Scanner.lastState_append q rs₁ rs₂, hwalk₂,
    HttpResponseParser.inVersion_of_follow hfollow hhead, ?_, by rw [hparser], ?_, ?_⟩
  · rw [HttpResponseParser.execute, if_neg (by simp), hexecute, Option.map_some, hlen,
      List.drop_length]
  · rw [hparser]
    refine (hkeeps.bodyStart ?_).trans hs.bodyStart
    intro hdone
    obtain ⟨r, hr, hmem⟩ := List.mem_flatMap.mp hdone
    have := hends r hr
    rw [HttpResponseParser.ends_iff.mpr hmem] at this
    cases this
  · have herror := HttpResponseParser.error_of_follow [] hfollow hhead
      (by rw [List.append_nil]; exact hperform)
    rw [hs.error] at herror
    exact herr.trans herror

/-- A call on a buffer with the end of the header block. -/
theorem execute_last (hs : Awaits q s) (hwalk : scanner.walk q bs = some rs)
    (hfirst : q = 1 → bs.head? = some 72) (more : List UInt8) :
    ∃ s', HttpResponseParser.execute false s (bs ++ more) = some (more, s') ∧
      s'.parser.cs = Scanner.lastState q rs ∧
      s'.error = if ResponseTable.inVersion q = true ∧ 32 ∈ bs ∧
        versionOf (bs.takeWhile (· ≠ 32)) = none then 1001 else 0 := by
  have hlen := Scanner.length_of_walk hwalk
  have hfollow := Scanner.follow_of_walk hwalk
  have hne : bs ++ more ≠ [] := by simp [Scanner.walk_ne_nil hwalk]
  have hscan : scanner.exec (HttpResponseParser.act (bs ++ more)) q 0 s.rewind (bs ++ more) = _ :=
    Scanner.exec_of_walk hwalk more 0 s.rewind
  rw [← hlen] at hscan
  nth_rewrite 1 [← hs.cs] at hscan
  obtain ⟨t, s', hperform, hexecute, hparser, _, herr⟩ :=
    HttpResponseParser.httpclientParserExecute_eq hs.bodyStart hne (by simp [hlen]) hscan
  refine ⟨s', ?_, by rw [hparser], ?_⟩
  · rw [HttpResponseParser.execute, if_neg (by simp), hexecute, Option.map_some, hlen,
      List.drop_left]
  · have herror := HttpResponseParser.error_of_follow more hfollow hfirst hperform
    rw [hs.error] at herror
    exact herr.trans herror

/-- The header block is received: the version is known by what its read result
shows of it, and the buffer is never taken for full. -/
structure HeadOk (c : Connection) (q : Nat) (pieces : List (List UInt8)) (bs : List UInt8) :
    Prop where
  version : ResponseTable.inVersion q = true → versionOf (versionShown pieces bs) ≠ none
  room : bufferFull c.buffSize 0 = false ∨ AtOnce pieces bs.length
  left : bufferFull c.buffSize (overshoot pieces bs.length) = false

/-- One turn of the first loop, on a read result. -/
theorem recvHead_turn (hread : ReadResults c.buffSize (piece :: pieces)) :
    c.recvHead (turns + 1) s [] ⟨piece :: pieces, true⟩ =
      match HttpResponseParser.execute false s piece with
      | none => (.raised, ⟨pieces, true⟩)
      | some (data, s) =>
          if s.hasError then (.null, SocketStream.close ⟨pieces, true⟩)
          else if bufferFull c.buffSize data.length then
            (.null, SocketStream.close ⟨pieces, true⟩)
          else if s.isFinished then (.message (s, data), ⟨pieces, true⟩)
          else c.recvHead turns s data ⟨pieces, true⟩ := by
  obtain ⟨hne, hmax, hsize⟩ := hread piece (by simp)
  have hpiece : (⟨piece :: pieces, true⟩ : SocketStream).read c.buffSize =
      (piece, ⟨pieces, true⟩) := SocketStream.read_piece rfl rfl hsize hmax
  simp only [recvHead, readHead, List.length_nil, Nat.sub_zero, hpiece, hne, if_false,
    List.nil_append]
  cases HttpResponseParser.execute false s piece with
  | none => rfl
  | some r => rfl

/-- The read result with the end of the header block. -/
theorem recvHead_last {more : List UInt8} (turns : Nat) (hs : Awaits q s)
    (hwalk : scanner.walk q bs = some rs) (hfinal : Scanner.lastState q rs = 120)
    (hfirst : q = 1 → bs.head? = some 72)
    (hread : ReadResults c.buffSize ((bs ++ more) :: pieces)) :
    (HeadOk c q ((bs ++ more) :: pieces) bs → ∃ s',
      c.recvHead (turns + 1) s [] ⟨(bs ++ more) :: pieces, true⟩ =
        (.message (s', more), ⟨pieces, true⟩) ∧ s'.error = 0) ∧
    (¬ HeadOk c q ((bs ++ more) :: pieces) bs →
      (c.recvHead (turns + 1) s [] ⟨(bs ++ more) :: pieces, true⟩).1.Failed) := by
  obtain ⟨s', hexecute, hcs, herror⟩ := execute_last hs hwalk hfirst more
  have hspace : ResponseTable.inVersion q = true → 32 ∈ bs := by
    intro hq
    have hin := HttpResponseParser.inVersion_of_follow (Scanner.follow_of_walk hwalk) hfirst
    rw [hfinal, hq] at hin
    simpa [ResponseTable.inVersion] using hin
  have hshown : ResponseTable.inVersion q = true →
      versionShown ((bs ++ more) :: pieces) bs = bs.takeWhile (· ≠ 32) := by
    intro hq
    have hlt := (takeWhile_append_of_mem [] (hspace hq)).2
    refine versionShown_of_lt ?_
    rw [List.length_append]
    omega
  have hover : overshoot ((bs ++ more) :: pieces) bs.length = more.length := by
    simp [overshoot]
  have hfinished : s'.isFinished = true := by
    simp [HttpResponseParser.isFinished, HttpClientParser.isFinished, hcs, hfinal]
  have hhas : s'.hasError = (s'.error ≠ 0 : Bool) := by
    simp [HttpResponseParser.hasError, HttpClientParser.hasError, hcs, hfinal]
  rw [recvHead_turn hread, hexecute]
  simp only [hfinished, if_true]
  by_cases hbad : ResponseTable.inVersion q = true ∧ 32 ∈ bs ∧
      versionOf (bs.takeWhile (· ≠ 32)) = none
  · rw [if_pos hbad] at herror
    have hyes : s'.hasError = true := by simp [hhas, herror]
    refine ⟨fun hok => ?_, fun _ => by simp [hyes, Received.Failed]⟩
    have := hok.version hbad.1
    rw [hshown hbad.1] at this
    exact absurd hbad.2.2 this
  · rw [if_neg hbad] at herror
    have hno : s'.hasError = false := by simp [hhas, herror]
    simp only [hno, Bool.false_eq_true, if_false]
    refine ⟨fun hok => ⟨s', ?_, herror⟩, fun hbad' => ?_⟩
    · have hleft := hok.left
      rw [hover] at hleft
      simp [hleft]
    · cases hfull : bufferFull c.buffSize more.length with
      | true => simp [Received.Failed]
      | false =>
          refine absurd ⟨fun hq => ?_, .inr ⟨_, _, rfl, by simp⟩, by rw [hover, hfull]⟩ hbad'
          rw [hshown hq]
          exact fun hnone => hbad ⟨hq, hspace hq, hnone⟩

/-- A read result that ends before the header block does: the loop fails, or goes
on with the next. -/
theorem recvHead_middle (turns : Nat) (hs : Awaits q s)
    (hwalk : scanner.walk q (piece ++ bs) = some rs) (hbs : bs ≠ [])
    (hfirst : q = 1 → (piece ++ bs).head? = some 72)
    (hread : ReadResults c.buffSize (piece :: pieces)) :
    ((c.recvHead (turns + 1) s [] ⟨piece :: pieces, true⟩).1.Failed ∧
        ¬ HeadOk c q (piece :: pieces) (piece ++ bs)) ∨
      ∃ q' rs' s', Awaits q' s' ∧ 1 < q' ∧ scanner.walk q' bs = some rs' ∧
        Scanner.lastState q rs = Scanner.lastState q' rs' ∧
        c.recvHead (turns + 1) s [] ⟨piece :: pieces, true⟩ =
          c.recvHead turns s' [] ⟨pieces, true⟩ ∧
        (HeadOk c q (piece :: pieces) (piece ++ bs) ↔ HeadOk c q' pieces bs) := by
  obtain ⟨q', rs', s', hpos, hlt, hlast, hwalk', hin, hexecute, hcs, hbody, herror⟩ :=
    execute_middle hs hwalk (hread piece (by simp)).1 hbs hfirst
  have hlen : ¬ (piece ++ bs).length ≤ piece.length := by
    have : 0 < bs.length := List.length_pos_iff.mpr hbs
    rw [List.length_append]
    omega
  have hroom : bufferFull c.buffSize 0 = false ∨ AtOnce (piece :: pieces) (piece ++ bs).length →
      bufferFull c.buffSize 0 = false := by
    rintro (h | ⟨_, _, heq, hle⟩)
    · exact h
    · cases heq
      exact absurd hle hlen
  have hfinished : s'.isFinished = false := by
    simp [HttpResponseParser.isFinished, HttpClientParser.isFinished, hcs, Nat.ne_of_lt hlt]
  have hhas : s'.hasError = (s'.error ≠ 0 : Bool) := by
    have : q' ≠ 0 := by omega
    simp [HttpResponseParser.hasError, HttpClientParser.hasError, hcs, this]
  have hmem : 32 ∈ piece → versionShown (piece :: pieces) (piece ++ bs) =
      piece.takeWhile (· ≠ 32) := by
    intro h
    obtain ⟨happend, hlt'⟩ := takeWhile_append_of_mem bs h
    rw [versionShown_of_lt (by rwa [happend]), happend]
  rw [recvHead_turn hread, hexecute]
  simp only [hfinished, Bool.false_eq_true, if_false, List.length_nil]
  by_cases hbad : ResponseTable.inVersion q = true ∧ 32 ∈ piece ∧
      versionOf (piece.takeWhile (· ≠ 32)) = none
  · rw [if_pos hbad] at herror
    have hyes : s'.hasError = true := by simp [hhas, herror]
    refine .inl ⟨by simp [hyes, Received.Failed], fun hok => ?_⟩
    have hversion := hok.version hbad.1
    rw [hmem hbad.2.1] at hversion
    exact hversion hbad.2.2
  · rw [if_neg hbad] at herror
    have hno : s'.hasError = false := by simp [hhas, herror]
    simp only [hno, Bool.false_eq_true, if_false]
    cases hfull : bufferFull c.buffSize 0 with
    | true =>
        refine .inl ⟨by simp [Received.Failed], fun hok => ?_⟩
        rw [hroom hok.room] at hfull
        cases hfull
    | false =>
        refine .inr ⟨q', rs', s', ⟨hcs, herror, hbody⟩, hpos, hwalk', hlast, by simp, ?_⟩
        have hover : overshoot (piece :: pieces) (piece ++ bs).length =
            overshoot pieces bs.length := by
          rw [overshoot, if_neg hlen, List.length_append, Nat.add_sub_cancel_left]
        have hversion : (ResponseTable.inVersion q = true →
              versionOf (versionShown (piece :: pieces) (piece ++ bs)) ≠ none) ↔
            (ResponseTable.inVersion q' = true → versionOf (versionShown pieces bs) ≠ none) := by
          by_cases hspace : 32 ∈ piece
          · rw [hin, hmem hspace]
            simp only [List.contains_eq_mem, hspace, decide_true, Bool.not_true, Bool.and_false,
              Bool.false_eq_true, false_implies, iff_true]
            exact fun hq hnone => hbad ⟨hq, hspace, hnone⟩
          · rw [hin, versionShown_of_not_mem hspace]
            simp [hspace]
        constructor
        · rintro ⟨h, _, hleft⟩
          exact ⟨hversion.mp h, .inl hfull, by rwa [hover] at hleft⟩
        · rintro ⟨h, _, hleft⟩
          exact ⟨hversion.mpr h, .inl hfull, by rwa [hover]⟩

/-- **The header block in pieces.**  The first loop returns what is behind the
header block, or fails. -/
theorem recvHead_pieces {rest : List UInt8} (hs : Awaits q s)
    (hwalk : scanner.walk q bs = some rs) (hfinal : Scanner.lastState q rs = 120)
    (hfirst : q = 1 → bs.head? = some 72) (hbytes : pieces.flatten = bs ++ rest)
    (hread : ReadResults c.buffSize pieces) (hturns : pieces.length ≤ turns) :
    (HeadOk c q pieces bs → ∃ s' left pieces',
      c.recvHead turns s [] ⟨pieces, true⟩ = (.message (s', left), ⟨pieces', true⟩) ∧
        s'.error = 0 ∧ left.length = overshoot pieces bs.length ∧
        (if left = [] then pieces' else left :: pieces') = dropBytes pieces bs.length) ∧
    (¬ HeadOk c q pieces bs → (c.recvHead turns s [] ⟨pieces, true⟩).1.Failed) := by
  induction pieces generalizing q s bs rs turns with
  | nil =>
      have hnil : bs = [] := (List.append_eq_nil_iff.mp hbytes.symm).1
      exact absurd hnil (Scanner.walk_ne_nil hwalk)
  | cons piece pieces ih =>
      obtain ⟨turns, rfl⟩ : ∃ t, turns = t + 1 :=
        Nat.exists_eq_succ_of_ne_zero (by simp at hturns; omega)
      have hrest : ReadResults c.buffSize pieces := fun p hp => hread p (by simp [hp])
      have hpieces : ∀ p ∈ pieces, p ≠ [] := fun p hp => (hrest p hp).1
      rw [List.flatten_cons] at hbytes
      by_cases hle : bs.length ≤ piece.length
      · obtain ⟨more, rfl, _⟩ := split_of_le hbytes hle
        obtain ⟨hok, hfail⟩ := recvHead_last turns hs hwalk hfinal hfirst hread
        refine ⟨fun h => ?_, hfail⟩
        obtain ⟨s', heq, herror⟩ := hok h
        refine ⟨s', more, pieces, heq, herror, by simp [overshoot], ?_⟩
        by_cases hmore : more = []
        · subst hmore
          simp [dropBytes, dropBytes_zero hpieces]
        · have hpos : 0 < more.length := List.length_pos_iff.mpr hmore
          simp [dropBytes, hmore, hpos]
      · obtain ⟨bs', rfl, hflat⟩ := split_of_le hbytes.symm (Nat.le_of_not_le hle)
        have hbs' : bs' ≠ [] := by
          rintro rfl
          simp at hle
        have hover : overshoot (piece :: pieces) (piece ++ bs').length =
            overshoot pieces bs'.length := by
          rw [overshoot, if_neg hle, List.length_append, Nat.add_sub_cancel_left]
        have hdrop : dropBytes (piece :: pieces) (piece ++ bs').length =
            dropBytes pieces bs'.length := by
          rw [dropBytes, if_neg (by omega), List.length_append, Nat.add_sub_cancel_left]
        rcases recvHead_middle turns hs hwalk hbs' hfirst hread with
          ⟨hfailed, hnot⟩ | ⟨q', rs', s', hs', hq', hwalk', hlast, heq, hiff⟩
        · exact ⟨fun hok => absurd hok hnot, fun _ => hfailed⟩
        · have hfirst' : q' = 1 → bs'.head? = some 72 := by omega
          rw [heq, hiff, hover, hdrop]
          exact ih hs' hwalk' (hlast ▸ hfinal) hfirst' hflat hrest (by simpa using hturns)

end Connection

end Mingo.Http
