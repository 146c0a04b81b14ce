import Mingo.Http.Connection

/-!
# A response that cannot be received closes the connection

Every exit of `recvResponse` with a null pointer stands behind a call of
`close()`.  The loops of the model are given as many turns as there are bytes;
that they never run out of them is what the proofs below have to show, one
loop after the other.

* `recvResponse_null` -- no response, no connection.
-/

namespace Mingo.Http

open SocketStream

/-- A `read` that returns bytes leaves fewer. -/
theorem length_unread_read {s : SocketStream} {n : Nat} (h : (s.read n).1 ≠ []) :
    (s.read n).2.unread.length < s.unread.length := by
  have happend := congrArg List.length (s.read_append n)
  rw [List.length_append] at happend
  have hpos := List.length_pos_iff.mpr h
  omega

/-- The loop over the header block. -/
theorem readHead_null {P : Type} {execute : P → List UInt8 → Option (List UInt8 × P)}
    {hasError isFinished : P → Bool} {buffSize turns : Nat} {parser : P} {data : List UInt8}
    {s s' : SocketStream} (hturns : s.unread.length < turns)
    (h : readHead execute hasError isFinished buffSize turns parser data s = (.null, s')) :
    s'.connected = false := by
  induction turns generalizing parser data s with
  | zero => omega
  | succ turns ih =>
      simp only [readHead] at h
      split at h
      · cases h
        rfl
      · next hne =>
          have hless := length_unread_read hne
          split at h
          · cases h
          · split at h
            · cases h
              rfl
            · split at h
              · cases h
                rfl
              · split at h
                · cases h
                · exact ih (by omega) h

namespace HttpResponseParser

variable {s s' : HttpResponseParser} {buf data : List UInt8}

/-- `execute` leaves a part of the buffer, and has to consume a byte to finish a size
line. -/
theorem length_of_execute (h : execute true s buf = some (data, s')) :
    data.length ≤ buf.length ∧ (s'.isFinished = true → data.length < buf.length) := by
  obtain ⟨⟨p, t⟩, hexec, heq⟩ := Option.map_eq_some_iff.mp h
  cases heq
  refine ⟨by rw [List.length_drop]; omega, ?_⟩
  intro hfinished
  unfold httpclientParserExecute at hexec
  split at hexec
  · cases hexec
  · next cs p' t' hscan =>
      dsimp only at hexec
      split at hexec
      · cases hexec
        have hcs : cs = 120 := by simpa [isFinished, HttpClientParser.isFinished] using hfinished
        obtain ⟨pre, post, rs, hbuf, hp, hfollow, hlast, _⟩ :=
          Scanner.exec_follow hscan (by omega)
        have hpre : pre ≠ [] := by
          intro hnil
          rw [hnil] at hfollow
          cases hfollow
          rw [hcs] at hlast
          cases hlast
        have hpos := List.length_pos_iff.mpr hpre
        rw [List.length_drop, hp, hbuf, List.length_append]
        omega
      · cases hexec

end HttpResponseParser

namespace Connection

variable {c : Connection} {turns : Nat} {begin_ : Bool} {parser parser' : HttpResponseParser}
  {data left body body' : List UInt8} {s s' : SocketStream}

/-- The end of a turn of the loop over a size line, behind the `read`. -/
theorem recvSizeLine_end {r : Received (HttpResponseParser × List UInt8)}
    (h : (match HttpResponseParser.execute true parser data with
      | none => (.raised, s)
      | some (data, parser) =>
          if parser.hasError then (.null, s.close)
          else if bufferFull c.buffSize data.length then (.null, s.close)
          else if parser.isFinished then (.message (parser, data), s)
          else c.recvSizeLine turns false parser data s) = (r, s')) :
    (r = .null ∧ s'.connected = false) ∨ r = .raised ∨
    ∃ data₁ parser₁, HttpResponseParser.execute true parser data = some (data₁, parser₁) ∧
      ((parser₁.isFinished = true ∧ r = .message (parser₁, data₁) ∧ s' = s) ∨
        c.recvSizeLine turns false parser₁ data₁ s = (r, s')) := by
  split at h
  · cases h
    exact Or.inr (Or.inl rfl)
  · next data₁ parser₁ hexecute =>
      split at h
      · cases h
        exact Or.inl ⟨rfl, rfl⟩
      · split at h
        · cases h
          exact Or.inl ⟨rfl, rfl⟩
        · split at h
          · next hfinished =>
              cases h
              exact Or.inr (Or.inr ⟨data₁, parser₁, hexecute, Or.inl ⟨hfinished, rfl, rfl⟩⟩)
          · exact Or.inr (Or.inr ⟨data₁, parser₁, hexecute, Or.inr h⟩)

/-- **One turn over a size line** ends the loop or goes on with what is left, after a
`read` unless it is the first turn. -/
theorem recvSizeLine_cases {r : Received (HttpResponseParser × List UInt8)}
    (h : c.recvSizeLine (turns + 1) begin_ parser data s = (r, s')) :
    (r = .null ∧ s'.connected = false) ∨ r = .raised ∨
    ∃ bs s₁ data₁ parser₁, bs ++ s₁.unread = s.unread ∧ (begin_ = true ∨ bs ≠ []) ∧
      HttpResponseParser.execute true parser (data ++ bs) = some (data₁, parser₁) ∧
      ((parser₁.isFinished = true ∧ r = .message (parser₁, data₁) ∧ s' = s₁) ∨
        c.recvSizeLine turns false parser₁ data₁ s₁ = (r, s')) := by
  simp only [recvSizeLine] at h
  cases hreads : (!begin_ || data.isEmpty) with
  | false =>
      have hbegin : begin_ = true := by
        cases begin_ with
        | true => rfl
        | false => cases hreads
      rw [hreads] at h
      simp only [Bool.false_eq_true, if_false, Bool.false_and, List.append_nil] at h
      rcases recvSizeLine_end h with hnull | hraised | ⟨data₁, parser₁, hexecute, hend⟩
      · exact Or.inl hnull
      · exact Or.inr (Or.inl hraised)
      · exact Or.inr (Or.inr ⟨[], s, data₁, parser₁, rfl, Or.inl hbegin,
          by rw [List.append_nil]; exact hexecute, hend⟩)
  | true =>
      rw [hreads] at h
      simp only [if_true, Bool.true_and] at h
      split at h
      · cases h
        exact Or.inl ⟨rfl, rfl⟩
      · next hne =>
          have hbytes := s.read_append (c.buffSize - data.length)
          rcases recvSizeLine_end h with hnull | hraised | ⟨data₁, parser₁, hexecute, hend⟩
          · exact Or.inl hnull
          · exact Or.inr (Or.inl hraised)
          · exact Or.inr (Or.inr ⟨_, _, data₁, parser₁, hbytes,
              Or.inr (by simpa [List.isEmpty_iff] using hne), hexecute, hend⟩)

theorem recvSizeLine_null (hturns : s.unread.length + (if begin_ then 1 else 0) < turns)
    (h : c.recvSizeLine turns begin_ parser data s = (.null, s')) : s'.connected = false := by
  induction turns generalizing begin_ parser data s with
  | zero => omega
  | succ turns ih =>
      rcases recvSizeLine_cases h with hnull | hraised | ⟨bs, s₁, data₁, parser₁, hbytes, hread, _,
        ⟨_, hmessage, _⟩ | hgo⟩
      · exact hnull.2
      · cases hraised
      · cases hmessage
      · have hlen := congrArg List.length hbytes
        rw [List.length_append] at hlen
        have hless : s₁.unread.length < turns := by
          rcases hread with hbegin | hne
          · rw [if_pos hbegin] at hturns
            omega
          · have hpos := List.length_pos_iff.mpr hne
            split at hturns <;> omega
        exact ih (by simpa using hless) hgo

/-- A size line takes a byte. -/
theorem recvSizeLine_less
    (h : c.recvSizeLine turns begin_ parser data s = (.message (parser', left), s')) :
    left.length + s'.unread.length < data.length + s.unread.length := by
  induction turns generalizing begin_ parser data s with
  | zero => cases h
  | succ turns ih =>
      rcases recvSizeLine_cases h with hnull | hraised | ⟨bs, s₁, data₁, parser₁, hbytes, _,
        hexecute, ⟨hfinished, hmessage, hstream⟩ | hgo⟩
      · cases hnull.1
      · cases hraised
      · cases hmessage
        subst hstream
        have hless := (HttpResponseParser.length_of_execute hexecute).2 hfinished
        have hlen := congrArg List.length hbytes
        rw [List.length_append] at hless hlen
        omega
      · have hle := (HttpResponseParser.length_of_execute hexecute).1
        have hrest := ih hgo
        have hlen := congrArg List.length hbytes
        rw [List.length_append] at hle hlen
        omega

/-- The loop `while(left > 0)`. -/
theorem readLeft_cases {r : Received (List UInt8)} {missing : Int} (hturns : missing.toNat ≤ turns)
    (h : c.readLeft turns missing body s = (r, s')) :
    (r = .null → s'.connected = false) ∧ s'.unread.length ≤ s.unread.length := by
  induction turns generalizing missing body s with
  | zero =>
      unfold readLeft at h
      rw [if_neg (by omega)] at h
      cases h
      refine ⟨?_, Nat.le_refl _⟩
      intro hnull
      cases hnull
  | succ turns ih =>
      simp only [readLeft] at h
      split at h
      · next hpos =>
          generalize toSize (if toInt32 c.buffSize < missing then toInt32 c.buffSize
            else missing) = n at h
          have hle : ∀ n, (s.read n).2.unread.length ≤ s.unread.length := by
            intro n
            have hbytes := congrArg List.length (s.read_append n)
            rw [List.length_append] at hbytes
            omega
          split at h
          · cases h
            exact ⟨fun _ => rfl, hle _⟩
          · next hne =>
              have hone := List.length_pos_iff.mpr hne
              obtain ⟨hnull, hless⟩ := ih (by omega) h
              exact ⟨hnull, Nat.le_trans hless (hle _)⟩
      · cases h
        refine ⟨?_, Nat.le_refl _⟩
        intro hnull
        cases hnull

/-- The data of a chunk. -/
theorem recvChunk_cases {r : Received (List UInt8 × List UInt8)} {contentLen : Int}
    (h : c.recvChunk contentLen data body s = (r, s')) :
    (r = .null → s'.connected = false) ∧
      ∀ left body', r = .message (left, body') →
        left.length + s'.unread.length ≤ data.length + s.unread.length := by
  unfold recvChunk at h
  split at h
  · cases h
    simp
  · split at h
    · split at h
      · cases h
        simp
      · cases h
        refine ⟨by simp, ?_⟩
        intro left body' heq
        cases heq
        rw [List.length_drop]
        omega
    · dsimp only at h
      split at h
      · next body₁ s₁ hleft =>
          have hless := (readLeft_cases (Nat.le_refl _) hleft).2
          split at h
          · cases h
            simp
          · cases h
            refine ⟨by simp, ?_⟩
            intro left body' heq
            cases heq
            simp only [List.length_nil]
            omega
      · next s₁ hleft =>
          cases h
          exact ⟨fun _ => (readLeft_cases (Nat.le_refl _) hleft).1 rfl, by simp⟩
      · cases h
        simp

/-- The loop over the chunks. -/
theorem recvChunks_null (hturns : data.length + s.unread.length < turns)
    (h : c.recvChunks turns parser data body s = (.null, s')) : s'.connected = false := by
  induction turns generalizing parser data body s with
  | zero => omega
  | succ turns ih =>
      rw [recvChunks] at h
      split at h
      · next s₁ hline =>
          cases h
          exact recvSizeLine_null (by simp) hline
      · cases h
      · next parser₁ data₁ s₁ hline =>
          have hless := recvSizeLine_less hline
          split at h
          · next s₂ hchunk =>
              cases h
              exact (recvChunk_cases hchunk).1 rfl
          · cases h
          · next data₂ body₂ s₂ hchunk =>
              have hle := (recvChunk_cases hchunk).2 _ _ rfl
              split at h
              · cases h
              · exact ih (by omega) h

/-- A body of a given length. -/
theorem readBody_null {length : Int} (h : readBody length data s = (.null, s')) :
    s'.connected = false := by
  simp only [readBody] at h
  split at h
  · split at h
    · split at h
      · cases h
        rfl
      · cases h
    · cases h
  · cases h

theorem recvBody_null (h : c.recvBody parser data s = (.null, s')) : s'.connected = false := by
  unfold recvBody at h
  split at h
  · generalize hrun : c.recvChunks (data.length + s.unread.length + 1) parser data [] s = r at h
    obtain ⟨r, s₁⟩ := r
    cases r with
    | null =>
        cases h
        exact recvChunks_null (Nat.lt_succ_self _) hrun
    | raised => cases h
    | message m => cases h
  · generalize hrun : readBody _ data s = r at h
    obtain ⟨r, s₁⟩ := r
    cases r with
    | null =>
        cases h
        exact readBody_null hrun
    | raised => cases h
    | message m => cases h

/-- **No response, no connection**: when `recvResponse` returns a null pointer, it has
closed the stream. -/
theorem recvResponse_null (h : c.recvResponse s = (.null, s')) : s'.connected = false := by
  unfold recvResponse at h
  split at h
  · exact recvBody_null h
  · next s₁ hhead =>
      cases h
      exact readHead_null (Nat.lt_succ_self _) hhead
  · cases h

end Connection

end Mingo.Http
