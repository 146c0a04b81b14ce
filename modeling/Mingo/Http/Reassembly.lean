import Mingo.Http.SizeLine
import Mingo.Stream.Reads

/-!
# The chunks of a response, put together

The loop over the chunks in `HttpConnection::recvResponse`, for every split of the bytes into
results of `read` that cuts no size line.

* `recvChunkLoop_transfer` -- the loop collects the data of the chunks, and consumes their
  bytes and no others;
* `reassembles_iff` -- this takes a buffer whose size is the same as an `int`, as the loop
  compares and passes it as one.
-/

namespace Mingo.Http

open HttpResponseParser (scanner)

/-! ### Chunks -/

/-- A chunk: its size line, and its data. -/
structure SizedChunk where
  line : SizeLine
  data : List UInt8
  size : line.size = data.length
  data_ne : data ≠ []
  small : data.length < 2 ^ 31 - 2

def SizedChunk.bytes (chunk : SizedChunk) : List UInt8 := chunk.line.bytes ++ chunk.data ++ [13, 10]

/-- The chunks, the size line of the last one, and the empty line. -/
def transfer (chunks : List SizedChunk) (last : SizeLine) : List UInt8 :=
  chunks.flatMap SizedChunk.bytes ++ last.bytes ++ [13, 10]

/-- No read ends within a size line. -/
structure LinesWhole (pieces : List (List UInt8)) (chunks : List SizedChunk) (last : SizeLine) :
    Prop where
  chunk : ∀ before chunk after, chunks = before ++ chunk :: after → ∀ n, EndsAt pieces n →
    ¬ ((before.flatMap SizedChunk.bytes).length < n ∧
      n < (before.flatMap SizedChunk.bytes).length + chunk.line.bytes.length)
  last : ∀ n, EndsAt pieces n →
    ¬ ((chunks.flatMap SizedChunk.bytes).length < n ∧
      n < (chunks.flatMap SizedChunk.bytes).length + last.bytes.length)

variable {chunks : List SizedChunk} {last : SizeLine} {chunk : SizedChunk}
  {pieces : List (List UInt8)}

theorem LinesWhole.head
    (h : LinesWhole pieces (chunk :: chunks) last) :
    ∀ n, EndsAt pieces n → ¬ (0 < n ∧ n < chunk.line.bytes.length) := by
  intro n hn
  simpa using h.chunk [] chunk chunks rfl n hn

theorem LinesWhole.tail
    (h : LinesWhole pieces (chunk :: chunks) last) :
    LinesWhole (dropBytes pieces chunk.bytes.length) chunks last := by
  have hfirst : ∀ cs : List SizedChunk, ((chunk :: cs).flatMap SizedChunk.bytes).length =
      chunk.bytes.length + (cs.flatMap SizedChunk.bytes).length := by simp
  constructor
  · rintro before chunk' after rfl n hn ⟨hlo, hhi⟩
    refine h.chunk (chunk :: before) chunk' after rfl _ (hn.of_dropBytes (by omega)) ?_
    rw [hfirst]
    omega
  · rintro n hn ⟨hlo, hhi⟩
    refine h.last _ (hn.of_dropBytes (by omega)) ?_
    rw [hfirst]
    omega

namespace Connection

/-- The outer loop over the chunks, with its local variables at the exit: what is left in the
buffer, and the string `body`. -/
def recvChunkLoop (c : Connection) :
    Nat → HttpResponseParser → List UInt8 → List UInt8 → SocketStream →
      Received (HttpResponseParser × List UInt8 × List UInt8) × SocketStream
  | 0, _, _, _, s => (.null, s)
  | turns + 1, parser, data, body, s =>
      match recvSizeLine c (s.unread.length + 2) true parser data s with
      | (.null, s) => (.null, s)
      | (.raised, s) => (.raised, s)
      | (.message (parser, data), s) =>
          match recvChunk c parser.parser.contentLen data body s with
          | (.null, s) => (.null, s)
          | (.raised, s) => (.raised, s)
          | (.message (data, body), s) =>
              if parser.parser.chunksDone then (.message (parser, data, body), s)
              else recvChunkLoop c turns parser data body s

variable {c : Connection} {turns n : Nat} {parser : HttpResponseParser}
  {data body left rest : List UInt8} {pieces : List (List UInt8)} {stream : SocketStream}
  {chunks : List SizedChunk} {last : SizeLine}

/-- `recvChunks` is this loop, less what is left in the buffer. -/
theorem recvChunks_eq (c : Connection) (turns : Nat) (parser : HttpResponseParser)
    (data body : List UInt8) (stream : SocketStream) :
    c.recvChunks turns parser data body stream =
      ((c.recvChunkLoop turns parser data body stream).1.map fun r => (r.1, r.2.2),
        (c.recvChunkLoop turns parser data body stream).2) := by
  induction turns generalizing parser data body stream with
  | zero => rfl
  | succ turns ih =>
      rw [recvChunks, recvChunkLoop]
      generalize c.recvSizeLine _ true parser data stream = line
      obtain ⟨⟨parser₁, data₁⟩ | _ | _, stream₁⟩ := line
      · simp only
        generalize c.recvChunk _ data₁ body stream₁ = chunk
        obtain ⟨⟨data₂, body₂⟩ | _ | _, stream₂⟩ := chunk
        · cases hdone : parser₁.parser.chunksDone with
          | true => simp [Received.map]
          | false => simpa using ih parser₁ data₂ body₂ stream₂
        · rfl
        · rfl
      · rfl
      · rfl

/-- The size of the buffer is the same as an `int`, or too large as one to be the number of
the bytes behind a size line. -/
def FitsInt (c : Connection) : Prop := c.buffSize < 2 ^ 31 ∨ 2 ^ 31 - 3 ≤ toInt32 c.buffSize

/-- **What the loop over the chunks is for**: for all chunks, any bytes left over from the
header block and all reads, it has put the data of the chunks together when it exits, and has
consumed the bytes of the chunks. -/
def Reassembles (c : Connection) : Prop :=
  ∀ (chunks : List SizedChunk) (last : SizeLine) (rest left : List UInt8)
    (pieces : List (List UInt8)) (parser : HttpResponseParser) (turns : Nat),
    last.size = 0 → parser.error = 0 →
      (∀ chunk ∈ chunks, chunk.line.bytes.length < c.buffSize) →
      last.bytes.length < c.buffSize → ReadResults c.buffSize (reads left pieces) →
      left ++ pieces.flatten = transfer chunks last ++ rest →
      LinesWhole (reads left pieces) chunks last → chunks.length < turns →
        ∃ parser' left' stream', c.recvChunkLoop turns parser left [] (.ofPieces pieces) =
            (.message (parser', left', (chunks.map SizedChunk.data).flatten), stream') ∧
          left' ++ stream'.unread = rest

/-! ### The size line -/

theorem three_le_sizeLine (line : SizeLine) : 3 ≤ line.bytes.length := by
  have hpos : 0 < line.digits.length := List.length_pos_iff.mpr line.digits_ne
  simp only [SizeLine.bytes, SizeLine.behind, List.length_append, List.length_singleton]
  omega

/-- What is behind a size line never fills such a buffer. -/
theorem not_bufferFull (hfits : c.FitsInt) (hmax : n + 3 ≤ maxRead) (hsize : n + 3 ≤ c.buffSize) :
    bufferFull c.buffSize n = false := by
  rw [bufferFull, beq_eq_false_iff_ne]
  rcases hfits with hlt | hge
  · rw [toInt32_of_lt hlt]
    omega
  · have : maxRead = 2 ^ 31 - 1 := rfl
    omega

/-- **The inner loop** takes the size line at the start of the reads. -/
theorem recvSizeLine_line (turns : Nat) (hfits : c.FitsInt) (herror : parser.error = 0)
    {line : SizeLine} (hsmall : line.size < 2 ^ 31)
    (hread : ReadResults c.buffSize (reads data pieces))
    (hbytes : data ++ pieces.flatten = line.bytes ++ rest)
    (hwhole : ∀ n, EndsAt (reads data pieces) n → ¬ (0 < n ∧ n < line.bytes.length)) :
    ∃ parser' more pieces', c.recvSizeLine (turns + 1) true parser data ⟨pieces, true⟩ =
        (.message (parser', more), ⟨pieces', true⟩) ∧
      reads more pieces' = dropBytes (reads data pieces) line.bytes.length ∧
      parser'.error = 0 ∧ parser'.parser.contentLen = line.size ∧
      parser'.parser.chunksDone = decide (line.size = 0) := by
  have hthree := three_le_sizeLine line
  obtain ⟨buf, bufs, hbufs⟩ : ∃ buf bufs, reads data pieces = buf :: bufs := by
    cases hcase : reads data pieces with
    | nil =>
        have hflat := flatten_reads data pieces
        rw [hcase, hbytes] at hflat
        have := congrArg List.length hflat
        simp only [List.flatten_nil, List.length_nil, List.length_append] at this
        omega
    | cons buf bufs => exact ⟨buf, bufs, rfl⟩
  have hflat := flatten_reads data pieces
  rw [hbufs] at hread hwhole hflat ⊢
  obtain ⟨hne, hmax, hsize⟩ := hread buf (by simp)
  have hle := le_head_of_uncut hne hwhole
  rw [hbytes, List.flatten_cons] at hflat
  obtain ⟨more, rfl, _⟩ := split_of_le hflat hle
  obtain ⟨parser', hexecute, herror', hno, hfinished, hlen, hdone⟩ :=
    execute_sizeLine herror line hsmall more
  rw [List.length_append] at hmax hsize
  have hroom : bufferFull c.buffSize more.length = false :=
    not_bufferFull hfits (by omega) (by omega)
  refine ⟨parser', more, bufs, ?_, ?_, herror', hlen, hdone⟩
  · rw [recvSizeLine_start turns hread hbufs, recvSizeLine_turn hne, hexecute]
    simp only [hno, hroom, hfinished, Bool.false_eq_true, if_false, if_true]
  · have hrest : ∀ p ∈ bufs, p ≠ [] := fun p hp => hread.nonempty p (by simp [hp])
    have hdrop := reads_drop hrest hle
    rwa [List.drop_left] at hdrop

/-! ### The data of a chunk -/

/-- The loop `while(left > 0)` reads just the bytes that are missing. -/
theorem readLeft_dropBytes (hpos : 0 < toInt32 c.buffSize) (hne : ∀ p ∈ pieces, p ≠ [])
    (hn : n ≤ pieces.flatten.length) (hturns : n ≤ turns) (body : List UInt8) :
    c.readLeft turns n body ⟨pieces, true⟩ =
      (.message (body ++ pieces.flatten.take n), ⟨dropBytes pieces n, true⟩) := by
  induction turns generalizing n body pieces with
  | zero =>
      obtain rfl : n = 0 := by omega
      simp [readLeft, dropBytes_zero hne]
  | succ turns ih =>
      by_cases hzero : n = 0
      · subst hzero
        simp [readLeft, dropBytes_zero hne]
      · cases pieces with
        | nil =>
            simp only [List.flatten_nil, List.length_nil] at hn
            omega
        | cons piece pieces =>
            have hpiece : 0 < piece.length := List.length_pos_iff.mpr (hne piece (by simp))
            have hrest : ∀ p ∈ pieces, p ≠ [] := fun p hp => hne p (by simp [hp])
            have hbounds := toInt32_bounds c.buffSize
            rw [List.flatten_cons, List.length_append] at hn
            obtain ⟨m, hask, hm, hmn, hmax⟩ : ∃ m : Nat,
                toSize (if toInt32 c.buffSize < n then toInt32 c.buffSize else n) = m ∧
                  0 < m ∧ m ≤ n ∧ m ≤ maxRead := by
              have : maxRead = 2 ^ 31 - 1 := rfl
              refine ⟨_, rfl, ?_⟩
              rw [toSize]
              split <;> omega
            have hposInt : (0 : Int) < n := by omega
            by_cases hfit : piece.length ≤ m
            · have hread : (⟨piece :: pieces, true⟩ : SocketStream).read m =
                  (piece, ⟨pieces, true⟩) :=
                SocketStream.read_piece rfl rfl hfit (by omega)
              have hleft : (n : Int) - piece.length = (n - piece.length : Nat) := by omega
              simp only [readLeft, if_pos hposInt, hask, hread]
              rw [if_neg (hne piece (by simp)), hleft, ih hrest (by omega) (by omega), dropBytes,
                if_neg (by omega), List.flatten_cons, List.take_append,
                List.take_of_length_le (by omega : piece.length ≤ n), List.append_assoc]
            · have hread : (⟨piece :: pieces, true⟩ : SocketStream).read m =
                  (piece.take m, ⟨piece.drop m :: pieces, true⟩) := by
                have hmin : min m maxRead = m := by omega
                simp [SocketStream.read, hmin, hfit]
              have htake : piece.take m ≠ [] := by
                rw [← List.length_pos_iff, List.length_take]
                omega
              have hlen : (piece.take m).length = m := by
                rw [List.length_take]
                omega
              have hleft : (n : Int) - m = (n - m : Nat) := by omega
              have hne' : ∀ p ∈ piece.drop m :: pieces, p ≠ [] := by
                intro p hp
                rcases List.mem_cons.mp hp with rfl | hp
                · rw [← List.length_pos_iff, List.length_drop]
                  omega
                · exact hrest p hp
              have hsum : m + (n - m) = n := by omega
              have hfirst : piece.drop m :: pieces = dropBytes (piece :: pieces) m := by
                rw [dropBytes, if_pos (by omega)]
              have hflat : (piece.drop m :: pieces).flatten = (piece :: pieces).flatten.drop m := by
                rw [hfirst, flatten_dropBytes]
              have hlast : n - m ≤ (piece.drop m :: pieces).flatten.length := by
                rw [List.flatten_cons, List.length_append, List.length_drop]
                omega
              have hwhole : piece.take m ++ (piece.drop m :: pieces).flatten.take (n - m) =
                  (piece :: pieces).flatten.take n := by
                have hfront : piece.take m = (piece :: pieces).flatten.take m := by
                  rw [List.flatten_cons, List.take_append_of_le_length (by omega)]
                rw [hflat, hfront, ← List.take_add, hsum]
              simp only [readLeft, if_pos hposInt, hask, hread]
              rw [if_neg htake, hlen, hleft, ih hne' hlast (by omega), List.append_assoc, hwhole,
                hfirst, dropBytes_dropBytes, hsum]

/-- **The data of a chunk** and the two bytes behind it, wherever the reads cut them. -/
theorem recvChunk_data (hpos : 0 < toInt32 c.buffSize) {chunk : List UInt8}
    (hsmall : chunk.length < 2 ^ 31 - 2) (hne : ∀ p ∈ pieces, p ≠ [])
    (hbytes : data ++ pieces.flatten = chunk ++ [13, 10] ++ rest) (body : List UInt8) :
    ∃ data' pieces', c.recvChunk chunk.length data body ⟨pieces, true⟩ =
        (.message (data', body ++ chunk), ⟨pieces', true⟩) ∧
      reads data' pieces' = dropBytes (reads data pieces) (chunk.length + 2) := by
  have hlen : (chunk ++ [13, 10]).length = chunk.length + 2 := by simp
  have hoverflow : ¬ (2 ^ 31 - 1 < (chunk.length : Int) + 2) := by omega
  rw [recvChunk, if_neg hoverflow]
  by_cases hall : chunk.length + 2 ≤ data.length
  · obtain ⟨more, rfl, _⟩ := split_of_le hbytes (by rwa [hlen])
    have hin : (chunk.length : Int) + 2 ≤ (chunk ++ [13, 10] ++ more).length := by omega
    have hdata : chunk ++ [13, 10] ++ more ≠ [] := by simp
    refine ⟨more, pieces, ?_, ?_⟩
    · rw [if_pos hin, if_neg (by omega), Int.toNat_natCast]
      dsimp only
      have hdrop : (chunk ++ [13, 10] ++ more).drop (chunk.length + 2) = more := by
        rw [← hlen, List.drop_left]
      have htake : (chunk ++ [13, 10] ++ more).take chunk.length = chunk := by
        rw [List.append_assoc, List.take_left]
      rw [hdrop, htake]
    · have hdrop := reads_drop hne hall
      rw [← hlen, List.drop_left, hlen] at hdrop
      rw [hdrop, reads, if_neg hdata]
  · obtain ⟨n, hn⟩ : ∃ n, chunk.length + 2 = data.length + n :=
      ⟨_, (Nat.add_sub_of_le (by omega)).symm⟩
    have hin : ¬ (chunk.length : Int) + 2 ≤ data.length := by omega
    have hleft : (chunk.length : Int) - data.length + 2 = n := by omega
    have htotal := congrArg List.length hbytes
    rw [List.length_append, List.length_append, hlen] at htotal
    have hbody : data ++ pieces.flatten.take n = chunk ++ [13, 10] := by
      have htake := congrArg (List.take (chunk.length + 2)) hbytes
      rw [← hlen, List.take_left, hlen, hn, List.take_length_add_append] at htake
      exact htake
    rw [if_neg hin, hleft]
    dsimp only
    rw [Int.toNat_natCast, readLeft_dropBytes hpos hne (by omega) (Nat.le_refl n),
      List.append_assoc, hbody]
    refine ⟨[], dropBytes pieces n, ?_, ?_⟩
    · have htrim : (body ++ (chunk ++ [13, 10])).length = (body ++ chunk).length + 2 := by
        simp [Nat.add_assoc]
      dsimp only
      rw [if_neg (by omega), htrim, Nat.add_sub_cancel, ← List.append_assoc, List.take_left]
    · rw [hn, dropBytes_reads]
      rfl

/-! ### The loop -/

/-- **One turn**: the size line, the data behind it and the two bytes behind that. -/
theorem recvChunkLoop_turn (hfits : c.FitsInt) (hpos : 0 < toInt32 c.buffSize)
    (herror : parser.error = 0) {line : SizeLine} {chunk : List UInt8}
    (hsize : line.size = chunk.length) (hsmall : chunk.length < 2 ^ 31 - 2)
    (hread : ReadResults c.buffSize (reads data pieces))
    (hbytes : data ++ pieces.flatten = line.bytes ++ (chunk ++ [13, 10] ++ rest))
    (hwhole : ∀ n, EndsAt (reads data pieces) n → ¬ (0 < n ∧ n < line.bytes.length))
    (turns : Nat) (body : List UInt8) :
    ∃ parser' data' pieces', parser'.error = 0 ∧
      reads data' pieces' =
        dropBytes (reads data pieces) (line.bytes.length + (chunk.length + 2)) ∧
      c.recvChunkLoop (turns + 1) parser data body ⟨pieces, true⟩ =
        if line.size = 0 then (.message (parser', data', body ++ chunk), ⟨pieces', true⟩)
        else c.recvChunkLoop turns parser' data' (body ++ chunk) ⟨pieces', true⟩ := by
  obtain ⟨parser', more, pieces₁, hline, hmore, herror', hlen, hdone⟩ :=
    recvSizeLine_line ((⟨pieces, true⟩ : SocketStream).unread.length + 1) hfits herror
      (by omega) hread hbytes hwhole
  have hread₁ : ReadResults c.buffSize (reads more pieces₁) := by
    rw [hmore]
    exact hread.dropBytes _
  have hflat : more ++ pieces₁.flatten = chunk ++ [13, 10] ++ rest := by
    rw [← flatten_reads, hmore, flatten_dropBytes, flatten_reads, hbytes, List.drop_left]
  obtain ⟨data', pieces', hchunk, hdata⟩ :=
    recvChunk_data hpos hsmall hread₁.of_reads.nonempty hflat body
  refine ⟨parser', data', pieces', herror', ?_, ?_⟩
  · rw [hdata, hmore, dropBytes_dropBytes]
  · rw [recvChunkLoop, hline]
    simp only [hlen, hsize, hchunk]
    by_cases hzero : chunk.length = 0
    · simp [hdone, hsize, hzero]
    · simp [hdone, hsize, hzero]

/-- **The loop over the chunks** puts them together. -/
theorem recvChunkLoop_transfer (hfits : c.FitsInt) (hpos : 0 < toInt32 c.buffSize)
    (hlast : last.size = 0) (herror : parser.error = 0)
    (hread : ReadResults c.buffSize (reads data pieces))
    (hbytes : data ++ pieces.flatten = transfer chunks last ++ rest)
    (hwhole : LinesWhole (reads data pieces) chunks last) (hturns : chunks.length < turns)
    (body : List UInt8) :
    ∃ parser' data' pieces', c.recvChunkLoop turns parser data body ⟨pieces, true⟩ =
        (.message (parser', data', body ++ (chunks.map SizedChunk.data).flatten),
          ⟨pieces', true⟩) ∧ data' ++ pieces'.flatten = rest := by
  induction chunks generalizing turns parser data body pieces with
  | nil =>
      obtain ⟨turns, rfl⟩ : ∃ t, turns = t + 1 := Nat.exists_eq_succ_of_ne_zero (by omega)
      have hend : data ++ pieces.flatten = last.bytes ++ ([] ++ [13, 10] ++ rest) := by
        simpa [transfer] using hbytes
      obtain ⟨parser', data', pieces', _, hdata, hturn⟩ :=
        recvChunkLoop_turn hfits hpos herror hlast (by decide) hread hend
          (by simpa using hwhole.last) turns body
      refine ⟨parser', data', pieces', by simpa [hlast] using hturn, ?_⟩
      have hflat := congrArg List.flatten hdata
      rw [flatten_dropBytes, flatten_reads, flatten_reads, hend, ← List.append_assoc] at hflat
      rw [hflat]
      exact List.drop_left' (by simp)
  | cons chunk chunks ih =>
      obtain ⟨turns, rfl⟩ : ∃ t, turns = t + 1 := Nat.exists_eq_succ_of_ne_zero (by omega)
      have hchunk : data ++ pieces.flatten =
          chunk.line.bytes ++ (chunk.data ++ [13, 10] ++ (transfer chunks last ++ rest)) := by
        simpa [transfer, SizedChunk.bytes] using hbytes
      obtain ⟨parser', data', pieces', herror', hdata, hturn⟩ :=
        recvChunkLoop_turn hfits hpos herror chunk.size chunk.small hread hchunk hwhole.head turns
          body
      have hlen : chunk.line.bytes.length + (chunk.data.length + 2) = chunk.bytes.length := by
        simp [SizedChunk.bytes]
      rw [hlen] at hdata
      have hsize : chunk.line.size ≠ 0 := by
        rw [chunk.size]
        exact Nat.ne_of_gt (List.length_pos_iff.mpr chunk.data_ne)
      rw [if_neg hsize] at hturn
      have hrest : data' ++ pieces'.flatten = transfer chunks last ++ rest := by
        have hfront : data ++ pieces.flatten = chunk.bytes ++ (transfer chunks last ++ rest) := by
          rw [hchunk]
          simp [SizedChunk.bytes]
        rw [← flatten_reads, hdata, flatten_dropBytes, flatten_reads, hfront, List.drop_left]
      obtain ⟨parser₂, data₂, pieces₂, hloop, hflat⟩ := ih herror' (hdata ▸ hread.dropBytes _)
        hrest (hdata ▸ hwhole.tail) (by simpa using hturns) (body ++ chunk.data)
      exact ⟨parser₂, data₂, pieces₂, by rw [hturn, hloop]; simp, hflat⟩

/-! ### The size of the buffer -/

/-- The size line of the last chunk with one digit. -/
def zeroSizeLine : SizeLine where
  digits := [48]
  extensions := []
  digits_ne := by decide
  hex := by
    intro b hb
    rw [List.mem_singleton.mp hb]
    decide
  wellFormed := by simp

theorem bytes_zeroSizeLine : zeroSizeLine.bytes = [48, 13, 10] := rfl

/-- A single read with the whole size line. -/
theorem linesWhole_zero (more : List UInt8) :
    LinesWhole ((zeroSizeLine.bytes ++ more) :: pieces) [] zeroSizeLine := by
  constructor
  · rintro before chunk after heq
    simp at heq
  · have hle : zeroSizeLine.bytes.length ≤ (zeroSizeLine.bytes ++ more).length := by
      rw [List.length_append]
      omega
    simpa using uncut_of_le_head hle

/-- As many bytes behind the last size line as the `int` says pass for a full buffer. -/
theorem not_reassembles_of_full (hsize : 2 ^ 31 ≤ c.buffSize) (hint : toInt32 c.buffSize = n)
    (hn : n + 3 < 2 ^ 31) : ¬ c.Reassembles := by
  intro h
  have hmaxRead : maxRead = 2 ^ 31 - 1 := rfl
  obtain ⟨tail, htail⟩ : ∃ tail, tail = ([13, 10] : List UInt8) ++ List.replicate n 0 := ⟨_, rfl⟩
  have hlen : tail.length = n + 2 := by
    rw [htail, List.length_append, List.length_replicate, Nat.add_comm]
    rfl
  have htake : (tail.take n).length = n := by
    rw [List.length_take]
    omega
  have hreads : reads (zeroSizeLine.bytes ++ tail.take n) [tail.drop n] =
      [zeroSizeLine.bytes ++ tail.take n, tail.drop n] := rfl
  have hthree : zeroSizeLine.bytes.length = 3 := rfl
  have hfit : ReadResults c.buffSize
      (reads (zeroSizeLine.bytes ++ tail.take n) [tail.drop n]) := by
    rw [hreads]
    intro p hp
    rw [← List.length_pos_iff]
    rcases List.mem_cons.mp hp with rfl | hp
    · rw [List.length_append, hthree, htake]
      omega
    · rw [List.mem_singleton.mp hp, List.length_drop, hlen]
      omega
  have hbytes : zeroSizeLine.bytes ++ tail.take n ++ [tail.drop n].flatten =
      transfer [] zeroSizeLine ++ List.replicate n 0 := by
    rw [List.flatten_cons, List.flatten_nil, List.append_nil, List.append_assoc,
      List.take_append_drop, htail]
    simp [transfer]
  obtain ⟨parser', left', stream', hloop, _⟩ :=
    h [] zeroSizeLine (List.replicate n 0) _ _ (.new c.memory) 1 rfl rfl (by simp) (by omega) hfit
      hbytes (linesWhole_zero _) (by simp)
  obtain ⟨s', hexecute, _, hno, _⟩ :=
    execute_sizeLine (s := .new c.memory) rfl zeroSizeLine (by decide) (tail.take n)
  have hfull : bufferFull c.buffSize (tail.take n).length = true := by
    rw [htake, bufferFull, hint, beq_self_eq_true]
  have hnull : c.recvSizeLine ((SocketStream.ofPieces [tail.drop n]).unread.length + 2) true
      (.new c.memory) (zeroSizeLine.bytes ++ tail.take n) (.ofPieces [tail.drop n]) =
        (.null, (SocketStream.ofPieces [tail.drop n]).close) := by
    rw [recvSizeLine_turn (by simp [bytes_zeroSizeLine]), hexecute]
    simp only [hno, hfull, Bool.false_eq_true, if_false, if_true]
  rw [recvChunkLoop, hnull] at hloop
  cases hloop

/-- With a negative `int` the loop reads as much as there is. -/
theorem not_reassembles_of_neg (hint : toInt32 c.buffSize < 0) : ¬ c.Reassembles := by
  intro h
  have hmaxRead : maxRead = 2 ^ 31 - 1 := rfl
  have hbounds := toInt32_bounds c.buffSize
  have hsize : 2 ^ 31 ≤ c.buffSize := by
    by_contra hlt
    rw [toInt32_of_lt (by omega)] at hint
    omega
  have hthree : zeroSizeLine.bytes.length = 3 := rfl
  have hzero : zeroSizeLine.size = 0 := rfl
  have hfit : ReadResults c.buffSize (reads zeroSizeLine.bytes [[13, 10, 0]]) := by
    intro p hp
    rw [reads, if_neg (by decide)] at hp
    rcases List.mem_cons.mp hp with rfl | hp
    · exact ⟨by decide, by omega, by omega⟩
    · rw [List.mem_singleton.mp hp]
      exact ⟨by decide, by decide, by simp; omega⟩
  have hwhole : LinesWhole (reads zeroSizeLine.bytes [[13, 10, 0]]) [] zeroSizeLine :=
    linesWhole_zero []
  obtain ⟨parser', left', stream', hloop, _⟩ := h [] zeroSizeLine [0] _ _ (.new c.memory) 1
    rfl rfl (by simp) (by omega) hfit rfl hwhole (by simp)
  obtain ⟨s', hexecute, _, hno, hfinished, hlen, hdone⟩ :=
    execute_sizeLine (s := .new c.memory) rfl zeroSizeLine (by decide) []
  rw [List.append_nil] at hexecute
  have hroom : bufferFull c.buffSize 0 = false := by
    rw [bufferFull, beq_eq_false_iff_ne]
    omega
  have hline : c.recvSizeLine ((SocketStream.ofPieces [[13, 10, 0]]).unread.length + 2) true
      (.new c.memory) zeroSizeLine.bytes (.ofPieces [[13, 10, 0]]) =
        (.message (s', []), .ofPieces [[13, 10, 0]]) := by
    rw [recvSizeLine_turn (by decide), hexecute]
    simp only [hno, hroom, hfinished, List.length_nil, Bool.false_eq_true, if_false, if_true]
  obtain ⟨m, hm, hask⟩ : ∃ m,
      toSize (if toInt32 c.buffSize < 2 then toInt32 c.buffSize else 2) = m ∧ 3 ≤ m := by
    refine ⟨_, rfl, ?_⟩
    rw [toSize, if_pos (by omega)]
    omega
  have hread : (SocketStream.ofPieces [[13, 10, 0]]).read m = ([13, 10, 0], .ofPieces []) :=
    SocketStream.read_piece rfl rfl hask (by decide)
  have hleft : c.readLeft 2 2 [] (.ofPieces [[13, 10, 0]]) =
      (.message [13, 10, 0], .ofPieces []) := by
    rw [readLeft, if_pos (by decide)]
    simp only [hm, hread]
    rfl
  have hchunk : c.recvChunk 0 [] [] (.ofPieces [[13, 10, 0]]) =
      (.message ([], [13]), .ofPieces []) := by
    have htwo : (0 : Int) - ([] : List UInt8).length + 2 = 2 := rfl
    rw [recvChunk, if_neg (by decide), if_neg (by decide), htwo]
    dsimp only
    rw [List.append_nil, show (2 : Int).toNat = 2 from rfl, hleft]
    rfl
  rw [recvChunkLoop, hline] at hloop
  simp only [hlen, hzero, hdone, Int.natCast_zero, hchunk] at hloop
  cases hloop

/-- **The chunks are put together** exactly when the size of the buffer is below 2^31, or is
one of the three largest values of an `int` when it is converted to one. -/
theorem reassembles_iff (c : Connection) : c.Reassembles ↔ c.FitsInt := by
  constructor
  · intro h
    by_contra hfits
    obtain ⟨hsize, hint⟩ := not_or.mp hfits
    by_cases hneg : toInt32 c.buffSize < 0
    · exact not_reassembles_of_neg hneg h
    · exact not_reassembles_of_full (n := (toInt32 c.buffSize).toNat) (by omega) (by omega)
        (by omega) h
  · intro hfits chunks last rest left pieces parser turns hlast herror _ hline hread hbytes hwhole
      hturns
    have hpos : 0 < toInt32 c.buffSize := by
      rcases hfits with hlt | hge
      · rw [toInt32_of_lt hlt]
        omega
      · omega
    obtain ⟨parser', left', pieces', hloop, hrest⟩ :=
      recvChunkLoop_transfer hfits hpos hlast herror hread hbytes hwhole hturns []
    rw [List.nil_append] at hloop
    exact ⟨parser', left', ⟨pieces', true⟩, hloop, hrest⟩

/-- A buffer of 4 GiB, whose size is 0 as an `int`: a size line that comes alone leaves as many
bytes in the buffer. -/
theorem not_reassembles_gigabytes : ¬ Reassembles ⟨fun _ => none, 2 ^ 32, fun _ => []⟩ :=
  not_reassembles_of_full (n := 0) (by decide) (by decide) (by decide)

end Connection

end Mingo.Http
