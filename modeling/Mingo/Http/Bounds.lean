import Mingo.Http.Chunked
import Mingo.Http.Closing

/-!
# Inside the receive buffer

The peer chooses the size of a chunk.  It goes through `strtol` into an `int`, and
`recvResponse` adds 2 to it before it looks whether that many bytes are in the buffer.

A call of `recvResponse` is taken apart into steps: the turns of its two loops over the
parser, the chunks, and a body of a given length.  A step uses the buffer and computes:
where `read` stores, what is copied, by the parser's callbacks too, the values of `len`
and `offset`, and the numbers that are made of chunk sizes.

`http_field` is handed the name between `field_start` and `field_len` bytes behind it.  A
name whose end the automaton does not mark comes with the length of the one before: such a
copy can pass the end of the buffer.

* `founds_inside` -- what the parser copies lies in the buffer, but for such names;
* `nparse_cases` -- the parser never passes the end of the buffer, and no check fails;
* `turn_iff`, `chunk_iff` -- when the uses of one step are in bounds;
* `inBounds_iff` -- when all uses of a call are.
-/

namespace Mingo.Http

/-- What is done with the buffer and with numbers. -/
inductive Use
  /-- a value of `len` or `offset` -/
  | cursor (v : Int)
  /-- a `read` of so many bytes to this index of a buffer with room for `room` -/
  | read (start length room : Int)
  /-- so many elements of `data`, from this index on -/
  | elements (start length : Int)
  /-- the exact value of an `int` -/
  | int (v : Int)
  /-- the exact value of a `size_t`, for the size of a string -/
  | size (v : Int)
  deriving DecidableEq, Repr

/-- In the buffer of `buffSize` bytes and one more, in the range of the type. -/
def Use.InBounds (buffSize : Nat) : Use → Prop
  | .cursor v => 0 ≤ v ∧ v ≤ buffSize
  | .read start length room => 0 ≤ start ∧ 0 < length ∧ start + length ≤ room
  | .elements start length => 0 ≤ start ∧ 0 ≤ length ∧ start + length ≤ buffSize + 1
  | .int v => -(2 ^ 31) ≤ v ∧ v < 2 ^ 31
  | .size v => 0 ≤ v

instance (buffSize : Nat) : DecidablePred (Use.InBounds buffSize)
  | .cursor _ | .int _ => inferInstanceAs (Decidable (_ ∧ _))
  | .size v => inferInstanceAs (Decidable (0 ≤ v))
  | .read _ _ _ | .elements _ _ => inferInstanceAs (Decidable (_ ∧ _ ∧ _))

namespace HttpResponseParser

/-- What an action takes out of the buffer. -/
inductive Found
  /-- the number of a chunk size, which goes into `content_len` -/
  | size (v : Int)
  /-- a text that is read up to the zero behind the bytes at most -/
  | text (start : Nat)
  /-- a copy of the bytes between two offsets -/
  | token (start stop : Nat)
  /-- a copy of a header name, with a `field_len` that may be of an earlier one -/
  | name (start length : Nat) (stale : Bool)
  deriving DecidableEq, Repr

/-- It lies in the bytes of the buffer and the zero behind them, a name only if its length
is its own. -/
def Found.Inside (len : Nat) : Found → Prop
  | .size _ => True
  | .text start => start ≤ len
  | .token start stop => start ≤ stop ∧ stop ≤ len
  | .name start length stale => stale = false → start + length ≤ len

/-- The use of a buffer of `len` bytes. -/
def Found.use (len : Nat) : Found → Use
  | .size v => .int v
  | .text start => .elements start (len - start + 1)
  | .token start stop => .elements start (stop - start)
  | .name start length _ => .elements start length

/-- A chunk size that fits into an `int`; a name that ends in the buffer, if its length is
that of an earlier one. -/
def Found.Fits (buffSize : Nat) : Found → Prop
  | .size v => -(2 ^ 31) ≤ v ∧ v < 2 ^ 31
  | .text _ | .token _ _ => True
  | .name start length stale => stale = true → start + length ≤ buffSize + 1

instance (buffSize : Nat) : DecidablePred (Found.Fits buffSize)
  | .size _ => inferInstanceAs (Decidable (_ ∧ _))
  | .text _ | .token _ _ => isTrue trivial
  | .name _ _ _ => inferInstanceAs (Decidable (_ → _))

/-- What an action at position `p` takes; a name of length 0 is dropped with its value. -/
def finds (buf : List UInt8) (p : Nat) (a : ResponseAction) (s : HttpResponseParser)
    (stale : Bool) : List Found :=
  match a with
  | .chunkSize => [.text s.parser.mark, .size (strtol 16 (buf.drop s.parser.mark))]
  | .writeContentLen | .statusCode => [.text s.parser.mark]
  | .httpVersion | .reasonPhrase => [.token s.parser.mark p]
  | .writeValue =>
      if s.parser.fieldLen = 0 then []
      else [.name s.parser.fieldStart s.parser.fieldLen stale, .token s.parser.mark p]
  | _ => []

/-- Whether `field_len` is older than `field_start`. -/
def staleBehind (a : ResponseAction) (stale : Bool) : Bool :=
  match a with
  | .startField => true
  | .writeField => false
  | _ => stale

/-- An action, with what the actions have taken. -/
def collect (buf : List UInt8) (p : Nat) (a : ResponseAction)
    (r : HttpResponseParser × Bool × List Found) :
    Option (HttpResponseParser × Bool × List Found) :=
  (act buf p a r.1).map fun s =>
    (s, staleBehind a r.2.1, r.2.2 ++ finds buf p a r.1 r.2.1)

/-- The scan of `execute`. -/
def scan (chunck : Bool) (s : HttpResponseParser) (buf : List UInt8) :
    Option (Nat × Nat × HttpResponseParser × Bool × List Found) :=
  let s := if chunck then s.restart else s
  scanner.exec (collect buf) s.parser.cs 0 (s.rewind, false, []) buf

/-- What the actions of a scan take out of the buffer. -/
def founds (chunck : Bool) (s : HttpResponseParser) (buf : List UInt8) : List Found :=
  match scan chunck s buf with
  | none => []
  | some (_, _, _, _, fs) => fs

/-- What `httpclient_parser_execute` returns: -1 when a `check` fails. -/
def nparse (chunck : Bool) (s : HttpResponseParser) (buf : List UInt8) : Option Int :=
  match scan chunck s buf with
  | none => none
  | some (_, p, t, _, _) =>
      if p ≤ buf.length ∧ t.parser.bodyStart ≤ buf.length then
        if t.parser.mark < buf.length ∧ t.parser.fieldLen ≤ buf.length ∧
            t.parser.fieldStart < buf.length then some p
        else some (-1)
      else none

end HttpResponseParser

namespace Connection

/-- A step of `recvResponse`, with the state in front of it.

* `turn`: of the loop over the header block, or with `chunck` over a size line: the parser,
  the bytes in the buffer, whether it reads, and what the `read` returns;
* `chunk`: the data of a chunk and the two bytes behind it;
* `fixed`: a body of a given length. -/
inductive Step
  | turn (chunck : Bool) (parser : HttpResponseParser) (data : List UInt8) (reads : Bool)
      (bs : List UInt8)
  | chunk (contentLen : Int) (data body : List UInt8) (s : SocketStream)
  | fixed (length : Int) (data : List UInt8) (s : SocketStream)

/-- A turn up to the checks of the parser. -/
def turnUses (buffSize : Nat) (chunck : Bool) (parser : HttpResponseParser) (data : List UInt8)
    (reads : Bool) (bs : List UInt8) : List Use :=
  let offset : Int := data.length
  let len : Int := offset + bs.length
  let buf := data ++ bs
  .cursor offset :: ((if reads then [.read offset (buffSize - offset) buffSize] else []) ++
    if reads && bs.isEmpty then []
    else
      [.int len, .cursor len, .elements len 1] ++
        (parser.founds chunck buf).map (·.use buf.length) ++
        match parser.nparse chunck buf with
        | none => []
        | some n => [.elements n (len - n), .elements 0 (len - n), .cursor (len - n)])

/-- The loop `while(left > 0)`, in front of which the string has `size` bytes, and the
`resize` behind it. -/
def leftUses (c : Connection) : Nat → Int → Nat → SocketStream → List Use
  | 0, left, size, _ => if 0 < left then [] else [.size (size - 2), .cursor 0]
  | turns + 1, left, size, s =>
      if 0 < left then
        let n := toSize (if toInt32 c.buffSize < left then toInt32 c.buffSize else left)
        let (bs, s) := s.read n
        .read 0 n c.buffSize ::
          if bs = [] then []
          else [.elements 0 bs.length, .int (left - bs.length)] ++
            leftUses c turns (left - bs.length) (size + bs.length) s
      else [.size (size - 2), .cursor 0]

/-- A chunk; an `append` of a negative length throws. -/
def chunkUses (c : Connection) (contentLen : Int) (data body : List UInt8) (s : SocketStream) :
    List Use :=
  let len : Int := data.length
  .int (contentLen + 2) ::
    if 2 ^ 31 - 1 < contentLen + 2 then []
    else if contentLen + 2 ≤ len then
      .elements 0 (toSize contentLen) ::
        if contentLen < 0 then []
        else [.elements (contentLen + 2) (len - contentLen - 2), .elements 0 (len - contentLen - 2),
          .int (len - contentLen), .int (len - contentLen - 2), .cursor (len - (contentLen + 2))]
    else
      let left := contentLen - len + 2
      [.elements 0 len, .int (contentLen - len), .int left] ++
        leftUses c left.toNat left (body.length + data.length) s

/-- The loop of `readFixSize`, which stores to a buffer of `room` bytes from `start` on. -/
def readFixUses (room : Nat) : Nat → Nat → Nat → SocketStream → List Use
  | _, _, 0, _ => []
  | 0, _, _ + 1, _ => []
  | turns + 1, start, left + 1, s =>
      let (bs, s) := s.read (left + 1)
      .read start (left + 1) room ::
        if bs = [] then []
        else readFixUses room turns (start + bs.length) (left + 1 - bs.length) s

/-- A body of `length` bytes. -/
def bodyUses (length : Int) (data : List UInt8) (s : SocketStream) : List Use :=
  if 0 < length then
    let n := length.toNat
    if data.length ≤ n then
      [.elements 0 data.length, .cursor data.length] ++
        readFixUses n (n - data.length) data.length (n - data.length) s
    else [.elements 0 n, .cursor n]
  else []

/-- What a step reads and writes. -/
def Step.uses (c : Connection) : Step → List Use
  | .turn chunck parser data reads bs => turnUses c.buffSize chunck parser data reads bs
  | .chunk contentLen data body s => chunkUses c contentLen data body s
  | .fixed length data s => bodyUses length data s

/-- The turns of the loop over the header block, which always reads, or with `chunck` over
a size line. -/
def loopSteps (c : Connection) (chunck : Bool) :
    Nat → Bool → HttpResponseParser → List UInt8 → SocketStream → List Step
  | 0, _, _, _, _ => []
  | turns + 1, begin_, parser, data, s =>
      let reads := !chunck || !begin_ || data.isEmpty
      let (bs, s) := if reads then s.read (c.buffSize - data.length) else ([], s)
      .turn chunck parser data reads bs ::
        if reads && bs.isEmpty then []
        else
          match HttpResponseParser.execute chunck parser (data ++ bs) with
          | none => []
          | some (data, parser) =>
              if parser.hasError || bufferFull c.buffSize data.length || parser.isFinished then []
              else loopSteps c chunck turns false parser data s

/-- The loop over the chunks. -/
def chunksSteps (c : Connection) :
    Nat → HttpResponseParser → List UInt8 → List UInt8 → SocketStream → List Step
  | 0, _, _, _, _ => []
  | turns + 1, parser, data, body, s =>
      loopSteps c true (s.unread.length + 2) true parser data s ++
        match recvSizeLine c (s.unread.length + 2) true parser data s with
        | (.message (parser, data), s) =>
            .chunk parser.parser.contentLen data body s ::
              match recvChunk c parser.parser.contentLen data body s with
              | (.message (data, body), s) =>
                  if parser.parser.chunksDone then []
                  else chunksSteps c turns parser data body s
              | _ => []
        | _ => []

/-- The steps of `recvResponse`. -/
def steps (c : Connection) (s : SocketStream) : List Step :=
  loopSteps c false (s.unread.length + 1) true (.new c.memory) [] s ++
    match recvHead c (s.unread.length + 1) (.new c.memory) [] s with
    | (.message (parser, data), s) =>
        if parser.parser.chunked then
          chunksSteps c (data.length + s.unread.length + 1) parser data [] s
        else [.fixed (toInt64 (parser.getContentLength c.lexicalCast)) data s]
    | _ => []

/-- What the parser finds fits: a chunk size into an `int`, a name with the length of an
earlier one into the buffer.  The size of a chunk plus 2 fits into an `int`, too; it is not
negative, unless it is -1, the buffer is empty, and there are bytes of other chunks to make
up for it or none to come. -/
def Step.Fits (buffSize : Nat) : Step → Prop
  | .turn chunck parser data reads bs =>
      (reads && bs.isEmpty) = false →
        ∀ f ∈ parser.founds chunck (data ++ bs), f.Fits buffSize
  | .chunk contentLen data body s =>
      contentLen + 2 < 2 ^ 31 ∧
        (0 ≤ contentLen ∨ contentLen = -1 ∧ data = [] ∧ (body ≠ [] ∨ (s.read 1).1 = []))
  | .fixed _ _ _ => True

instance (buffSize : Nat) : DecidablePred (Step.Fits buffSize)
  | .turn _ _ _ _ _ =>
      inferInstanceAs (Decidable (_ → ∀ f ∈ _, HttpResponseParser.Found.Fits _ f))
  | .chunk _ _ _ _ => inferInstanceAs (Decidable (_ ∧ (_ ∨ _ ∧ _ ∧ (_ ∨ _))))
  | .fixed _ _ _ => isTrue trivial

end Connection

namespace HttpResponseParser

variable {buf : List UInt8} {s t : HttpResponseParser} {chunck : Bool}

/-! ### The parser -/

/-- Collecting does what the action does. -/
theorem collect_map (buf : List UInt8) (p : Nat) (a : ResponseAction)
    (r : HttpResponseParser × Bool × List Found) :
    (collect buf p a r).map Prod.fst = act buf p a r.1 := by
  unfold collect
  cases act buf p a r.1 with
  | none => rfl
  | some s => rfl

/-- The scan is the one of `httpclient_parser_execute`. -/
theorem scan_map (chunck : Bool) (s : HttpResponseParser) (buf : List UInt8) :
    (scan chunck s buf).map (fun r => (r.1, r.2.1, r.2.2.1)) =
      scanner.exec (act buf) (if chunck then s.restart else s).parser.cs 0
        (if chunck then s.restart else s).rewind buf :=
  Scanner.exec_map (collect_map buf) _ 0 (_, false, []) buf

/-- What the scan keeps up to position `p` of a buffer of `len` bytes. -/
structure Watched (bound len p : Nat) (r : HttpResponseParser × Bool × List Found) : Prop where
  offsets : Offsets bound p r.1
  name : r.2.1 = false → r.1.parser.fieldStart + r.1.parser.fieldLen ≤ p
  inside : ∀ f ∈ r.2.2, f.Inside len

/-- A later position watches more. -/
theorem Watched.mono {bound len p p' : Nat} {r : HttpResponseParser × Bool × List Found}
    (hp : p ≤ p') (h : Watched bound len p r) : Watched bound len p' r :=
  ⟨h.offsets.mono hp, fun hstale => (h.name hstale).trans hp, h.inside⟩

/-- `write_field` takes the length of the name that `start_field` began. -/
theorem act_name {p : Nat} {a : ResponseAction} {stale : Bool} (h : act buf p a s = some t)
    (hstart : s.parser.fieldStart ≤ p)
    (hname : stale = false → s.parser.fieldStart + s.parser.fieldLen ≤ p)
    (hstale : staleBehind a stale = false) :
    t.parser.fieldStart + t.parser.fieldLen ≤ p := by
  cases a with
  | startField => cases hstale
  | writeField =>
      cases h
      show s.parser.fieldStart + (p - s.parser.fieldStart) ≤ p
      omega
  | httpVersion =>
      obtain ⟨v, -, rfl⟩ := Option.map_eq_some_iff.mp h
      rw [(onResponseVersion_keeps s v).2.1]
      exact hname hstale
  | writeValue =>
      obtain ⟨v, -, rfl⟩ := Option.map_eq_some_iff.mp h
      rw [(onResponseHttpField_keeps s _ v s.parser.fieldLen).2.1]
      exact hname hstale
  | reasonPhrase =>
      obtain ⟨v, -, rfl⟩ := Option.map_eq_some_iff.mp h
      exact hname hstale
  | _ =>
      cases h
      exact hname hstale

/-- What an action takes lies in the buffer, but for a name with an older length. -/
theorem finds_inside {p : Nat} {a : ResponseAction} {stale : Bool} (hp : p < buf.length)
    (hmark : s.parser.mark ≤ p)
    (hname : stale = false → s.parser.fieldStart + s.parser.fieldLen ≤ p) :
    ∀ f ∈ finds buf p a s stale, f.Inside buf.length := by
  have htext : (Found.text s.parser.mark).Inside buf.length := by
    show s.parser.mark ≤ buf.length
    omega
  have htoken : (Found.token s.parser.mark p).Inside buf.length := ⟨hmark, hp.le⟩
  unfold finds
  split
  · simpa only [List.forall_mem_cons] using ⟨htext, trivial, List.forall_mem_nil _⟩
  · simpa only [List.forall_mem_singleton] using htext
  · simpa only [List.forall_mem_singleton] using htext
  · simpa only [List.forall_mem_singleton] using htoken
  · simpa only [List.forall_mem_singleton] using htoken
  · split
    · exact List.forall_mem_nil _
    · simp only [List.forall_mem_cons]
      exact ⟨fun hown => (hname hown).trans hp.le, htoken, List.forall_mem_nil _⟩
  · exact List.forall_mem_nil _

/-- **One action** keeps it. -/
theorem collect_watched {bound p : Nat} (hbound : buf.length ≤ bound) (a : ResponseAction)
    {r : HttpResponseParser × Bool × List Found} (hp : p < buf.length)
    (h : Watched bound buf.length p r) :
    ∃ r', collect buf p a r = some r' ∧ Watched bound buf.length p r' := by
  obtain ⟨t, ht, hoff⟩ := act_offsets buf a (hp.trans_le hbound) h.offsets
  refine ⟨_, by rw [collect, ht, Option.map_some], hoff, ?_, ?_⟩
  · exact act_name ht h.offsets.fieldStart h.name
  · simp only [List.forall_mem_append]
    exact ⟨h.inside, finds_inside hp h.offsets.mark h.name⟩

/-- Whatever the buffer is, the scan stops at its end or before, and its marks and what it
takes are in it. -/
theorem scan_spec (chunck : Bool) (s : HttpResponseParser) (hne : buf ≠ []) :
    ∃ cs p t stale fs k, scan chunck s buf = some (cs, p, t, stale, fs) ∧ p ≤ buf.length ∧
      k < buf.length ∧ t.parser.mark ≤ k ∧ t.parser.fieldStart ≤ k ∧ t.parser.fieldLen ≤ k ∧
      ∀ f ∈ fs, f.Inside buf.length := by
  have hpos : 0 < buf.length := List.length_pos_iff.mpr hne
  let start := if chunck then s.restart else s
  let bound := max buf.length start.parser.bodyStart
  have hstart : Watched bound buf.length 0 (start.rewind, false, []) :=
    ⟨⟨Nat.le_refl 0, Nat.le_refl 0, Nat.le_refl 0, Nat.le_max_right _ _⟩,
      fun _ => Nat.le_refl 0, List.forall_mem_nil _⟩
  obtain ⟨cs, p, r, k, hexec, hp, hk, hwatched⟩ := Scanner.exec_inv (m := scanner)
    (I := Watched bound buf.length) Watched.mono
    (fun a _ _ => collect_watched (Nat.le_max_left _ _) a) (q := start.parser.cs)
    (s := (start.rewind, false, [])) hstart (Nat.le_refl 0) hpos (Nat.zero_add _)
  exact ⟨cs, p, r.1, r.2.1, r.2.2, k, hexec, hp, hk, hwatched.offsets.mark,
    hwatched.offsets.fieldStart, hwatched.offsets.fieldLen, hwatched.inside⟩

/-- **What the parser takes** out of a buffer lies in it, but for names with an older
length. -/
theorem founds_inside (chunck : Bool) (s : HttpResponseParser) (hne : buf ≠ []) :
    ∀ f ∈ founds chunck s buf, f.Inside buf.length := by
  obtain ⟨cs, p, t, stale, fs, k, hscan, -, -, -, -, -, hinside⟩ := scan_spec chunck s hne
  simpa only [founds, hscan] using hinside

/-- So the use of it is in bounds exactly when it fits. -/
theorem Found.use_inBounds_iff {f : Found} {len buffSize : Nat} (h : f.Inside len)
    (hlen : len ≤ buffSize) : (f.use len).InBounds buffSize ↔ f.Fits buffSize := by
  cases f with
  | size v => exact Iff.rfl
  | text start =>
      simp only [Inside, use, Use.InBounds, Fits, iff_true] at h ⊢
      omega
  | token start stop =>
      simp only [Inside, use, Use.InBounds, Fits, iff_true] at h ⊢
      omega
  | name start length stale =>
      simp only [Inside, use, Use.InBounds, Fits] at h ⊢
      cases stale with
      | true =>
          refine ⟨fun hin _ => ?_, fun hin => ?_⟩
          · omega
          · have hlast := hin rfl
            omega
      | false =>
          have hin := h rfl
          refine ⟨fun _ htrue => absurd htrue Bool.false_ne_true, fun _ => ?_⟩
          omega

/-- **The parser stays in the buffer**: unless an assertion fails, it returns how many bytes
it has consumed. -/
theorem nparse_cases (chunck : Bool) (s : HttpResponseParser) (hne : buf ≠ []) :
    nparse chunck s buf = none ∨
      ∃ n : Nat, n ≤ buf.length ∧ nparse chunck s buf = some (n : Int) := by
  obtain ⟨cs, p, t, stale, fs, k, hscan, hp, hk, hmark, hfield, hlen, -⟩ :=
    scan_spec chunck s hne
  simp only [nparse, hscan]
  split
  · rw [if_pos (by omega)]
    exact .inr ⟨p, hp, rfl⟩
  · exact .inl rfl

/-- It is the call that the connection makes. -/
theorem nparse_of_execute {left : List UInt8} (h : execute chunck s buf = some (left, t)) :
    ∃ n : Nat, nparse chunck s buf = some (n : Int) ∧ left = buf.drop n := by
  obtain ⟨⟨n, u⟩, hexecute, heq⟩ := Option.map_eq_some_iff.mp h
  cases heq
  unfold httpclientParserExecute at hexecute
  rw [← scan_map] at hexecute
  unfold nparse
  cases hscan : scan chunck s buf with
  | none =>
      rw [hscan] at hexecute
      cases hexecute
  | some r =>
      obtain ⟨cs, p, v, stale, fs⟩ := r
      rw [hscan] at hexecute
      simp only [Option.map_some] at hexecute
      split at hexecute
      · next hinb =>
          cases hexecute
          simp only [inBounds, Bool.and_eq_true, decide_eq_true_eq] at hinb
          refine ⟨n, ?_, rfl⟩
          simp only
          rw [if_pos (by omega), if_pos (by omega)]
      · cases hexecute

/-- `content_len` is an `int`. -/
theorem contentLen_of_execute {left : List UInt8} (h : execute true s buf = some (left, t)) :
    -(2 ^ 31) ≤ t.parser.contentLen := by
  have hact : ∀ {p : Nat} {a : ResponseAction} {s t : HttpResponseParser},
      act buf p a s = some t → -(2 ^ 31) ≤ s.parser.contentLen →
        -(2 ^ 31) ≤ t.parser.contentLen := by
    intro p a s t h hint
    cases a with
    | httpVersion =>
        obtain ⟨v, -, rfl⟩ := Option.map_eq_some_iff.mp h
        rwa [(onResponseVersion_keeps s v).2.1]
    | writeValue =>
        obtain ⟨v, -, rfl⟩ := Option.map_eq_some_iff.mp h
        rwa [(onResponseHttpField_keeps s _ v s.parser.fieldLen).2.1]
    | reasonPhrase =>
        obtain ⟨v, -, rfl⟩ := Option.map_eq_some_iff.mp h
        exact hint
    | writeContentLen =>
        cases h
        exact (toInt32_bounds _).1
    | chunkSize =>
        cases h
        exact (toInt32_bounds _).1
    | _ =>
        cases h
        exact hint
  obtain ⟨⟨n, u⟩, hexecute, heq⟩ := Option.map_eq_some_iff.mp h
  cases heq
  unfold httpclientParserExecute at hexecute
  split at hexecute
  · cases hexecute
  · next hexec =>
      dsimp only at hexecute
      split at hexecute
      · cases hexecute
        have hstart : -(2 ^ 31) ≤ s.restart.rewind.parser.contentLen := by
          show -(2 ^ 31) ≤ (-1 : Int)
          decide
        exact Scanner.exec_keeps (I := fun s => -(2 ^ 31) ≤ s.parser.contentLen) hact hexec hstart
      · cases hexecute

/-- What is left over was received. -/
theorem length_left_le {left : List UInt8} (h : execute chunck s buf = some (left, t)) :
    left.length ≤ buf.length := by
  obtain ⟨n, -, rfl⟩ := nparse_of_execute h
  rw [List.length_drop]
  exact Nat.sub_le _ _

end HttpResponseParser

namespace Connection

open HttpResponseParser (Found founds_inside nparse_cases nparse_of_execute
  contentLen_of_execute length_left_le)

variable {c : Connection} {chunck begin_ reads : Bool} {parser parser' : HttpResponseParser}
  {data left body bs : List UInt8} {s s' : SocketStream} {turns : Nat} {contentLen missing : Int}

/-! ### One step -/

/-- What the loops see to in front of a step. -/
def Step.Sound (buffSize : Nat) : Step → Prop
  | .turn _ _ data reads bs => data.length + bs.length ≤ buffSize ∧
      (reads = true → data.length < buffSize) ∧ (data ++ bs = [] → reads = true)
  | .chunk contentLen data _ _ => -(2 ^ 31) ≤ contentLen ∧ data.length ≤ buffSize
  | .fixed _ data _ => data.length ≤ buffSize

/-- A turn of the header loop stays in the buffer exactly when it fits. -/
theorem turn_iff (hbuf : c.buffSize < 2 ^ 31)
    (h : (Step.turn chunck parser data reads bs).Sound c.buffSize) :
    (∀ u ∈ turnUses c.buffSize chunck parser data reads bs, u.InBounds c.buffSize) ↔
      (Step.turn chunck parser data reads bs).Fits c.buffSize := by
  obtain ⟨hlen, hreads, hempty⟩ := h
  have hread : ∀ u ∈ (if reads then
      [Use.read data.length (c.buffSize - data.length) c.buffSize] else []),
        u.InBounds c.buffSize := by
    cases reads with
    | false => exact List.forall_mem_nil _
    | true =>
        have hlt := hreads rfl
        rintro u hu
        cases List.mem_singleton.mp hu
        simp only [Use.InBounds]
        omega
  have hcursor : (Use.cursor data.length).InBounds c.buffSize := by
    simp only [Use.InBounds]
    omega
  simp only [turnUses, List.forall_mem_cons, List.forall_mem_append, Step.Fits]
  cases hstop : reads && bs.isEmpty with
  | true => exact ⟨fun _ => nofun, fun _ => ⟨hcursor, hread, List.forall_mem_nil _⟩⟩
  | false =>
      have hne : data ++ bs ≠ [] := fun hnil => by
        have hbs : bs = [] := (List.append_eq_nil_iff.mp hnil).2
        rw [hempty hnil, hbs] at hstop
        cases hstop
      have hfront : ∀ u ∈ [Use.int (data.length + bs.length), .cursor (data.length + bs.length),
          .elements (data.length + bs.length) 1], u.InBounds c.buffSize := by
        simp only [List.forall_mem_cons, Use.InBounds]
        refine ⟨?_, ?_, ?_, List.forall_mem_nil _⟩
        all_goals omega
      have hback : ∀ u ∈ (match parser.nparse chunck (data ++ bs) with
          | none => []
          | some n => [Use.elements n (data.length + bs.length - n),
              .elements 0 (data.length + bs.length - n),
              .cursor (data.length + bs.length - n)]), u.InBounds c.buffSize := by
        rcases nparse_cases chunck parser hne with hnone | ⟨n, hn, hsome⟩
        · rw [hnone]
          exact List.forall_mem_nil _
        · rw [List.length_append] at hn
          rw [hsome]
          simp only [List.forall_mem_cons, Use.InBounds]
          refine ⟨?_, ?_, ?_, List.forall_mem_nil _⟩
          all_goals omega
      simp only [Bool.false_eq_true, if_false, List.forall_mem_append, forall_true_left]
      have hfit : ∀ f ∈ parser.founds chunck (data ++ bs),
          ((f.use (data ++ bs).length).InBounds c.buffSize ↔ f.Fits c.buffSize) := fun f hf =>
        Found.use_inBounds_iff (founds_inside chunck parser hne f hf)
          (by rw [List.length_append]; exact hlen)
      simp only [List.forall_mem_map]
      constructor
      · rintro ⟨-, -, ⟨-, huses⟩, -⟩ f hf
        exact (hfit f hf).mp (huses f hf)
      · intro hfits
        exact ⟨hcursor, hread, ⟨hfront, fun f hf => (hfit f hf).mpr (hfits f hf)⟩, hback⟩

/-- The bytes that a chunk still lacks are read to the front of the buffer. -/
theorem leftUses_inBounds (hpos : 0 < c.buffSize) (hbuf : c.buffSize < 2 ^ 31) {size : Nat}
    (hturns : missing.toNat ≤ turns) (hmissing : 0 ≤ missing) (hsmall : missing < 2 ^ 31)
    (hsize : 2 ≤ size + missing) :
    ∀ u ∈ leftUses c turns missing size s, u.InBounds c.buffSize := by
  induction turns generalizing missing size s with
  | zero =>
      have hzero : missing = 0 := by omega
      rw [leftUses, if_neg (by omega)]
      simp only [List.forall_mem_cons, Use.InBounds]
      exact ⟨by omega, by omega, List.forall_mem_nil _⟩
  | succ turns ih =>
      rw [leftUses]
      split
      · next hlack =>
          rw [toInt32_of_lt hbuf]
          generalize hn : toSize (if (c.buffSize : Int) < missing then (c.buffSize : Int)
            else missing) = n
          have hlength : 0 < n ∧ n ≤ c.buffSize ∧ (n : Int) ≤ missing := by
            rw [← hn, toSize]
            split
            · omega
            · omega
          have hread := s.length_read_le n
          simp only [List.forall_mem_cons]
          refine ⟨by simp only [Use.InBounds]; omega, ?_⟩
          split
          · exact List.forall_mem_nil _
          · next hbs =>
              have hone := List.length_pos_iff.mpr hbs
              simp only [List.forall_mem_append, List.forall_mem_cons, Use.InBounds]
              refine ⟨⟨by omega, by omega, List.forall_mem_nil _⟩, ?_⟩
              exact ih (by omega) (by omega) (by omega) (by omega)
      · simp only [List.forall_mem_cons, Use.InBounds]
        exact ⟨by omega, by omega, List.forall_mem_nil _⟩

/-- A size of -1 behind an empty buffer: one byte is read, and two are taken away. -/
theorem leftUses_one (hpos : 0 < c.buffSize) (hbuf : c.buffSize < 2 ^ 31) (size : Nat) :
    (∀ u ∈ leftUses c 1 1 size s, u.InBounds c.buffSize) ↔ 0 < size ∨ (s.read 1).1 = [] := by
  have hone : toSize (if toInt32 c.buffSize < 1 then toInt32 c.buffSize else 1) = 1 := by
    rw [toInt32_of_lt hbuf, if_neg (by omega)]
    rfl
  have hread := s.length_read_le 1
  simp only [leftUses, if_pos Int.one_pos, hone, List.forall_mem_cons]
  constructor
  · rintro ⟨-, hrest⟩
    by_cases hbs : (s.read 1).1 = []
    · exact .inr hbs
    · have hlen := List.length_pos_iff.mpr hbs
      rw [if_neg hbs, if_neg (by omega)] at hrest
      have hsize := hrest (.size ((size + (s.read 1).1.length : Nat) - 2)) (by simp)
      simp only [Use.InBounds] at hsize
      exact .inl (by omega)
  · intro hcond
    refine ⟨by simp only [Use.InBounds]; omega, ?_⟩
    by_cases hbs : (s.read 1).1 = []
    · rw [if_pos hbs]
      exact List.forall_mem_nil _
    · have hlen := List.length_pos_iff.mpr hbs
      have hsize := hcond.resolve_right hbs
      rw [if_neg hbs, if_neg (by omega)]
      simp only [List.forall_mem_append, List.forall_mem_cons, Use.InBounds]
      exact ⟨⟨by omega, by omega, List.forall_mem_nil _⟩, by omega, by omega, List.forall_mem_nil _⟩

/-- A turn of the chunk loop stays in the buffer exactly when it fits. -/
theorem chunk_iff (hpos : 0 < c.buffSize) (hbuf : c.buffSize < 2 ^ 31)
    (h : (Step.chunk contentLen data body s).Sound c.buffSize) :
    (∀ u ∈ chunkUses c contentLen data body s, u.InBounds c.buffSize) ↔
      (Step.chunk contentLen data body s).Fits c.buffSize := by
  obtain ⟨hint, hlen⟩ := h
  simp only [chunkUses, List.forall_mem_cons, Step.Fits]
  by_cases hover : 2 ^ 31 - 1 < contentLen + 2
  · rw [if_pos hover]
    simp only [Use.InBounds]
    exact ⟨fun h => by omega, fun h => by omega⟩
  · rw [if_neg hover]
    by_cases hin : contentLen + 2 ≤ data.length
    · rw [if_pos hin]
      by_cases hneg : contentLen < 0
      · rw [if_pos hneg]
        simp only [List.forall_mem_cons, Use.InBounds, toSize]
        constructor
        · rintro ⟨-, hlong, -⟩
          omega
        · rintro ⟨-, hnonneg | ⟨hminus, rfl, -⟩⟩
          · omega
          · rw [hminus] at hin
            exact absurd hin (by decide)
      · rw [if_neg hneg]
        simp only [List.forall_mem_cons, Use.InBounds, toSize]
        refine ⟨fun _ => ⟨by omega, .inl (by omega)⟩, fun _ => ?_⟩
        exact ⟨by omega, by omega, by omega, by omega, by omega, by omega, by omega,
          List.forall_mem_nil _⟩
    · rw [if_neg hin]
      simp only [List.forall_mem_append, List.forall_mem_cons]
      by_cases hneg : contentLen < 0
      · -- a negative size that is more than the bytes in the buffer less 2
        have hminus : contentLen = -1 := by omega
        have hempty : data = [] := List.eq_nil_of_length_eq_zero (by omega)
        subst hminus hempty
        have hone := leftUses_one (s := s) hpos hbuf body.length
        constructor
        · rintro ⟨-, -, hleft⟩
          exact ⟨by decide, .inr ⟨rfl, rfl, (hone.mp hleft).imp_left List.ne_nil_of_length_pos⟩⟩
        · rintro ⟨-, hnonneg | ⟨-, -, hcond⟩⟩
          · exact absurd hnonneg (by decide)
          · simp only [Use.InBounds, List.length_nil]
            refine ⟨by decide, ⟨by omega, by decide, by decide, List.forall_mem_nil _⟩, ?_⟩
            exact hone.mpr (hcond.imp_left List.length_pos_iff.mpr)
      · refine ⟨fun _ => ⟨by omega, .inl (by omega)⟩, fun _ => ?_⟩
        simp only [Use.InBounds]
        refine ⟨by omega, ⟨by omega, by omega, by omega, List.forall_mem_nil _⟩, ?_⟩
        exact leftUses_inBounds hpos hbuf (Nat.le_refl _) (by omega) (by omega) (by omega)

/-- `readFixSize` stays in the room it is given. -/
theorem readFixUses_inBounds {room start missing : Nat} {turns : Nat}
    (hroom : start + missing ≤ room) :
    ∀ u ∈ readFixUses room turns start missing s, u.InBounds c.buffSize := by
  induction turns generalizing start missing s with
  | zero =>
      cases missing with
      | zero => exact List.forall_mem_nil _
      | succ missing => exact List.forall_mem_nil _
  | succ turns ih =>
      cases missing with
      | zero => exact List.forall_mem_nil _
      | succ missing =>
          have hread := s.length_read_le (missing + 1)
          simp only [readFixUses, List.forall_mem_cons]
          refine ⟨by simp only [Use.InBounds]; omega, ?_⟩
          split
          · exact List.forall_mem_nil _
          · exact ih (by omega)

/-- A body of fixed length is read inside its string. -/
theorem fixed_inBounds (length : Int) (hlen : data.length ≤ c.buffSize) :
    ∀ u ∈ bodyUses length data s, u.InBounds c.buffSize := by
  unfold bodyUses
  split
  · dsimp only
    split
    · simp only [List.forall_mem_append, List.forall_mem_cons, Use.InBounds]
      exact ⟨⟨by omega, by omega, List.forall_mem_nil _⟩, readFixUses_inBounds (by omega)⟩
    · simp only [List.forall_mem_cons, Use.InBounds]
      exact ⟨by omega, by omega, List.forall_mem_nil _⟩
  · exact List.forall_mem_nil _

/-- **One step** is in bounds exactly when it fits. -/
theorem step_iff (hpos : 0 < c.buffSize) (hbuf : c.buffSize < 2 ^ 31) {step : Step}
    (h : step.Sound c.buffSize) :
    (∀ u ∈ step.uses c, u.InBounds c.buffSize) ↔ step.Fits c.buffSize := by
  cases step with
  | turn chunck parser data reads bs => exact turn_iff hbuf h
  | chunk contentLen data body s => exact chunk_iff hpos hbuf h
  | fixed length data s => exact ⟨fun _ => trivial, fun _ => fixed_inBounds length h⟩

/-! ### All steps -/

/-- A buffer that is not full has room for one more byte. -/
theorem lt_of_not_full (hbuf : c.buffSize < 2 ^ 31) {n : Nat} (hle : n ≤ c.buffSize)
    (h : bufferFull c.buffSize n = false) : n < c.buffSize := by
  rw [bufferFull, toInt32_of_lt hbuf, beq_eq_false_iff_ne] at h
  omega

/-- **The loops over the parser** stop in front of a full buffer. -/
theorem loopSteps_sound (hbuf : c.buffSize < 2 ^ 31) (hlen : data.length ≤ c.buffSize)
    (hroom : (!chunck || !begin_ || data.isEmpty) = true → data.length < c.buffSize) :
    ∀ step ∈ loopSteps c chunck turns begin_ parser data s, step.Sound c.buffSize := by
  induction turns generalizing begin_ parser data s with
  | zero => exact List.forall_mem_nil _
  | succ turns ih =>
      have hread := s.length_read_le (c.buffSize - data.length)
      generalize hr : (if (!chunck || !begin_ || data.isEmpty) = true then
        s.read (c.buffSize - data.length) else ([], s)) = r
      have hfill : data.length + r.1.length ≤ c.buffSize := by
        rw [← hr]
        split
        · omega
        · rw [List.length_nil]
          omega
      simp only [loopSteps, hr, List.forall_mem_cons, Step.Sound]
      refine ⟨⟨hfill, hroom, fun hnil => ?_⟩, ?_⟩
      · rw [(List.append_eq_nil_iff.mp hnil).1]
        simp
      · split
        · exact List.forall_mem_nil _
        · split
          · exact List.forall_mem_nil _
          · next data₁ parser₁ hexecute =>
              have hleft := length_left_le hexecute
              rw [List.length_append] at hleft
              split
              · exact List.forall_mem_nil _
              · next hgo =>
                  simp only [Bool.or_eq_true, not_or, Bool.not_eq_true] at hgo
                  exact ih (by omega) fun _ => lt_of_not_full hbuf (by omega) hgo.1.2

/-- The turn that the loop begins with. -/
theorem turn_mem_loopSteps {r : List UInt8 × SocketStream}
    (hr : (if (!chunck || !begin_ || data.isEmpty) = true then
      s.read (c.buffSize - data.length) else ([], s)) = r) :
    .turn chunck parser data (!chunck || !begin_ || data.isEmpty) r.1 ∈
      loopSteps c chunck (turns + 1) begin_ parser data s := by
  rw [loopSteps, hr]
  exact List.mem_cons_self

/-- Behind a turn that neither ends the loop nor fails come those that the loop goes on
with. -/
theorem mem_loopSteps_next {r : List UInt8 × SocketStream} {step : Step}
    (hr : (if (!chunck || !begin_ || data.isEmpty) = true then
      s.read (c.buffSize - data.length) else ([], s)) = r)
    (hread : ((!chunck || !begin_ || data.isEmpty) && r.1.isEmpty) = false)
    (hexecute : HttpResponseParser.execute chunck parser (data ++ r.1) = some (left, parser'))
    (hgo : (parser'.hasError || bufferFull c.buffSize left.length || parser'.isFinished) = false)
    (hmem : step ∈ loopSteps c chunck turns false parser' left r.2) :
    step ∈ loopSteps c chunck (turns + 1) begin_ parser data s := by
  rw [loopSteps, hr]
  refine List.mem_cons_of_mem _ ?_
  simpa only [hread, hexecute, hgo, Bool.false_eq_true, if_false] using hmem

/-- A size line is the outcome of its last turn. -/
theorem mem_loopSteps_of_recvSizeLine
    (h : c.recvSizeLine turns begin_ parser data s = (.message (parser', left), s')) :
    ∃ p d reads bs, Step.turn true p d reads bs ∈ loopSteps c true turns begin_ parser data s ∧
      HttpResponseParser.execute true p (d ++ bs) = some (left, parser') := by
  induction turns generalizing begin_ parser data s with
  | zero => cases h
  | succ turns ih =>
      simp only [recvSizeLine] at h
      generalize hr : (if (!begin_ || data.isEmpty) = true then
        s.read (c.buffSize - data.length) else ([], s)) = r at h
      split at h
      · cases h
      · next hread =>
          split at h
          · cases h
          · next data₁ parser₁ hexecute =>
              split at h
              · cases h
              · next herror =>
                  split at h
                  · cases h
                  · next hfull =>
                      split at h
                      · cases h
                        exact ⟨parser, data, _, r.1, turn_mem_loopSteps hr, hexecute⟩
                      · next hfinished =>
                          obtain ⟨p, d, reads, bs, hmem, hlast⟩ := ih h
                          refine ⟨p, d, reads, bs, ?_, hlast⟩
                          exact mem_loopSteps_next hr (by simpa using hread) hexecute
                            (by simp [herror, hfull, hfinished]) hmem

/-- So is the header block. -/
theorem mem_loopSteps_of_recvHead (begin_ : Bool)
    (h : c.recvHead turns parser data s = (.message (parser', left), s')) :
    ∃ p d reads bs, Step.turn false p d reads bs ∈ loopSteps c false turns begin_ parser data s ∧
      HttpResponseParser.execute false p (d ++ bs) = some (left, parser') := by
  induction turns generalizing begin_ parser data s with
  | zero => cases h
  | succ turns ih =>
      simp only [recvHead, readHead] at h
      generalize hr : s.read (c.buffSize - data.length) = r at h
      split at h
      · cases h
      · next hread =>
          split at h
          · cases h
          · next data₁ parser₁ hexecute =>
              split at h
              · cases h
              · next herror =>
                  split at h
                  · cases h
                  · next hfull =>
                      split at h
                      · cases h
                        exact ⟨parser, data, _, r.1, turn_mem_loopSteps hr, hexecute⟩
                      · next hfinished =>
                          obtain ⟨p, d, reads, bs, hmem, hlast⟩ := ih false h
                          refine ⟨p, d, reads, bs, ?_, hlast⟩
                          exact mem_loopSteps_next hr (by simpa [List.isEmpty_iff] using hread)
                            hexecute (by simp [herror, hfull, hfinished]) hmem

/-- What a chunk leaves in the buffer. -/
theorem length_recvChunk_le
    (h : c.recvChunk contentLen data body s = (.message (left, bs), s')) :
    left.length ≤ data.length := by
  unfold recvChunk at h
  split at h
  · cases h
  · split at h
    · split at h
      · cases h
      · cases h
        rw [List.length_drop]
        exact Nat.sub_le _ _
    · dsimp only at h
      split at h
      · split at h
        · cases h
        · cases h
          exact Nat.zero_le _
      · cases h
      · cases h

/-- Every turn of the chunk loops is sound. -/
theorem chunksSteps_sound (hpos : 0 < c.buffSize) (hbuf : c.buffSize < 2 ^ 31)
    (hlen : data.length ≤ c.buffSize) :
    ∀ step ∈ chunksSteps c turns parser data body s, step.Sound c.buffSize := by
  induction turns generalizing parser data body s with
  | zero => exact List.forall_mem_nil _
  | succ turns ih =>
      have hroom : (!true || !true || data.isEmpty) = true → data.length < c.buffSize := by
        intro hempty
        have hnil : data = [] := by simpa using hempty
        rw [hnil]
        exact hpos
      have hloop : ∀ step ∈ loopSteps c true (s.unread.length + 2) true parser data s,
          step.Sound c.buffSize := loopSteps_sound hbuf hlen hroom
      simp only [chunksSteps, List.forall_mem_append]
      refine ⟨hloop, ?_⟩
      split
      · next parser₁ data₁ s₁ hline =>
          obtain ⟨p, d, reads, bs, hmem, hexecute⟩ := mem_loopSteps_of_recvSizeLine hline
          have hturn := (hloop _ hmem).1
          have hleft := length_left_le hexecute
          rw [List.length_append] at hleft
          have hline : data₁.length ≤ c.buffSize := Nat.le_trans hleft hturn
          simp only [List.forall_mem_cons]
          refine ⟨⟨contentLen_of_execute hexecute, hline⟩, ?_⟩
          split
          · next hchunk =>
              split
              · exact List.forall_mem_nil _
              · exact ih (Nat.le_trans (length_recvChunk_le hchunk) hline)
          · exact List.forall_mem_nil _
      · exact List.forall_mem_nil _

/-- **Every step** finds the buffer as its loop has left it. -/
theorem steps_sound (hpos : 0 < c.buffSize) (hbuf : c.buffSize < 2 ^ 31) (s : SocketStream) :
    ∀ step ∈ c.steps s, step.Sound c.buffSize := by
  have hloop : ∀ step ∈ loopSteps c false (s.unread.length + 1) true (.new c.memory) [] s,
      step.Sound c.buffSize := loopSteps_sound hbuf (Nat.zero_le _) fun _ => hpos
  simp only [steps, List.forall_mem_append]
  refine ⟨hloop, ?_⟩
  split
  · next parser data s₁ hhead =>
      obtain ⟨p, d, reads, bs, hmem, hexecute⟩ := mem_loopSteps_of_recvHead true hhead
      have hturn := (hloop _ hmem).1
      have hleft := length_left_le hexecute
      rw [List.length_append] at hleft
      split
      · exact chunksSteps_sound hpos hbuf (Nat.le_trans hleft hturn)
      · simp only [List.forall_mem_cons]
        exact ⟨Nat.le_trans hleft hturn, List.forall_mem_nil _⟩
  · exact List.forall_mem_nil _

/-- **Inside the buffer.**  Whatever the server sends and however it is split, every use of
the buffer and of the numbers in a call of `recvResponse` is in bounds exactly when there is
a buffer and its steps fit. -/
theorem inBounds_iff (hbuf : c.buffSize < 2 ^ 31) (s : SocketStream) :
    (∀ step ∈ c.steps s, ∀ u ∈ step.uses c, u.InBounds c.buffSize) ↔
      0 < c.buffSize ∧ ∀ step ∈ c.steps s, step.Fits c.buffSize := by
  rcases Nat.eq_zero_or_pos c.buffSize with hzero | hpos
  · constructor
    · intro hall
      -- the first `read` gets no room
      have hfirst := hall _ (List.mem_append_left _ List.mem_cons_self) (.read 0 (c.buffSize - 0)
        c.buffSize) (by simp [Step.uses, turnUses])
      simp only [Use.InBounds] at hfirst
      omega
    · rintro ⟨hpos, -⟩
      omega
  · have hiff := forall₂_congr fun step hmem =>
      step_iff hpos hbuf (steps_sound hpos hbuf s step hmem)
    exact hiff.trans ⟨fun h => ⟨hpos, h⟩, And.right⟩

/-- A chunk and the last chunk, behind the header block and in one piece with it. -/
theorem inBounds_one_chunk :
    sampleConnection.buffSize = 64 ∧
      ∀ step ∈ sampleConnection.steps (.ofPieces [sampleHead ++ chunkedBody [sampleChunk] 1]),
        ∀ u ∈ step.uses sampleConnection, u.InBounds sampleConnection.buffSize :=
  ⟨rfl, (inBounds_iff (by decide) _).mpr ⟨by decide, by decide⟩⟩

/-- A line `chunked` below a field without a value; the buffer is as long as the three lines. -/
def staleHead : List UInt8 := bytes "HTTP/1.1 200 OK\r\nTransfer-Encoding:\r\nchunked\r"

/-- The size 7fffffff and 2 is no `int`; ffffffff becomes -1, the length of an `append`; the
17 bytes of a name `Transfer-Encoding` are copied from where `chunked` begins. -/
theorem not_inBounds :
    (∃ step ∈ sampleConnection.steps (.ofPieces [sampleHead ++ bytes "7fffffff\r\n"]),
      ∃ u ∈ step.uses sampleConnection, u = .int 2147483649 ∧
        ¬ u.InBounds sampleConnection.buffSize) ∧
    (∃ step ∈ sampleConnection.steps (.ofPieces [sampleHead ++ bytes "ffffffff\r\nhello"]),
      ∃ u ∈ step.uses sampleConnection, u = .elements 0 18446744073709551615 ∧
        ¬ u.InBounds sampleConnection.buffSize) ∧
    ∃ step ∈ { sampleConnection with buffSize := 45 }.steps (.ofPieces [staleHead]),
      ∃ u ∈ step.uses { sampleConnection with buffSize := 45 }, u = .elements 37 17 ∧
        ¬ u.InBounds 45 := by
  refine ⟨?_, ?_, ?_⟩
  · decide
  · decide
  · decide

end Connection

end Mingo.Http
