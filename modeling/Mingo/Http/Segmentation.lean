import Mingo.Http.Receive

/-!
# Segmentation of a request

Whether a request that arrives in pieces is the one that arrives with its header
block whole depends on where the pieces are cut:

* `applyAll_same_iff` -- the tokens make the same request exactly when each is
  kept (`Token.Kept`) and the header fields left agree with all of them
  (`FieldsKept`);
* `recvRequest_split_iff` -- so do two calls of `recvRequest`, one of which gets
  the header block whole.

The tokens come in the order of the grammar and each but the header fields once,
so no later token can hide that one was cut.
-/

namespace Mingo.Http

open Scanner (Rule events)

/-- What is left of a token when the read result with byte `x` begins at `cut x`
makes its callback do the same.  A path, a query or a fragment has to arrive in
one read result, from its first byte to the byte that ends it; of the method and
of the version the part in the last read result has to be read like the whole. -/
def Token.Kept (head : List UInt8) (cut : Nat → Nat) : Token → Prop
  | .method start stop =>
      charsToHttpMethod (slice head start stop) ≠ .invalidMethod ∧
        charsToHttpMethod (slice head (max start (cut stop)) stop) =
          charsToHttpMethod (slice head start stop)
  | .path start stop => cut stop ≤ start
  | .query start stop => cut stop ≤ start
  | .fragment start stop => cut stop ≤ start
  | .version start stop =>
      versionOf (slice head start stop) ≠ none ∧
        versionOf (slice head (max start (cut stop)) stop) = versionOf (slice head start stop)
  | .field .. => True

instance Token.decidableKept (head : List UInt8) (cut : Nat → Nat) :
    ∀ t : Token, Decidable (t.Kept head cut)
  | .method .. => inferInstanceAs (Decidable (_ ∧ _))
  | .path .. => inferInstanceAs (Decidable (_ ≤ _))
  | .query .. => inferInstanceAs (Decidable (_ ≤ _))
  | .fragment .. => inferInstanceAs (Decidable (_ ≤ _))
  | .version .. => inferInstanceAs (Decidable (_ ∧ _))
  | .field .. => isTrue trivial

/-- What is left of the header fields: the name from the start of the read result
that ends the value, and nothing when the name ended before. -/
def fields (head : List UInt8) (cut : Nat → Nat) (ts : List Token) :
    List (List UInt8 × List UInt8) :=
  ts.filterMap fun t =>
    match t with
    | .field start colon valueStart stop =>
        if slice head (max start (cut stop)) colon = [] then none
        else some (slice head (max start (cut stop)) colon,
          slice head (max valueStart (cut stop)) stop)
    | _ => none

/-- No cut at all. -/
def whole : Nat → Nat := fun _ => 0

/-- The fields left give every name the first spelling and the last value that all
fields give it. -/
def FieldsKept (head : List UInt8) (cut : Nat → Nat) (ts : List Token) : Prop :=
  ∀ name,
    OrderedMap.firstLast (OrderedMap.assignments caseFold (fields head cut ts) name) =
      OrderedMap.firstLast (OrderedMap.assignments caseFold (fields head whole ts) name)

/-- The start of the read result with byte `x`, as a function of `x`. -/
structure Cuts (cut : Nat → Nat) : Prop where
  le : ∀ x, cut x ≤ x
  mono : ∀ x y, x ≤ y → cut x ≤ cut y
  same : ∀ x y, x ≤ y → cut y ≤ x → cut x = cut y

theorem whole_cuts : Cuts whole :=
  ⟨fun _ => Nat.zero_le _, fun _ _ _ => Nat.le_refl 0, fun _ _ _ _ => rfl⟩

theorem readStart_cuts (pieces : List (List UInt8)) : Cuts (readStart pieces) := by
  induction pieces with
  | nil => exact whole_cuts
  | cons piece pieces ih =>
      refine ⟨fun x => ?_, fun x y hxy => ?_, fun x y hxy hle => ?_⟩
      · simp only [readStart]
        split
        · exact Nat.zero_le x
        · have := ih.le (x - piece.length)
          omega
      · simp only [readStart]
        split
        · exact Nat.zero_le _
        · rw [if_neg (by omega)]
          have := ih.mono (x - piece.length) (y - piece.length) (by omega)
          omega
      · simp only [readStart] at hle ⊢
        by_cases hy : y < piece.length
        · rw [if_pos hy, if_pos (by omega)]
        · rw [if_neg hy] at hle ⊢
          rw [if_neg (by omega)]
          have := ih.same (x - piece.length) (y - piece.length) (by omega) (by omega)
          omega

/-- A token lies in the first `n` bytes. -/
def Token.InHead (n : Nat) : Token → Prop
  | .method start stop => start ≤ stop ∧ stop < n
  | .path start stop => start ≤ stop ∧ stop < n
  | .query start stop => start ≤ stop ∧ stop < n
  | .fragment start stop => start ≤ stop ∧ stop < n
  | .version start stop => start ≤ stop ∧ stop < n
  | .field _ colon _ stop => colon ≤ stop ∧ stop < n

variable {head body : List UInt8} {cut cut' : Nat → Nat} {ts : List Token} {t : Token}
  {req req' : HttpRequest}

theorem inHead_of_events {m : Marks} {n p : Nat} {es : List (Nat × RequestAction)}
    (hsorted : es.Pairwise fun e e' => e.1 ≤ e'.1) (hp : ∀ e ∈ es, p ≤ e.1 ∧ e.1 < n)
    (hm : m.Within p) : ∀ t ∈ m.tokens es, t.InHead n := by
  induction es generalizing m p with
  | nil => simp [Marks.tokens]
  | cons e es ih =>
      obtain ⟨hle, hlt⟩ := hp e (by simp)
      obtain ⟨hfirst, hrest⟩ := List.pairwise_cons.mp hsorted
      have hm' := hm.mono hle
      intro t ht
      rcases List.mem_append.mp ht with ht | ht
      · have hmark := hm'.mark
        have hname := hm'.nameEnd
        have hquery := hm'.queryStart
        obtain ⟨p', a⟩ := e
        cases a <;> simp only [Marks.completed, Option.toList_none, Option.toList_some,
          List.mem_singleton, List.not_mem_nil] at ht <;> subst ht <;>
          exact ⟨by assumption, hlt⟩
      · exact ih hrest (fun e' he' => ⟨hfirst e' he', (hp e' (by simp [he'])).2⟩)
          (hm'.after (Nat.le_refl _) e.2) t ht

theorem inHead_of_headTokens {uriRelaxed : Bool} (h : headTokens uriRelaxed head = some ts) :
    ∀ t ∈ ts, t.InHead head.length := by
  obtain ⟨rs, hwalk, _, rfl⟩ := headTokens_eq h
  refine inHead_of_events (Scanner.events_sorted 0 rs) (fun e he => ?_)
    ⟨Nat.le_refl 0, Nat.le_refl 0, Nat.le_refl 0, Nat.le_refl 0⟩
  have := Scanner.events_bounds he
  rw [Scanner.length_of_walk hwalk] at this
  omega

theorem slice_append {start stop : Nat} (h : stop ≤ head.length) (body : List UInt8) :
    slice (head ++ body) start stop = slice head start stop := by
  by_cases hle : start ≤ stop
  · rw [slice, slice, List.drop_append_of_le_length (by omega),
      List.take_append_of_le_length (by rw [List.length_drop]; omega)]
  · have hzero : stop - start = 0 := by omega
    simp [slice, hzero]

theorem length_slice {start stop : Nat} (h : stop ≤ head.length) :
    (slice head start stop).length = stop - start := by
  rw [slice, List.length_take, List.length_drop]
  omega

/-- Only the header block and the cuts in it matter to its tokens. -/
theorem Token.apply_congr (body : List UInt8) (h : t.InHead head.length)
    (hcut : ∀ x < head.length, cut x = cut' x)
    (req : HttpRequest) : t.apply (head ++ body) cut req = t.apply head cut' req := by
  cases t with
  | field start colon valueStart stop =>
      obtain ⟨hcolon, hstop⟩ := h
      simp only [Token.apply, hcut stop hstop, slice_append (Nat.le_of_lt hstop),
        slice_append (hcolon.trans (Nat.le_of_lt hstop))]
  | query start stop =>
      obtain ⟨hstart, hstop⟩ := h
      simp only [Token.apply, hcut stop hstop, hcut start (by omega),
        slice_append (Nat.le_of_lt hstop)]
  | _ =>
      obtain ⟨_, hstop⟩ := h
      simp only [Token.apply, hcut _ hstop, slice_append (Nat.le_of_lt hstop)]

theorem applyAll_congr (body : List UInt8) (h : ∀ t ∈ ts, t.InHead head.length)
    (hcut : ∀ x < head.length, cut x = cut' x) (req : HttpRequest) :
    applyAll (head ++ body) cut ts req = applyAll head cut' ts req := by
  induction ts generalizing req with
  | nil => rfl
  | cons t ts ih =>
      rw [applyAll, applyAll, t.apply_congr body (h t (by simp)) hcut]
      exact congrArg _ (funext fun req' => ih (fun t' ht' => h t' (by simp [ht'])) req')

/-! ### What the tokens make -/

/-- The member of the request that the tokens of rank `r` set, below that of the
header fields. -/
def member (req : HttpRequest) : Nat → HttpMethod × Nat × List UInt8
  | 0 => (req.method, 0, [])
  | 1 => (.get, 0, req.path)
  | 2 => (.get, 0, req.query)
  | 3 => (.get, 0, req.fragment)
  | 4 => (.get, req.version, [])
  | _ => (.get, 0, [])

/-- A token leaves the members of other ranks. -/
theorem Token.apply_member (h : t.apply head cut req = some req') {r : Nat} (hr : t.rank ≠ r) :
    member req' r = member req r := by
  cases t with
  | method start stop =>
      simp only [Token.apply] at h
      split at h
      · cases h
      · cases h
        rcases r with _ | _ | _ | _ | _ | r <;> first | rfl | exact absurd rfl hr
  | path start stop =>
      cases h
      rcases r with _ | _ | _ | _ | _ | r <;> first | rfl | exact absurd rfl hr
  | query start stop =>
      simp only [Token.apply] at h
      split at h
      · cases h
        rcases r with _ | _ | _ | _ | _ | r <;> first | rfl | exact absurd rfl hr
      · cases h
  | fragment start stop =>
      cases h
      rcases r with _ | _ | _ | _ | _ | r <;> first | rfl | exact absurd rfl hr
  | version start stop =>
      obtain ⟨v, _, rfl⟩ := Option.map_eq_some_iff.mp h
      rcases r with _ | _ | _ | _ | _ | r <;> first | rfl | exact absurd rfl hr
  | field start colon valueStart stop =>
      simp only [Token.apply] at h
      split at h
      · cases h
        rfl
      · cases h
        rcases r with _ | _ | _ | _ | _ | r <;> rfl

theorem applyAll_member (h : applyAll head cut ts req = some req') {r : Nat}
    (hr : ∀ t ∈ ts, t.rank ≠ r) : member req' r = member req r := by
  induction ts generalizing req with
  | nil =>
      cases h
      rfl
  | cons t ts ih =>
      obtain ⟨mid, hmid, hrest⟩ := Option.bind_eq_some_iff.mp h
      exact (ih hrest fun t' ht' => hr t' (by simp [ht'])).trans
        (t.apply_member hmid (hr t (by simp)))

/-- The header fields left make the header map. -/
theorem applyAll_headers (h : applyAll head cut ts req = some req') :
    req'.headers =
      (fields head cut ts).foldl (fun m f => OrderedMap.assign caseFold m f.1 f.2) req.headers := by
  induction ts generalizing req with
  | nil =>
      cases h
      rfl
  | cons t ts ih =>
      obtain ⟨mid, hmid, hrest⟩ := Option.bind_eq_some_iff.mp h
      rw [ih hrest]
      cases t with
      | method start stop =>
          simp only [Token.apply] at hmid
          split at hmid
          · cases hmid
          · cases hmid
            rfl
      | path start stop =>
          cases hmid
          rfl
      | query start stop =>
          simp only [Token.apply] at hmid
          split at hmid
          · cases hmid
            rfl
          · cases hmid
      | fragment start stop =>
          cases hmid
          rfl
      | version start stop =>
          obtain ⟨v, _, rfl⟩ := Option.map_eq_some_iff.mp hmid
          rfl
      | field start colon valueStart stop =>
          simp only [Token.apply] at hmid
          split at hmid
          · next hnil =>
              cases hmid
              simp [fields, hnil]
          · next hne =>
              cases hmid
              simp [fields, hne, HttpRequest.setHeader, MapType.assign]

/-- A token cut short is shorter. -/
theorem le_of_slice_eq {start stop : Nat} (hcuts : Cuts cut) (hle : start ≤ stop)
    (hstop : stop < head.length)
    (h : slice head (max start (cut stop)) stop = slice head start stop) : cut stop ≤ start := by
  have hlen := congrArg List.length h
  rw [length_slice (Nat.le_of_lt hstop), length_slice (Nat.le_of_lt hstop)] at hlen
  have := hcuts.le stop
  omega

/-- When a token and its rest set their member to the same value, the token is
kept. -/
theorem Token.kept_of_member (hcuts : Cuts cut) (hin : t.InHead head.length)
    (hrank : t.rank ≠ 5) {a a' b b' : HttpRequest} (h : t.apply head cut a = some b)
    (h' : t.apply head whole a' = some b') (hsame : member b t.rank = member b' t.rank) :
    t.Kept head cut := by
  cases t with
  | method start stop =>
      simp only [Token.apply, whole, Nat.max_zero] at h h'
      split at h
      · cases h
      · cases h
        split at h'
        · cases h'
        · next hvalid =>
            cases h'
            exact ⟨hvalid, (Prod.mk.inj hsame).1⟩
  | path start stop =>
      cases h
      cases h'
      simp only [member, whole, Nat.max_zero, Token.rank, Prod.mk.injEq, true_and] at hsame
      exact le_of_slice_eq hcuts hin.1 hin.2 hsame
  | query start stop =>
      simp only [Token.apply, whole, Nat.sub_zero, Nat.zero_add] at h h'
      split at h
      · next hle =>
          cases h
          rw [if_pos hin.1] at h'
          cases h'
          simp only [member, Token.rank, Prod.mk.injEq, true_and] at hsame
          have hlen := congrArg List.length hsame
          rw [length_slice (Nat.le_of_lt hin.2), length_slice (Nat.le_of_lt hin.2)] at hlen
          have hstart := hcuts.le start
          have hmono := hcuts.mono start stop hin.1
          have hstop := hcuts.le stop
          have horder := hin.1
          simp only [Token.Kept]
          omega
      · cases h
  | fragment start stop =>
      cases h
      cases h'
      simp only [member, whole, Nat.max_zero, Token.rank, Prod.mk.injEq, true_and] at hsame
      exact le_of_slice_eq hcuts hin.1 hin.2 hsame
  | version start stop =>
      obtain ⟨v, hv, rfl⟩ := Option.map_eq_some_iff.mp h
      obtain ⟨v', hv', rfl⟩ := Option.map_eq_some_iff.mp h'
      simp only [whole, Nat.max_zero] at hv'
      simp only [member, Token.rank, Prod.mk.injEq, true_and, and_true] at hsame
      exact ⟨by simp [hv'], by rw [hv, hv', hsame]⟩
  | field start colon valueStart stop => exact absurd rfl hrank

/-- A kept token that is no header field does what the whole token does. -/
theorem Token.apply_of_kept (hcuts : Cuts cut) (hin : t.InHead head.length)
    (hrank : t.rank ≠ 5) (h : t.Kept head cut) (req : HttpRequest) :
    t.apply head cut req = t.apply head whole req ∧ (t.apply head whole req).isSome := by
  cases t with
  | method start stop =>
      obtain ⟨hvalid, hsame⟩ := h
      simp only [Token.apply, whole, Nat.max_zero, hsame, true_and, Option.isSome_some]
  | path start stop => simp [Token.apply, whole, Nat.max_eq_left h]
  | query start stop =>
      have hsame := hcuts.same start stop hin.1 h
      have hstart : cut stop + (start - cut start) = start := by
        have := hcuts.le start
        omega
      have hle : start - cut start ≤ stop - cut stop := by
        have := hin.1
        omega
      simp only [Token.apply, whole, hstart, hle, hin.1, if_true, Nat.sub_zero, Nat.zero_add,
        Option.isSome_some, and_self]
  | fragment start stop => simp [Token.apply, whole, Nat.max_eq_left h]
  | version start stop =>
      obtain ⟨hsome, hsame⟩ := h
      simp only [Token.apply, whole, Nat.max_zero, hsame, true_and]
      cases hv : versionOf (slice head start stop) with
      | none => exact absurd hv hsome
      | some v => rfl
  | field start colon valueStart stop => exact absurd rfl hrank

/-- The member a token sets does not depend on the request so far. -/
theorem Token.apply_member_self {a a' b b' : HttpRequest} (h : t.apply head cut a = some b)
    (h' : t.apply head cut a' = some b') : member b t.rank = member b' t.rank := by
  cases t with
  | method start stop =>
      simp only [Token.apply] at h h'
      split at h
      · cases h
      · split at h'
        · cases h'
        · cases h
          cases h'
          rfl
  | path start stop =>
      cases h
      cases h'
      rfl
  | query start stop =>
      simp only [Token.apply] at h h'
      split at h
      · next hle =>
          rw [if_pos hle] at h'
          cases h
          cases h'
          rfl
      · cases h
  | fragment start stop =>
      cases h
      cases h'
      rfl
  | version start stop =>
      obtain ⟨v, hv, rfl⟩ := Option.map_eq_some_iff.mp h
      obtain ⟨v', hv', rfl⟩ := Option.map_eq_some_iff.mp h'
      rw [hv] at hv'
      cases hv'
      rfl
  | field start colon valueStart stop => rfl

theorem HttpRequest.eq_of_members {a b : HttpRequest} (h : ∀ r, member a r = member b r)
    (hbody : a.body = b.body) (hclose : a.close = b.close) (hheaders : a.headers = b.headers) :
    a = b := by
  have h0 := h 0
  have h1 := h 1
  have h2 := h 2
  have h3 := h 3
  have h4 := h 4
  obtain ⟨method, version, close, path, query, fragment, body, headers⟩ := a
  simp_all [member]

/-- A token that is kept is taken by its callback. -/
theorem Token.apply_kept_member (hcuts : Cuts cut) (hin : t.InHead head.length)
    (h : t.Kept head cut) {a a' : HttpRequest} (hsame : ∀ r, member a r = member a' r) :
    ∃ b b', t.apply head whole a = some b ∧ t.apply head cut a' = some b' ∧
      ∀ r, member b r = member b' r := by
  by_cases hrank : t.rank = 5
  · cases t with
    | field start colon valueStart stop =>
        obtain ⟨b, hb⟩ : ∃ b, (Token.field start colon valueStart stop).apply head whole a =
            some b := by
          simp only [Token.apply]
          split
          · exact ⟨a, rfl⟩
          · exact ⟨_, rfl⟩
        obtain ⟨b', hb'⟩ : ∃ b', (Token.field start colon valueStart stop).apply head cut a' =
            some b' := by
          simp only [Token.apply]
          split
          · exact ⟨a', rfl⟩
          · exact ⟨_, rfl⟩
        refine ⟨b, b', hb, hb', fun r => ?_⟩
        by_cases hr : r = 5
        · subst hr
          rfl
        · rw [Token.apply_member hb (Ne.symm hr), Token.apply_member hb' (Ne.symm hr), hsame r]
    | _ => cases hrank
  · obtain ⟨heq, hsome⟩ := t.apply_of_kept hcuts hin hrank h a
    obtain ⟨heq', hsome'⟩ := t.apply_of_kept hcuts hin hrank h a'
    obtain ⟨b, hb⟩ := Option.isSome_iff_exists.mp hsome
    obtain ⟨b', hb'⟩ := Option.isSome_iff_exists.mp hsome'
    refine ⟨b, b', hb, heq'.trans hb', fun r => ?_⟩
    by_cases hr : t.rank = r
    · subst hr
      exact t.apply_member_self hb hb'
    · rw [t.apply_member hb hr, t.apply_member hb' hr, hsame r]

/-- **The tokens make the same request, cut and whole, exactly when they are
kept.** -/
theorem applyAll_same_iff {n : Nat} (hcuts : Cuts cut) (hranked : RankedFrom n ts)
    (hin : ∀ t ∈ ts, t.InHead head.length) :
    (∃ data, applyAll head whole ts .new = some data ∧ applyAll head cut ts .new = some data) ↔
      (∀ t ∈ ts, t.Kept head cut) ∧ FieldsKept head cut ts := by
  constructor
  · rintro ⟨data, hwhole, hcut⟩
    constructor
    · intro t ht
      by_cases hrank : t.rank = 5
      · cases t with
        | field start colon valueStart stop => trivial
        | _ => cases hrank
      · obtain ⟨pre, post, rfl⟩ := List.append_of_mem ht
        rw [applyAll_append] at hwhole hcut
        obtain ⟨a, _, hwhole⟩ := Option.bind_eq_some_iff.mp hwhole
        obtain ⟨a', _, hcut⟩ := Option.bind_eq_some_iff.mp hcut
        obtain ⟨b, hb, hwhole⟩ := Option.bind_eq_some_iff.mp hwhole
        obtain ⟨b', hb', hcut⟩ := Option.bind_eq_some_iff.mp hcut
        have honce := hranked.once hrank
        refine t.kept_of_member hcuts (hin t ht) hrank hb' hb ?_
        rw [← applyAll_member hwhole honce, ← applyAll_member hcut honce]
    · have hmap : OrderedMap.ofList caseFold (fields head cut ts) =
          OrderedMap.ofList caseFold (fields head whole ts) :=
        (applyAll_headers hcut).symm.trans (applyAll_headers hwhole)
      exact OrderedMap.ofList_eq_iff.mp hmap
  · rintro ⟨hkept, hfields⟩
    have hrun : ∀ (ts : List Token) (a a' : HttpRequest), (∀ t ∈ ts, t.InHead head.length) →
        (∀ t ∈ ts, t.Kept head cut) → (∀ r, member a r = member a' r) →
        ∃ b b', applyAll head whole ts a = some b ∧ applyAll head cut ts a' = some b' ∧
          ∀ r, member b r = member b' r := by
      intro ts
      induction ts with
      | nil => exact fun a a' _ _ hsame => ⟨a, a', rfl, rfl, hsame⟩
      | cons t ts ih =>
          intro a a' hin hkept hsame
          obtain ⟨b, b', hb, hb', hsame'⟩ :=
            t.apply_kept_member hcuts (hin t (by simp)) (hkept t (by simp)) hsame
          obtain ⟨d, d', hd, hd', hmembers⟩ := ih b b' (fun t' ht' => hin t' (by simp [ht']))
            (fun t' ht' => hkept t' (by simp [ht'])) hsame'
          exact ⟨d, d', by rw [applyAll, hb, Option.bind_some, hd],
            by rw [applyAll, hb', Option.bind_some, hd'], hmembers⟩
    obtain ⟨b, b', hb, hb', hsame⟩ := hrun ts .new .new hin hkept fun r => rfl
    have hheaders : b.headers = b'.headers :=
      (applyAll_headers hb).trans
        ((OrderedMap.ofList_eq_iff.mpr hfields).symm.trans (applyAll_headers hb').symm)
    have heq : b = b' := HttpRequest.eq_of_members hsame
      ((applyAll_body hb).1.trans (applyAll_body hb').1.symm)
      ((applyAll_body hb).2.trans (applyAll_body hb').2.symm) hheaders
    exact ⟨b, hb, heq ▸ hb'⟩

/-! ### Two ways to receive a request -/

/-- Behind a header block that left `offset` bytes in the buffer, `recvRequest`
goes on to a body of `n` bytes: `offset` is not taken for the size of the buffer,
and the bytes missing do not overflow the result of `readFixSize`. -/
def Session.GoesOn (c : Session) (offset n : Nat) : Prop :=
  bufferFull c.buffSize offset = false ∧ BodyFits offset n

instance (c : Session) (offset n : Nat) : Decidable (c.GoesOn offset n) :=
  inferInstanceAs (Decidable (_ ∧ _))

theorem init_members (a : HttpRequest) (b : List UInt8) :
    (∀ r, member (a.setBody b).init r = member a r) ∧ (a.setBody b).init.headers = a.headers := by
  obtain ⟨v, hv⟩ := (a.setBody b).init_eq
  rw [hv]
  exact ⟨fun r => by rcases r with _ | _ | _ | _ | _ | r <;> rfl, rfl⟩

variable {c : Session} {pieces rest : List (List UInt8)}

/-- **The first read result** holds the header block and `more`. -/
theorem recvHead_first {more : List UInt8} {data : HttpRequest} (turns : Nat)
    (pieces : List (List UInt8)) (hts : headTokens c.uriRelaxed head = some ts)
    (happly : applyAll head whole ts .new = some data)
    (hsize : (head ++ more).length ≤ c.buffSize) (hmax : (head ++ more).length ≤ maxRead) :
    if bufferFull c.buffSize more.length then
      (c.recvHead (turns + 1) .new [] (.ofPieces ((head ++ more) :: pieces))).1 = .null
    else ∃ s', c.recvHead (turns + 1) .new [] (.ofPieces ((head ++ more) :: pieces)) =
      (.message (s', more), .ofPieces pieces) ∧ s'.data = data := by
  obtain ⟨rs, hwalk, hfinal, rfl⟩ := headTokens_eq hts
  have hw : Window (head ++ more) (head ++ more) whole 0 :=
    ⟨by rw [List.drop_zero, List.take_length], fun _ _ => rfl⟩
  have happly' : applyAll (head ++ more) whole (Marks.zero.tokens (events 0 rs))
      HttpRequestParser.new.data = some data := by
    rw [applyAll_congr _ (inHead_of_headTokens hts) fun _ _ => rfl]
    exact happly
  have hconn : (SocketStream.ofPieces ((head ++ more) :: pieces)).connected = true := rfl
  have hlast := recvHead_last turns hw (between_new whole) hwalk hfinal
    (named_of_walk hwalk fun _ => rfl) hconn rfl hsize hmax
  simp only [happly'] at hlast
  exact hlast

/-- When the header block comes whole, the request is what its tokens make. -/
theorem recvRequest_at_once {req : HttpRequest} (hts : headTokens c.uriRelaxed head = some ts)
    (hlen : body.length =
      bodyLength c.lexicalCast (OrderedMap.ofList caseFold (fields head whole ts)))
    (hone : rest.flatten = body) (hread : Readable c.buffSize head.length (head :: rest)) :
    (c.recvRequest (.ofPieces (head :: rest))).1 = .message req ↔
      ∃ data, applyAll head whole ts .new = some data ∧ c.GoesOn 0 body.length ∧
        req = (data.setBody body).init := by
  have hover : overshoot (head :: rest) head.length = 0 := by simp [overshoot]
  have hcut : ∀ x < head.length, readStart (head :: rest) x = whole x := by
    intro x hx
    simp [readStart, hx, whole]
  have hres := recvRequest_pieces hts (.inr ⟨head, rest, rfl, Nat.le_refl _⟩)
    (List.flatten_cons.trans (congrArg _ hone)) hread
  rw [applyAll_congr body (inHead_of_headTokens hts) hcut, hover] at hres
  cases happly : applyAll head whole ts .new with
  | none =>
      simp only [happly] at hres
      simp [hres _]
  | some data =>
      simp only [happly] at hres
      by_cases hfull : bufferFull c.buffSize 0 = true
      · rw [if_pos hfull] at hres
        simp [hres _, Session.GoesOn, hfull]
      · rw [if_neg hfull] at hres
        have hheaders : data.headers = OrderedMap.ofList caseFold (fields head whole ts) :=
          applyAll_headers happly
        rw [hres.2 (hheaders ▸ hlen)]
        by_cases hfits : BodyFits 0 body.length
        · simp [Session.GoesOn, hfull, hfits, eq_comm]
        · simp [Session.GoesOn, hfits]

/-- In pieces it is the same request, if the tokens make the same and the call
goes on to the body. -/
theorem recvRequest_eq_iff {data : HttpRequest} (hts : headTokens c.uriRelaxed head = some ts)
    (hfull : bufferFull c.buffSize 0 = false) (hwhole : applyAll head whole ts .new = some data)
    (hlen : body.length =
      bodyLength c.lexicalCast (OrderedMap.ofList caseFold (fields head whole ts)))
    (hbytes : pieces.flatten = head ++ body) (hread : Readable c.buffSize head.length pieces) :
    (c.recvRequest (.ofPieces pieces)).1 = .message (data.setBody body).init ↔
      applyAll head (readStart pieces) ts .new = some data ∧
        c.GoesOn (overshoot pieces head.length) body.length := by
  have hheaders : data.headers = OrderedMap.ofList caseFold (fields head whole ts) :=
    applyAll_headers hwhole
  rw [← hheaders] at hlen
  have hres := recvRequest_pieces hts (.inl hfull) hbytes hread
  rw [applyAll_congr body (inHead_of_headTokens hts) (fun x _ => rfl)] at hres
  cases happly : applyAll head (readStart pieces) ts .new with
  | none =>
      simp only [happly] at hres
      simp [hres _]
  | some data' =>
      simp only [happly] at hres
      by_cases hover : bufferFull c.buffSize (overshoot pieces head.length) = true
      · rw [if_pos hover] at hres
        simp [hres _, Session.GoesOn, hover]
      · rw [if_neg hover] at hres
        obtain ⟨hany, hbody⟩ := hres
        constructor
        · intro hmessage
          obtain ⟨b, hb⟩ := hany _ hmessage
          have hdata : data' = data := by
            refine HttpRequest.eq_of_members (fun r => ?_)
              ((applyAll_body happly).1.trans (applyAll_body hwhole).1.symm)
              ((applyAll_body happly).2.trans (applyAll_body hwhole).2.symm) ?_
            · rw [← (init_members data' b).1 r, ← hb, (init_members data body).1 r]
            · rw [← (init_members data' b).2, ← hb, (init_members data body).2]
          subst hdata
          refine ⟨rfl, by simpa using hover, ?_⟩
          rw [hbody hlen] at hmessage
          by_contra hfits
          rw [if_neg hfits] at hmessage
          cases hmessage
        · rintro ⟨hdata, _, hfits⟩
          cases hdata
          rw [hbody hlen, if_pos hfits]

/-- **Segmentation.**  Take a request, its header block with the tokens `ts` and a
body of the length its header fields announce, and two ways in which it arrives:
with the header block as one read result, and in any read results `pieces`.  Both
calls of `recvRequest` return the same request exactly when every token is kept
by the cuts between the pieces, the header fields left say what all of them say,
and both calls go on to the body. -/
theorem recvRequest_split_iff (hts : headTokens c.uriRelaxed head = some ts)
    (hlen : body.length =
      bodyLength c.lexicalCast (OrderedMap.ofList caseFold (fields head whole ts)))
    (hone : rest.flatten = body) (hreadOne : Readable c.buffSize head.length (head :: rest))
    (hbytes : pieces.flatten = head ++ body) (hread : Readable c.buffSize head.length pieces) :
    (∃ req, (c.recvRequest (.ofPieces (head :: rest))).1 = .message req ∧
        (c.recvRequest (.ofPieces pieces)).1 = .message req) ↔
      (∀ t ∈ ts, t.Kept head (readStart pieces)) ∧ FieldsKept head (readStart pieces) ts ∧
        c.GoesOn 0 body.length ∧ c.GoesOn (overshoot pieces head.length) body.length := by
  obtain ⟨rs, hwalk, _, hrs⟩ := headTokens_eq hts
  have hranked : RankedFrom (RequestTable.stage 1) ts := hrs ▸ ranked_of_walk hwalk
  have hkept := applyAll_same_iff (readStart_cuts pieces) hranked (inHead_of_headTokens hts)
  constructor
  · rintro ⟨req, hreq, hreq'⟩
    obtain ⟨data, hwhole, hgoes, rfl⟩ := (recvRequest_at_once hts hlen hone hreadOne).mp hreq
    obtain ⟨hcut, hgoes'⟩ :=
      (recvRequest_eq_iff hts hgoes.1 hwhole hlen hbytes hread).mp hreq'
    obtain ⟨htokens, hfields⟩ := hkept.mp ⟨data, hwhole, hcut⟩
    exact ⟨htokens, hfields, hgoes, hgoes'⟩
  · rintro ⟨htokens, hfields, hgoes, hgoes'⟩
    obtain ⟨data, hwhole, hcut⟩ := hkept.mpr ⟨htokens, hfields⟩
    exact ⟨_, (recvRequest_at_once hts hlen hone hreadOne).mpr ⟨data, hwhole, hgoes, rfl⟩,
      (recvRequest_eq_iff hts hgoes.1 hwhole hlen hbytes hread).mpr ⟨hcut, hgoes'⟩⟩

/-- A session with the default buffer; of `lexical_cast` only the number 2. -/
def sampleSession : Session :=
  ⟨false, fun v => if v = bytes "2" then some 2 else none, 4096⟩

/-- Cuts between the lines of the header block and in the body do no harm. -/
theorem recvRequest_split_between_lines :
    ∃ req,
      (sampleSession.recvRequest (.ofPieces
        [bytes "POST /a?b HTTP/1.1\r\nContent-Length: 2\r\n\r\n", bytes "hi"])).1 =
          .message req ∧
      (sampleSession.recvRequest (.ofPieces
        [bytes "POST /a?b HTTP/1.1\r\n", bytes "Content-Length: 2\r\n\r\nh", bytes "i"])).1 =
          .message req := by
  have hts : headTokens sampleSession.uriRelaxed
      (bytes "POST /a?b HTTP/1.1\r\nContent-Length: 2\r\n\r\n") =
        some [.method 0 4, .path 5 7, .query 8 9, .version 10 18, .field 20 34 36 37] := by
    decide
  have hone : [bytes "hi"].flatten = bytes "hi" := by decide
  refine (recvRequest_split_iff hts (by decide) hone (by decide)
    (by decide) (by decide)).mpr
      ⟨by decide, fun name => rfl, by decide, by decide⟩

/-- **A cut in the method**: the header block that is a request in one read result
is refused in two. -/
theorem not_split_in_method :
    headTokens sampleSession.uriRelaxed (bytes "GET / HTTP/1.1\r\n\r\n") ≠ none ∧
      (sampleSession.recvRequest (.ofPieces [bytes "GET / HTTP/1.1\r\n\r\n"])).1 =
        .message .new ∧
      (sampleSession.recvRequest (.ofPieces
        [bytes "GE", bytes "T / HTTP/1.1\r\n\r\n"])).1 = .null := by
  decide

end Mingo.Http
