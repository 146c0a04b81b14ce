import Mingo.Http.Dump
import Mingo.Http.Segmentation

/-!
# The phrases of a request

The automaton of the request parser reads a header block phrase by phrase: the
method, the parts of the URI, the version, one header field after the other.
`Scans` says what it does on some bytes in the middle of a header block, in terms
of the tokens they complete; `Phrase` forgets the marks, which no phrase needs
from the one before.

* `phrase_method`, `phrase_path`, `phrase_query`, `phrase_fragment`,
  `phrase_version`, `phrase_field` -- each phrase that `dump` writes sets its
  member of the request and nothing else;
* `phrase_fields` -- the header fields, by induction on their list.
-/

namespace Mingo.Http

open Scanner (Rule events inClass xdigit on byte)
open HttpRequestParser (scanner)
open RequestTable (pathChar pchar queryChar content)

/-- The automaton in the middle of a header block: its state, the marks and the
request so far. -/
structure Point where
  state : Nat
  marks : Marks
  data : HttpRequest

/-- Behind `pre` the automaton reads `bs` from `x` to `y`: it takes a rule on every
byte, none of them ends the scan, and the callbacks accept their tokens. -/
def Scans (flag : Bool) (pre bs : List UInt8) (x y : Point) : Prop :=
  ∃ rs, (scanner flag).follow x.state bs = some rs ∧ Scanner.lastState x.state rs = y.state ∧
    (∀ r ∈ rs, (scanner flag).ends r = false) ∧
    x.marks.afterAll (events pre.length rs) = y.marks ∧
    ∀ post, applyAll (pre ++ bs ++ post) whole (x.marks.tokens (events pre.length rs)) x.data =
      some y.data

/-- Wherever they stand, the bytes `bs` lead from state `q` to `q'` and turn the
request into what `f` makes of it. -/
def Phrase (flag : Bool) (bs : List UInt8) (q : Nat) (f : HttpRequest → HttpRequest) (q' : Nat) :
    Prop :=
  ∀ pre m req, ∃ m', Scans flag pre bs ⟨q, m, req⟩ ⟨q', m', f req⟩

variable {flag : Bool} {pre bs bs' : List UInt8} {x y z : Point} {q q' q'' : Nat} {m m' : Marks}
  {req req' : HttpRequest} {r : Rule RequestAction} {b : UInt8}

theorem Scans.append (h : Scans flag pre bs x y) (h' : Scans flag (pre ++ bs) bs' y z) :
    Scans flag pre (bs ++ bs') x z := by
  obtain ⟨rs, hfollow, hlast, hends, hmarks, hdata⟩ := h
  obtain ⟨rs', hfollow', hlast', hends', hmarks', hdata'⟩ := h'
  have hpos : pre.length + rs.length = (pre ++ bs).length := by
    rw [Scanner.length_of_follow hfollow, List.length_append]
  refine ⟨rs ++ rs', ?_, ?_, ?_, ?_, ?_⟩
  · rw [Scanner.follow_append_eq hfollow, hlast, hfollow']
    rfl
  · rw [Scanner.lastState_append, hlast, hlast']
  · intro r hr
    rcases List.mem_append.mp hr with hr | hr
    · exact hends r hr
    · exact hends' r hr
  · rw [Scanner.events_append, Marks.afterAll_append, hpos, hmarks, hmarks']
  · intro post
    have hfirst := hdata (bs' ++ post)
    have hinput : pre ++ (bs ++ bs') ++ post = pre ++ bs ++ (bs' ++ post) := by
      simp only [List.append_assoc]
    rw [Scanner.events_append, Marks.tokens_append, applyAll_append, hpos, hmarks, hinput, hfirst,
      Option.bind_some, ← List.append_assoc]
    exact hdata' post

theorem Scans.silent (h : (scanner flag).Silent q bs q') (pre : List UInt8) (m : Marks)
    (req : HttpRequest) : Scans flag pre bs ⟨q, m, req⟩ ⟨q', m, req⟩ := by
  obtain ⟨rs, hfollow, hlast, hacts⟩ := h
  have hevents : events pre.length rs = [] := Scanner.events_of_silent hacts pre.length
  refine ⟨rs, hfollow, hlast, fun r hr => ?_, ?_, fun post => ?_⟩
  · rw [Scanner.ends, hacts r hr]
    rfl
  · rw [hevents]
    rfl
  · rw [hevents]
    rfl

/-- A single byte. -/
theorem Scans.byte (hrule : (scanner flag).rule q b = some r) (hends : .done ∉ r.acts)
    (hdata : ∀ post, applyAll (pre ++ b :: post) whole (m.tokens (r.acts.map (pre.length, ·))) req =
      some req') :
    Scans flag pre [b] ⟨q, m, req⟩ ⟨r.next, m.afterAll (r.acts.map (pre.length, ·)), req'⟩ := by
  refine ⟨[r], by simp [Scanner.follow, hrule], rfl, fun r' hr' => ?_, ?_, fun post => ?_⟩
  · obtain rfl := List.mem_singleton.mp hr'
    rw [Scanner.ends, List.any_eq_false]
    intro a ha hdone
    obtain rfl : a = .done := by simpa [scanner] using hdone
    exact hends ha
  · simp [events]
  · simpa [events] using hdata post

/-- A single byte that sets a mark. -/
theorem Scans.mark (a : RequestAction) (hrule : (scanner flag).rule q b = some r)
    (hacts : r.acts = [a]) (hends : a ≠ .done)
    (hnone : ∀ (m : Marks) (p : Nat), m.completed p a = none) (pre : List UInt8) (m : Marks)
    (req : HttpRequest) :
    Scans flag pre [b] ⟨q, m, req⟩ ⟨r.next, m.after pre.length a, req⟩ := by
  have hafter : m.after pre.length a = m.afterAll (r.acts.map (pre.length, ·)) := by
    rw [hacts]
    rfl
  rw [hafter]
  refine Scans.byte hrule ?_ fun post => ?_
  · simpa [hacts] using hends.symm
  · simp [hacts, Marks.tokens, hnone, applyAll]

/-- A single byte that completes a token. -/
theorem Scans.token {t : Token} (hrule : (scanner flag).rule q b = some r) (hends : .done ∉ r.acts)
    (htoken : m.tokens (r.acts.map (pre.length, ·)) = [t])
    (happly : ∀ post, t.apply (pre ++ b :: post) whole req = some req') :
    Scans flag pre [b] ⟨q, m, req⟩ ⟨r.next, m.afterAll (r.acts.map (pre.length, ·)), req'⟩ := by
  refine .byte hrule hends fun post => ?_
  rw [htoken, applyAll, happly post]
  rfl

theorem Phrase.append {f g : HttpRequest → HttpRequest} (h : Phrase flag bs q f q')
    (h' : Phrase flag bs' q' g q'') : Phrase flag (bs ++ bs') q (fun req => g (f req)) q'' := by
  intro pre m req
  obtain ⟨m', hfirst⟩ := h pre m req
  obtain ⟨m'', hsecond⟩ := h' (pre ++ bs) m' (f req)
  exact ⟨m'', hfirst.append hsecond⟩

/-! ### Rules -/

/-- On every byte of the class state `q` has the rule `r`, whatever the flag. -/
def takesAll (q : Nat) (class_ : List (Nat × Nat)) (r : Rule RequestAction) : Bool :=
  (List.range 256).all fun n =>
    !inClass class_ (UInt8.ofNat n) ||
      ((scanner false).rule q (UInt8.ofNat n) == some r &&
        (scanner true).rule q (UInt8.ofNat n) == some r)

theorem rule_of_class (flag : Bool) {class_ : List (Nat × Nat)} (h : takesAll q class_ r = true)
    (hb : inClass class_ b = true) : (scanner flag).rule q b = some r := by
  have hcheck := Scanner.forall_byte (P := fun b => !inClass class_ b ||
    ((scanner false).rule q b == some r && (scanner true).rule q b == some r)) h b
  simp only [hb, Bool.not_true, Bool.false_or, Bool.and_eq_true, beq_iff_eq] at hcheck
  cases flag with
  | false => exact hcheck.1
  | true => exact hcheck.2

theorem rule_of_byte (flag : Bool) (b : UInt8)
    (h : ((scanner false).rule q b == some r && (scanner true).rule q b == some r) = true) :
    (scanner flag).rule q b = some r := by
  simp only [Bool.and_eq_true, beq_iff_eq] at h
  cases flag with
  | false => exact h.1
  | true => exact h.2

/-- The ranges of the row decide, not the 256 bytes. -/
theorem takesAll_of_firstFits {class_ : List (Nat × Nat)}
    (h : Scanner.firstFits r class_ ((scanner false).rules q) = true) :
    takesAll q class_ r = true := by
  have hrule : ∀ flag b, inClass class_ b = true → (scanner flag).rule q b = some r :=
    fun flag b hb => Scanner.find_of_firstFits flag h hb
  rw [takesAll, List.all_eq_true]
  intro n _
  cases hb : inClass class_ (UInt8.ofNat n) with
  | false => rfl
  | true => simp [hrule _ _ hb]

/-! ### Text of the URI grammar -/

/-- State `q` stays on the class, and goes through `q₁` and `q₂` over an escape. -/
structure TextLoop (class_ : List (Nat × Nat)) (q q₁ q₂ : Nat) : Prop where
  char : takesAll q class_ (on class_ [] q) = true
  percent : ∀ flag, (scanner flag).rule q 37 = some (byte 37 [] q₁)
  first : takesAll q₁ xdigit (on xdigit [] q₂) = true
  second : takesAll q₂ xdigit (on xdigit [] q) = true

variable {class_ : List (Nat × Nat)} {q₁ q₂ : Nat}

theorem TextLoop.silent (h : TextLoop class_ q q₁ q₂) (flag : Bool)
    (htext : uriText class_ bs = true) : (scanner flag).Silent q bs q := by
  induction bs using uriText.induct with
  | case1 => exact .nil q
  | case2 a b bs ih =>
      simp only [uriText, Bool.and_eq_true] at htext
      obtain ⟨⟨ha, hb⟩, hrest⟩ := htext
      exact .cons (h.percent flag) rfl <| .cons (rule_of_class flag h.first ha) rfl <|
        .cons (rule_of_class flag h.second hb) rfl (ih hrest)
  | case3 b bs hnot ih =>
      rw [uriText, Bool.and_eq_true] at htext
      · exact .cons (rule_of_class flag h.char htext.1) rfl (ih htext.2)
      · exact hnot

/-- Text that begins in another state: its first byte may have actions there. -/
theorem TextLoop.enter (q₀ : Nat) (acts : List RequestAction) {first : List (Nat × Nat)}
    (h : TextLoop class_ q q₁ q₂) (htext : uriText class_ (b :: bs) = true)
    (hclass : inClass class_ b = true → inClass first b = true)
    (hchar : takesAll q₀ first (on first acts q) = true)
    (hpercent : (scanner flag).rule q₀ 37 = some (byte 37 acts q₁)) :
    ∃ r, (scanner flag).rule q₀ b = some r ∧ r.acts = acts ∧
      (scanner flag).Silent r.next bs q := by
  unfold uriText at htext
  split at htext
  · next heq => cases heq
  · next a c bs' heq =>
      obtain ⟨rfl, rfl⟩ := List.cons.inj heq
      simp only [Bool.and_eq_true] at htext
      obtain ⟨⟨ha, hc⟩, hrest⟩ := htext
      exact ⟨_, hpercent, rfl, .cons (rule_of_class flag h.first ha) rfl <|
        .cons (rule_of_class flag h.second hc) rfl (h.silent flag hrest)⟩
  · next heq =>
      obtain ⟨rfl, rfl⟩ := List.cons.inj heq
      rw [Bool.and_eq_true] at htext
      exact ⟨_, rule_of_class flag hchar (hclass htext.1), rfl, h.silent flag htext.2⟩

theorem loop_path : TextLoop pathChar 26 27 28 :=
  ⟨takesAll_of_firstFits (by decide), fun flag => rule_of_byte flag 37 (by decide),
    takesAll_of_firstFits (by decide), takesAll_of_firstFits (by decide)⟩

theorem loop_query : TextLoop queryChar 30 31 32 :=
  ⟨takesAll_of_firstFits (by decide), fun flag => rule_of_byte flag 37 (by decide),
    takesAll_of_firstFits (by decide), takesAll_of_firstFits (by decide)⟩

theorem loop_fragment : TextLoop queryChar 21 22 23 :=
  ⟨takesAll_of_firstFits (by decide), fun flag => rule_of_byte flag 37 (by decide),
    takesAll_of_firstFits (by decide), takesAll_of_firstFits (by decide)⟩

/-! ### The request line -/

theorem slice_middle (pre mid post : List UInt8) :
    slice (pre ++ mid ++ post) pre.length (pre ++ mid).length = mid := by
  simp [slice]

/-- A token whose first byte sets the mark and which the byte behind it completes. -/
theorem phrase_token (start : RequestAction) {t : Nat → Nat → Token}
    {f : HttpRequest → HttpRequest} {q₀ : Nat} {c : UInt8} {rest : List UInt8}
    {r₀ : Rule RequestAction} (hrule₀ : (scanner flag).rule q₀ c = some r₀)
    (hacts₀ : r₀.acts = [start]) (hstart : start ≠ .done)
    (hnone : ∀ (m : Marks) (p : Nat), m.completed p start = none)
    (hsilent : (scanner flag).Silent r₀.next rest q)
    (hrule : (scanner flag).rule q b = some r) (hends : .done ∉ r.acts)
    (htoken : ∀ (m : Marks) (p p' : Nat), (m.after p start).tokens (r.acts.map (p', ·)) = [t p p'])
    (happly : ∀ pre post req, (t pre.length (pre ++ c :: rest).length).apply
      (pre ++ c :: rest ++ post) whole req = some (f req)) :
    Phrase flag (c :: rest ++ [b]) q₀ f r.next := by
  intro pre m req
  have hfirst := Scans.mark start hrule₀ hacts₀ hstart hnone pre m req
  have hrest := Scans.silent hsilent (pre ++ [c]) (m.after pre.length start) req
  exact ⟨_, (hfirst.append hrest).append (Scans.token hrule hends (htoken m pre.length _)
    fun post => happly pre (b :: post) req)⟩

/-- The automaton reads a method of the table from its first byte to the space. -/
def methodScanned (flag : Bool) : List UInt8 → Bool
  | [] => false
  | c :: rest =>
      (scanner flag).rule 1 c == some (on RequestTable.methodChar [.mark] 2) &&
        ((scanner flag).follow 2 rest).any fun rs =>
          rs.all (·.acts.isEmpty) &&
            (scanner flag).rule (Scanner.lastState 2 rs) 32 == some (byte 32 [.requestMethod] 3)

/-- Each name of the table but one is scanned, and read as its method. -/
theorem methods_scanned : ∀ e ∈ httpMethodMap, charsToHttpMethod (bytes e.2) = e.1 ∧
    (e.1 ≠ .msearch → methodScanned false (bytes e.2) = true ∧
      methodScanned true (bytes e.2) = true) := by
  decide +kernel

theorem mem_httpMethodMap {k : HttpMethod} (h : k ≠ .invalidMethod) :
    (k, httpMethodToString k) ∈ httpMethodMap := by
  cases k with
  | invalidMethod => exact absurd rfl h
  | _ => decide

/-- The method and the space behind it. -/
theorem phrase_method {k : HttpMethod} (hvalid : k ≠ .invalidMethod) (hk : k ≠ .msearch) :
    Phrase flag (bytes (httpMethodToString k) ++ [32]) 1 (fun req => { req with method := k })
      3 := by
  obtain ⟨hread, hscanned⟩ := methods_scanned _ (mem_httpMethodMap hvalid)
  have hflag : methodScanned flag (bytes (httpMethodToString k)) = true := by
    cases flag with
    | false => exact (hscanned hk).1
    | true => exact (hscanned hk).2
  dsimp only at hread
  generalize bytes (httpMethodToString k) = name at hread hflag
  cases name with
  | nil => cases hflag
  | cons c rest =>
      simp only [methodScanned, Bool.and_eq_true, beq_iff_eq, Option.any_eq_true,
        List.all_eq_true, List.isEmpty_iff] at hflag
      obtain ⟨hrule₀, rs, hfollow, hacts, hrule⟩ := hflag
      refine phrase_token .mark (t := .method) hrule₀ rfl (by decide) (fun m p => rfl)
        ⟨rs, hfollow, rfl, hacts⟩ hrule
        (by decide) (fun m p p' => rfl) ?_
      intro pre post req
      rw [Token.apply, whole, Nat.max_zero, slice_middle, hread]
      cases k with
      | invalidMethod => exact absurd rfl hvalid
      | _ => rfl

/-- The path, up to the byte behind it. -/
theorem phrase_path {rest : List UInt8} (hsilent : (scanner flag).Silent 33 rest q)
    (hrule : (scanner flag).rule q b = some r)
    (hacts : r.acts = [.requestPath] ∨ r.acts = [.requestPath, .requestUri]) :
    Phrase flag (47 :: rest ++ [b]) 3 (fun req => { req with path := 47 :: rest }) r.next := by
  have hslash : (scanner flag).rule 3 47 = some (byte 47 [.mark] 33) :=
    rule_of_byte flag 47 (by decide)
  refine phrase_token .mark (t := .path) hslash rfl (by decide) (fun m p => rfl) hsilent hrule
    ?_ ?_ ?_
  · rcases hacts with hacts | hacts <;> simp [hacts]
  · rcases hacts with hacts | hacts <;> exact fun m p p' => by rw [hacts]; rfl
  · intro pre post req
    rw [Token.apply, whole, Nat.max_zero, slice_middle]

/-- The query, up to the byte behind it. -/
theorem phrase_query {text : List UInt8} (htext : uriText queryChar text = true) (hne : text ≠ [])
    (hrule : (scanner flag).rule 30 b = some r) (hacts : r.acts = [.queryString, .requestUri]) :
    Phrase flag (text ++ [b]) 29 (fun req => { req with query := text }) r.next := by
  obtain ⟨c, rest, rfl⟩ := List.exists_cons_of_ne_nil hne
  obtain ⟨r₀, hrule₀, hacts₀, hsilent⟩ := loop_query.enter 29 [.startQuery] htext
    (fun h => h) (takesAll_of_firstFits (by decide))
    (rule_of_byte flag 37 (by decide))
  refine phrase_token .startQuery (t := .query) hrule₀ hacts₀ (by decide) (fun m p => rfl) hsilent
    hrule ?_ ?_ ?_
  · simp [hacts]
  · intro m p p'
    rw [hacts]
    rfl
  · intro pre post req
    have hle : pre.length - whole pre.length ≤
        (pre ++ c :: rest).length - whole (pre ++ c :: rest).length := by simp [whole]
    rw [Token.apply, if_pos hle, whole, whole, Nat.zero_add, Nat.sub_zero, slice_middle]

/-- The fragment and the space behind it. -/
theorem phrase_fragment {text : List UInt8} (htext : uriText queryChar text = true)
    (hne : text ≠ []) :
    Phrase flag (text ++ [32]) 20 (fun req => { req with fragment := text }) 4 := by
  obtain ⟨c, rest, rfl⟩ := List.exists_cons_of_ne_nil hne
  obtain ⟨r₀, hrule₀, hacts₀, hsilent⟩ := loop_fragment.enter 20 [.mark] htext
    (fun h => h) (takesAll_of_firstFits (by decide))
    (rule_of_byte flag 37 (by decide))
  refine phrase_token .mark (t := .fragment) (r := byte 32 [.fragment] 4) hrule₀ hacts₀ (by decide)
    (fun m p => rfl) hsilent (rule_of_byte flag 32 (by decide)) (by decide)
    (fun m p p' => rfl) ?_
  intro pre post req
  rw [Token.apply, whole, Nat.max_zero, slice_middle]

theorem Phrase.silent (h : (scanner flag).Silent q bs q') : Phrase flag bs q (fun req => req) q' :=
  fun pre m req => ⟨m, .silent h pre m req⟩

theorem silent_newline (flag : Bool) : (scanner flag).Silent 17 [10] 13 :=
  .cons (rule_of_byte flag 10 (r := byte 10 [] 13) (by decide)) rfl (.nil 13)

/-- The version and the end of the line. -/
theorem phrase_version {v : Nat} (hv : v = 0x10 ∨ v = 0x11) :
    Phrase flag (bytes "HTTP/" ++ decimal (v >>> 4) ++ bytes "." ++ decimal (v &&& 0x0F) ++ crlf) 4
      (fun req => { req with version := v }) 13 := by
  have hdigit : ∃ d : UInt8, bytes "HTTP/" ++ decimal (v >>> 4) ++ bytes "." ++
      decimal (v &&& 0x0F) ++ crlf = 72 :: [84, 84, 80, 47, 49, 46, d] ++ [13] ++ [10] ∧
      versionOf [72, 84, 84, 80, 47, 49, 46, d] = some v ∧
      ∀ flag, (scanner flag).Silent 5 [84, 84, 80, 47, 49, 46, d] 12 := by
    rcases hv with rfl | rfl
    · exact ⟨48, by decide⟩
    · exact ⟨49, by decide⟩
  obtain ⟨d, hbytes, hversion, hsilent⟩ := hdigit
  have hfirst : (scanner flag).rule 4 72 = some (byte 72 [.mark] 5) :=
    rule_of_byte flag 72 (by decide)
  rw [hbytes]
  refine Phrase.append (phrase_token .mark (t := .version) (r := byte 13 [.httpVersion] 17) hfirst
    rfl (by decide) (fun m p => rfl) (hsilent flag) (rule_of_byte flag 13 (by decide))
    (by decide) (fun m p p' => rfl) ?_)
    (.silent (silent_newline flag))
  intro pre post req
  rw [Token.apply, whole, Nat.max_zero, slice_middle, hversion]
  rfl

/-! ### The header fields -/

theorem silent_of_class {class_ : List (Nat × Nat)} (hacts : r.acts = []) (hnext : r.next = q)
    (h : takesAll q class_ r = true) (hbs : bs.all (inClass class_) = true) :
    (scanner flag).Silent q bs q := by
  induction bs with
  | nil => exact .nil q
  | cons b bs ih =>
      rw [List.all_cons, Bool.and_eq_true] at hbs
      refine .cons (rule_of_class flag h hbs.1) hacts ?_
      rw [hnext]
      exact ih hbs.2

/-- The name of a header field, the colon and the blank behind it. -/
theorem scans_name (flag : Bool) {name : List UInt8} (hne : name ≠ [])
    (hname : name.all (inClass tchar) = true) (pre : List UInt8) (m : Marks) (req : HttpRequest) :
    ∃ m', Scans flag pre (name ++ [58] ++ [32]) ⟨13, m, req⟩ ⟨15, m', req⟩ ∧
      m'.nameStart = pre.length ∧ m'.nameEnd = (pre ++ name).length := by
  obtain ⟨c, rest, rfl⟩ := List.exists_cons_of_ne_nil hne
  rw [List.all_cons, Bool.and_eq_true] at hname
  have hloop : (scanner flag).Silent 14 rest 14 :=
    silent_of_class (r := on RequestTable.token [] 14) rfl rfl
      (takesAll_of_firstFits (by decide)) hname.2
  have hfirst := Scans.mark .startField (r := on RequestTable.token [.startField] 14)
    (rule_of_class flag (q := 13) (takesAll_of_firstFits (by decide)) hname.1) rfl (by decide)
    (fun m p => rfl) pre m req
  have hrest := Scans.silent hloop (pre ++ [c]) (m.after pre.length .startField) req
  have hcolon := Scans.mark .writeField (r := byte 58 [.writeField] 15)
    (rule_of_byte flag (q := 14) 58 (by decide)) rfl (by decide) (fun m p => rfl)
    (pre ++ c :: rest) (m.after pre.length .startField) req
  have hblank := Scans.mark .startValue (r := on [(9, 9), (32, 32)] [.startValue] 15)
    (rule_of_byte flag (q := 15) 32 (by decide)) rfl (by decide) (fun m p => rfl)
    (pre ++ (c :: rest ++ [58]))
    ((m.after pre.length .startField).after (pre ++ c :: rest).length .writeField) req
  exact ⟨_, ((hfirst.append hrest).append hcolon).append hblank, rfl, rfl⟩

/-- The value of a header field and the carriage return. -/
theorem scans_value (flag : Bool) {value : List UInt8}
    (hvalue : value.all (inClass textChar) = true) (hblank : value.head? ≠ some 32)
    (happly : ∀ post, (Token.field m.nameStart m.nameEnd pre.length (pre ++ value).length).apply
      (pre ++ value ++ post) whole req = some req') :
    ∃ m', Scans flag pre (value ++ [13]) ⟨15, m, req⟩ ⟨17, m', req'⟩ := by
  cases value with
  | nil =>
      rw [List.append_nil] at happly
      exact ⟨_, Scans.token (r := byte 13 [.startValue, .writeValue] 17)
        (rule_of_byte flag 13 (by decide)) (by decide) rfl fun post => happly (13 :: post)⟩
  | cons c rest =>
      rw [List.all_cons, Bool.and_eq_true] at hvalue
      have hfirst : inClass [(33, 126), (128, 255)] c = true := by
        have hc : c ≠ 32 := fun heq => hblank (by rw [heq]; rfl)
        have hne : c.toNat ≠ 32 := fun heq => hc (UInt8.toNat_inj.mp heq)
        have htext := hvalue.1
        simp only [inClass, textChar, List.any_cons, List.any_nil, Bool.or_false, Bool.or_eq_true,
          Bool.and_eq_true, decide_eq_true_eq] at htext ⊢
        omega
      have hloop : (scanner flag).Silent 16 rest 16 :=
        silent_of_class (r := on content [] 16) rfl rfl
          (takesAll_of_firstFits (by decide)) hvalue.2
      have hmark := Scans.mark .startValue (r := on content [.startValue] 16)
        (rule_of_class flag (q := 15) (takesAll_of_firstFits (by decide)) hfirst) rfl (by decide)
        (fun m p => rfl) pre m req
      have hrest := Scans.silent hloop (pre ++ [c]) (m.after pre.length .startValue) req
      exact ⟨_, (hmark.append hrest).append (Scans.token (r := byte 13 [.writeValue] 17)
        (rule_of_byte flag 13 (by decide)) (by decide) rfl fun post => happly (13 :: post))⟩

/-- **A header field** as `dump` writes it. -/
theorem phrase_field {f : List UInt8 × List UInt8} (h : GoodField f) :
    Phrase flag (dumpField f) 13 (fun req => req.setHeader f.1 f.2) 13 := by
  intro pre m req
  obtain ⟨m₁, hname, hstart, hend⟩ := scans_name flag h.named h.name pre m req
  have happly : ∀ post, (Token.field m₁.nameStart m₁.nameEnd (pre ++ (f.1 ++ [58] ++ [32])).length
      (pre ++ (f.1 ++ [58] ++ [32]) ++ f.2).length).apply
        (pre ++ (f.1 ++ [58] ++ [32]) ++ f.2 ++ post) whole req =
          some (req.setHeader f.1 f.2) := by
    intro post
    have hslice := slice_middle pre f.1 ([58] ++ [32] ++ f.2 ++ post)
    simp only [← List.append_assoc] at hslice ⊢
    rw [Token.apply, whole, Nat.max_zero, Nat.max_zero, hstart, hend, hslice, if_neg h.named,
      slice_middle]
  obtain ⟨m₂, hvalue⟩ := scans_value flag h.value h.noBlank happly
  have hall := (hname.append hvalue).append
    (.silent (silent_newline flag) _ m₂ (req.setHeader f.1 f.2))
  have hbytes : dumpField f = f.1 ++ [58] ++ [32] ++ (f.2 ++ [13]) ++ [10] := by
    simp [dumpField, bytes, crlf]
  rw [hbytes]
  exact ⟨m₂, hall⟩

/-- **The header fields**, by induction on their list. -/
theorem phrase_fields {fs : List (List UInt8 × List UInt8)} (h : ∀ f ∈ fs, GoodField f) :
    Phrase flag (fs.flatMap dumpField) 13
      (fun req => fs.foldl (fun req f => req.setHeader f.1 f.2) req) 13 := by
  induction fs with
  | nil => exact .silent (.nil 13)
  | cons f fs ih =>
      rw [List.flatMap_cons]
      exact (phrase_field (h f (by simp))).append (ih fun f' hf' => h f' (by simp [hf']))

/-! ### Where a path ends -/

/-- The path may end in state `q`. -/
structure PathEnd (flag : Bool) (q : Nat) : Prop where
  space : (scanner flag).rule q 32 = some (byte 32 [.requestPath, .requestUri] 4)
  hash : (scanner flag).rule q 35 = some (byte 35 [.requestPath, .requestUri] 20)
  mark : (scanner flag).rule q 63 = some (byte 63 [.requestPath] 29)

/-- The automaton takes a path as a whole URI. -/
def takesPath (flag : Bool) (path : List UInt8) : Bool :=
  ((scanner flag).follow 3 (path ++ [32])).any fun rs => Scanner.lastState 3 rs == 4

/-- A path of the grammar that does not begin with `//`. -/
theorem silent_of_text (flag : Bool) {rest : List UInt8} (htext : uriText pathChar rest = true)
    (hslash : rest.head? ≠ some 47) :
    ∃ q, (scanner flag).Silent 33 rest q ∧ PathEnd flag q := by
  cases rest with
  | nil =>
      exact ⟨33, .nil 33, rule_of_byte flag 32 (by decide),
        rule_of_byte flag 35 (by decide), rule_of_byte flag 63 (by decide)⟩
  | cons c rest =>
      have hfirst : inClass pathChar c = true → inClass pchar c = true := by
        intro hc
        have hne : c.toNat ≠ 47 := by
          intro heq
          obtain rfl : c = 47 := UInt8.toNat_inj.mp heq
          exact hslash rfl
        simp only [inClass, pathChar, pchar, List.any_cons, List.any_nil, Bool.or_false,
          Bool.or_eq_true, Bool.and_eq_true, decide_eq_true_eq] at hc ⊢
        omega
      obtain ⟨r, hrule, hacts, hsilent⟩ := loop_path.enter 33 [] htext hfirst
        (takesAll_of_firstFits (by decide)) (rule_of_byte flag 37 (by decide))
      exact ⟨26, .cons hrule hacts hsilent, rule_of_byte flag 32 (by decide),
        rule_of_byte flag 35 (by decide), rule_of_byte flag 63 (by decide)⟩

namespace RequestTable

/-- The states in which a path that begins with `/` is read. -/
def inPath (q : Nat) : Bool := (26 ≤ q && q ≤ 28) || (33 ≤ q && q ≤ 172)

/-- The rules at the end of a path. -/
def pathEnds : List (Rule RequestAction) :=
  [byte 32 [.requestPath, .requestUri] 4, byte 35 [.requestPath, .requestUri] 20,
    byte 63 [.requestPath] 29]

/-- In a path only the bytes behind it have actions; where a space may follow, so
may the other two. -/
def pathRow (q : Nat) (rs : List (Rule RequestAction)) : Bool :=
  !inPath q ||
    ((rs.all fun r => r.acts.isEmpty && inPath r.next || pathEnds.contains r) &&
      (!rs.contains (byte 32 [.requestPath, .requestUri] 4) ||
        [false, true].all fun flag => [32, 35, 63].map (fun b => rs.find? (·.takes flag b)) ==
          pathEnds.map some))

theorem path_rows : (rows.all fun row => pathRow row.1 row.2) = true := by
  decide +kernel

end RequestTable

open RequestTable (inPath pathEnds pathRow)

theorem byte_of_pathEnds (hr : r ∈ pathEnds) (hb : r.takes flag b = true) :
    b ∈ ([32, 35, 63] : List UInt8) := by
  have hon : ∀ k acts next, (byte k acts next : Rule RequestAction).takes flag b = true →
      b.toNat = k := by
    intro k acts next htakes
    simp only [byte, Rule.takes, List.any_cons, List.any_nil, Bool.or_false, Bool.not_false,
      Bool.or_true, Bool.true_and, Bool.and_eq_true, decide_eq_true_eq] at htakes
    omega
  simp only [pathEnds, List.mem_cons, List.not_mem_nil, or_false] at hr
  simp only [List.mem_cons, List.not_mem_nil, or_false, ← UInt8.toNat_inj]
  rcases hr with rfl | rfl | rfl
  · exact .inl (hon _ _ _ hb)
  · exact .inr (.inl (hon _ _ _ hb))
  · exact .inr (.inr (hon _ _ _ hb))

theorem path_row (hq : inPath q = true) (hrule : (scanner flag).rule q b = some r) :
    (r.acts = [] ∧ inPath r.next = true ∨ r ∈ pathEnds) ∧
      (r = byte 32 [.requestPath, .requestUri] 4 → PathEnd flag q) := by
  have hmem := Scanner.rule_mem hrule
  have hrow := Scanner.of_all_rows (m := scanner flag) (P := pathRow) RequestTable.path_rows
    (List.ne_nil_of_mem hmem)
  simp only [pathRow, hq, Bool.not_true, Bool.false_or, Bool.and_eq_true, List.all_eq_true,
    Bool.or_eq_true, List.isEmpty_iff, List.contains_iff_mem] at hrow
  refine ⟨hrow.1 r hmem, ?_⟩
  rintro rfl
  have hends := hrow.2.resolve_left (by simpa using hmem) flag (by cases flag <;> simp)
  simp only [List.map_cons, List.map_nil, pathEnds, beq_iff_eq, List.cons.injEq, and_true] at hends
  exact ⟨hends.1, hends.2.1, hends.2.2⟩

theorem silent_in_path {rest : List UInt8} {rs : List (Rule RequestAction)} (hq : inPath q = true)
    (hrest : ∀ b ∈ rest, b ∉ ([32, 35, 63] : List UInt8))
    (h : (scanner flag).follow q rest = some rs) :
    (∀ r ∈ rs, r.acts = []) ∧ inPath (Scanner.lastState q rs) = true := by
  induction rest generalizing q rs with
  | nil =>
      cases h
      exact ⟨by simp, hq⟩
  | cons b rest ih =>
      obtain ⟨r, rs', hrule, hfollow, rfl⟩ := Scanner.follow_cons h
      have hno : r ∉ pathEnds := fun hr =>
        hrest b (by simp) (byte_of_pathEnds hr (Scanner.rule_takes hrule))
      obtain ⟨hacts, hnext⟩ := (path_row hq hrule).1.resolve_right hno
      obtain ⟨hrs, hlast⟩ := ih hnext (fun b' hb' => hrest b' (by simp [hb'])) hfollow
      refine ⟨fun r' hr' => ?_, hlast⟩
      rcases List.mem_cons.mp hr' with rfl | hr'
      · exact hacts
      · exact hrs r' hr'

/-- The bytes of text of the URI grammar. -/
theorem mem_of_uriText {text : List UInt8} (h : uriText class_ text = true) (hb : b ∈ text) :
    inClass class_ b = true ∨ b = 37 ∨ inClass xdigit b = true := by
  induction text using uriText.induct with
  | case1 => cases hb
  | case2 a c bs ih =>
      simp only [uriText, Bool.and_eq_true] at h
      obtain ⟨⟨ha, hc⟩, hrest⟩ := h
      simp only [List.mem_cons] at hb
      rcases hb with rfl | rfl | rfl | hb
      · exact .inr (.inl rfl)
      · exact .inr (.inr ha)
      · exact .inr (.inr hc)
      · exact ih hrest hb
  | case3 c bs hnot ih =>
      rw [uriText, Bool.and_eq_true] at h
      · rcases List.mem_cons.mp hb with rfl | hb
        · exact .inl h.1
        · exact ih h.2 hb
      · exact hnot

/-- A path that begins with `//`, where the automaton takes it. -/
theorem silent_of_takesPath {rest : List UInt8} (htext : uriText pathChar rest = true)
    (h : takesPath flag (47 :: rest) = true) :
    ∃ q, (scanner flag).Silent 33 rest q ∧ PathEnd flag q := by
  have hrest : ∀ b ∈ rest, b ∉ ([32, 35, 63] : List UInt8) := by
    intro b hb hend
    have hclass := mem_of_uriText htext hb
    simp only [List.mem_cons, List.not_mem_nil, or_false] at hend
    rcases hend with rfl | rfl | rfl
    · exact absurd hclass (by decide)
    · exact absurd hclass (by decide)
    · exact absurd hclass (by decide)
  obtain ⟨rs, hfollow, hlast⟩ := (Option.any_eq_true _ _).mp h
  obtain ⟨r, rs', hrule, hfollow', rfl⟩ := Scanner.follow_cons hfollow
  rw [rule_of_byte flag (r := byte 47 [.mark] 33) 47 (by decide)] at hrule
  cases hrule
  obtain ⟨rs₁, rs₂, rfl, hpath, hspace⟩ := Scanner.follow_append hfollow'
  obtain ⟨r, rs₃, hend, hnil, rfl⟩ := Scanner.follow_cons hspace
  cases hnil
  obtain ⟨hacts, hq⟩ := silent_in_path (q := 33) rfl hrest hpath
  obtain ⟨hkind, hpathEnd⟩ := path_row hq hend
  refine ⟨_, ⟨rs₁, hpath, rfl, hacts⟩, hpathEnd ?_⟩
  have hnext : r.next = 4 := by
    simpa [Scanner.lastState, Scanner.lastState_append] using hlast
  rcases hkind with ⟨-, hin⟩ | hkind
  · rw [hnext] at hin
    cases hin
  · simp only [pathEnds, List.mem_cons, List.not_mem_nil, or_false] at hkind
    rcases hkind with rfl | rfl | rfl
    · rfl
    · cases hnext
    · cases hnext

/-- **The path of a request that can be written.** -/
theorem Writable.silent_path (h : Writable req)
    (hpath : [47, 47] <+: req.path → takesPath flag req.path = true) :
    ∃ rest q, req.path = 47 :: rest ∧ (scanner flag).Silent 33 rest q ∧ PathEnd flag q := by
  obtain ⟨rest, hrest⟩ := List.head?_eq_some_iff.mp h.slash
  have htext : uriText pathChar rest = true := by
    have hall : inClass pathChar 47 = true ∧ uriText pathChar rest = true := by
      simpa [hrest, uriText] using h.path
    exact hall.2
  by_cases hslash : rest.head? = some 47
  · obtain ⟨more, rfl⟩ := List.head?_eq_some_iff.mp hslash
    have htakes := hpath ⟨more, hrest.symm⟩
    rw [hrest] at htakes
    obtain ⟨q, hsilent, hend⟩ := silent_of_takesPath htext htakes
    exact ⟨_, q, hrest, hsilent, hend⟩
  · obtain ⟨q, hsilent, hend⟩ := silent_of_text flag htext hslash
    exact ⟨rest, q, hrest, hsilent, hend⟩

end Mingo.Http
