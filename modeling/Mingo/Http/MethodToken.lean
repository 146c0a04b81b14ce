import Mingo.Http.Phrases

/-!
# The method of a request

`CharsToHttpMethod` compares the bytes at the mark with the names of the table, each
over the length of the name: a method token is taken for the first name that it
begins with.  The grammar lets through tokens of up to twenty capital letters and
digits.

* `exec_method` -- the scan of a request from its first byte to the space behind the
  method, whatever is behind that in the buffer;
* `exactMethod_iff` -- the tokens that are matched exactly.
-/

namespace Mingo.Http

open Scanner (inClass byte on events lastState)
open HttpRequestParser (scanner act)
open RequestTable (methodChar)

variable {flag : Bool} {t : List UInt8}

/-- `Method`: one to twenty capital letters and digits. -/
structure MethodToken (t : List UInt8) : Prop where
  nonempty : t ≠ []
  length : t.length ≤ 20
  chars : ∀ b ∈ t, inClass methodChar b = true

/-! ### The scan -/

/-- The state of the automaton behind `k` bytes of a method. -/
def methodState (k : Nat) : Nat := if k = 0 then 1 else if k = 1 then 2 else 173 + k

/-- The rule for the next byte of a method. -/
def methodRule (k : Nat) : Scanner.Rule RequestAction :=
  on methodChar (if k = 0 then [.mark] else []) (methodState (k + 1))

theorem methodRules : ∀ k < 20,
    Scanner.firstFits (methodRule k) methodChar ((RequestTable.rows.lookup (methodState k)).getD [])
      = true := by
  decide +kernel

theorem rule_method (flag : Bool) {k : Nat} {b : UInt8} (hk : k < 20)
    (hb : inClass methodChar b = true) :
    (scanner flag).rule (methodState k) b = some (methodRule k) :=
  Scanner.find_of_firstFits flag (methodRules k hk) hb

theorem spaceRules : ∀ k < 21, k ≠ 0 →
    Scanner.firstFits (byte 32 [RequestAction.requestMethod] 3) [(32, 32)]
      ((RequestTable.rows.lookup (methodState k)).getD []) = true := by
  decide +kernel

/-- The space behind a method of `k` bytes. -/
theorem rule_space {k : Nat} (hk : k < 21) (hpos : k ≠ 0) :
    (scanner flag).rule (methodState k) 32 = some (byte 32 [.requestMethod] 3) :=
  Scanner.find_of_firstFits flag (spaceRules k hk hpos) rfl

/-- The bytes of a method behind its first `k`. -/
theorem silent_method (flag : Bool) (hchars : ∀ b ∈ t, inClass methodChar b = true) {k : Nat}
    (hk : 0 < k) (hlen : k + t.length ≤ 20) :
    (scanner flag).Silent (methodState k) t (methodState (k + t.length)) := by
  induction t generalizing k with
  | nil => exact Scanner.Silent.nil _
  | cons b t ih =>
      rw [List.length_cons] at hlen ⊢
      have hrule := rule_method flag (show k < 20 by omega) (hchars b (by simp))
      have hacts : (methodRule k).acts = [] := if_neg (by omega)
      have hrest := ih (fun c hc => hchars c (by simp [hc])) (k := k + 1) (by omega) (by omega)
      rw [show k + 1 + t.length = k + (t.length + 1) by omega] at hrest
      exact Scanner.Silent.cons hrule hacts hrest

/-- The parser behind the method token `t` and the space, with `rest` behind that in the
buffer. -/
def afterMethod (t rest : List UInt8) : HttpRequestParser :=
  HttpRequestParser.onRequestMethod HttpRequestParser.new.rewind (t ++ 32 :: rest)

/-- **The method is scanned** up to the space, and the callback gets the buffer. -/
theorem exec_method (flag : Bool) (h : MethodToken t) (rest more : List UInt8) :
    (scanner flag).exec (act (t ++ 32 :: rest)) 1 0 HttpRequestParser.new.rewind
        (t ++ [32] ++ more) =
      (scanner flag).exec (act (t ++ 32 :: rest)) 3 (t.length + 1) (afterMethod t rest) more := by
  obtain ⟨hne, hlen, hchars⟩ := h
  cases t with
  | nil => exact absurd rfl hne
  | cons b t =>
      have hfirst : (scanner flag).rule 1 b = some (methodRule 0) :=
        rule_method flag (k := 0) (by omega) (hchars b (by simp))
      obtain ⟨rs, hfollow, hlast, hacts⟩ := silent_method flag (k := 1)
        (fun c hc => hchars c (List.mem_cons_of_mem b hc)) Nat.one_pos
        (by rw [List.length_cons] at hlen; omega)
      have hspace : (scanner flag).rule (methodState (1 + t.length)) 32 =
          some (byte 32 [.requestMethod] 3) :=
        rule_space (by rw [List.length_cons] at hlen; omega) (by omega)
      have hlast' : lastState 1 (methodRule 0 :: rs) = methodState (1 + t.length) := hlast
      have hall : (scanner flag).follow 1 (b :: t ++ [32]) =
          some (methodRule 0 :: rs ++ [byte 32 [.requestMethod] 3]) := by
        have htoken : (scanner flag).follow 1 (b :: t) = some (methodRule 0 :: rs) := by
          rw [Scanner.follow, hfirst, Option.bind_some]
          exact congrArg (Option.map _) hfollow
        rw [Scanner.follow_append_eq htoken, hlast', Scanner.follow, hspace]
        rfl
      have hends : ∀ r ∈ methodRule 0 :: rs ++ [byte 32 [.requestMethod] 3],
          (scanner flag).ends r = false := by
        intro r hr
        simp only [List.mem_append, List.mem_cons, List.not_mem_nil, or_false] at hr
        rcases hr with (rfl | hr) | rfl
        · rfl
        · rw [Scanner.ends, hacts r hr]
          rfl
        · rfl
      have hevents : events 0 (methodRule 0 :: rs ++ [byte 32 [.requestMethod] 3]) =
          [(0, .mark), (0 + 1 + rs.length, .requestMethod)] := by
        rw [List.cons_append, events, Scanner.events_append, Scanner.events_of_silent hacts]
        rfl
      have hstate : lastState 1 (methodRule 0 :: rs ++ [byte 32 [.requestMethod] 3]) = 3 := by
        rw [Scanner.lastState_append]
        rfl
      have hlength : 0 + (b :: t ++ [32]).length = (b :: t).length + 1 := by simp
      rw [Scanner.exec_append hall hends, hevents, hstate, hlength]
      rfl

/-! ### The lookup -/

/-- The parser has set the method `k`. -/
def HttpRequestParser.SetsMethod (s : HttpRequestParser) (k : HttpMethod) : Prop :=
  s.error = 0 ∧ s.data.method = k

/-- The token is matched exactly, with `rest` behind it and the space in the buffer: behind the
space each method is set for its own name, and any other token is the error 1000. -/
def ExactMethod (flag : Bool) (t rest : List UInt8) : Prop :=
  ∃ s, (scanner flag).exec (act (t ++ 32 :: rest)) 1 0 HttpRequestParser.new.rewind (t ++ [32]) =
      some (3, t.length + 1, s) ∧
    (∀ k, k ≠ .invalidMethod → (s.SetsMethod k ↔ t = bytes (httpMethodToString k))) ∧
    (s.error = 1000 ↔ ∀ k, k ≠ .invalidMethod → t ≠ bytes (httpMethodToString k))

theorem mem_map_iff {e : HttpMethod × String} :
    e ∈ httpMethodMap ↔ e.1 ≠ .invalidMethod ∧ e.2 = httpMethodToString e.1 := by
  constructor
  · revert e
    decide
  · rintro ⟨hvalid, hname⟩
    have hmem := mem_httpMethodMap hvalid
    rwa [← hname] at hmem

/-- No name of the table begins with another. -/
theorem names_prefix_free : ∀ e ∈ httpMethodMap, ∀ e' ∈ httpMethodMap,
    (bytes e.2).isPrefixOf (bytes e'.2) = true → e = e' := by
  decide +kernel

/-- What the callback does with the method it finds. -/
theorem afterMethod_eq (t rest : List UInt8) :
    (charsToHttpMethod t = .invalidMethod ∧ (afterMethod t rest).error = 1000) ∨
      charsToHttpMethod t ≠ .invalidMethod ∧ (afterMethod t rest).error = 0 ∧
        (afterMethod t rest).data.method = charsToHttpMethod t := by
  rw [afterMethod, HttpRequestParser.onRequestMethod, charsToHttpMethod_append_space]
  cases charsToHttpMethod t with
  | invalidMethod => exact .inl ⟨rfl, rfl⟩
  | _ => exact .inr ⟨by decide, rfl, rfl⟩

/-- **The lookup** finds the method whose name the token begins with. -/
theorem charsToHttpMethod_eq_iff {k : HttpMethod} (hk : k ≠ .invalidMethod) :
    charsToHttpMethod t = k ↔ bytes (httpMethodToString k) <+: t := by
  have hmem := mem_httpMethodMap hk
  rw [charsToHttpMethod]
  cases hfind : httpMethodMap.find? fun e => (bytes e.2).isPrefixOf t with
  | none =>
      have hno := List.find?_eq_none.mp hfind _ hmem
      rw [List.isPrefixOf_iff_prefix] at hno
      exact ⟨fun h => absurd h.symm hk, fun h => absurd h hno⟩
  | some e =>
      have hin := List.mem_of_find?_eq_some hfind
      have hprefix : bytes e.2 <+: t := List.isPrefixOf_iff_prefix.mp
        (List.find?_some (p := fun e : HttpMethod × String => (bytes e.2).isPrefixOf t) hfind)
      constructor
      · intro h
        rwa [← show e.2 = httpMethodToString k from h ▸ (mem_map_iff.mp hin).2]
      · intro h
        -- of two names at the front of the token one begins with the other
        rcases List.prefix_or_prefix_of_prefix hprefix h with hle | hle
        · exact congrArg Prod.fst
            (names_prefix_free e hin _ hmem (List.isPrefixOf_iff_prefix.mpr hle))
        · exact (congrArg Prod.fst
            (names_prefix_free _ hmem e hin (List.isPrefixOf_iff_prefix.mpr hle))).symm

theorem charsToHttpMethod_eq_invalid_iff :
    charsToHttpMethod t = .invalidMethod ↔
      ∀ k, k ≠ .invalidMethod → ¬ bytes (httpMethodToString k) <+: t := by
  constructor
  · intro h k hk hprefix
    exact hk (((charsToHttpMethod_eq_iff hk).mpr hprefix).symm.trans h)
  · intro h
    by_contra hvalid
    exact h _ hvalid ((charsToHttpMethod_eq_iff hvalid).mp rfl)

/-- **Method tokens** are matched exactly, unless they go on behind the name of a method. -/
theorem exactMethod_iff (h : MethodToken t) (rest : List UInt8) :
    ExactMethod flag t rest ↔ ∀ k, k ≠ .invalidMethod →
      bytes (httpMethodToString k) <+: t → t = bytes (httpMethodToString k) := by
  have hscan : (scanner flag).exec (act (t ++ 32 :: rest)) 1 0 HttpRequestParser.new.rewind
      (t ++ [32]) = some (3, t.length + 1, afterMethod t rest) := by
    have := exec_method flag h rest []
    rwa [List.append_nil] at this
  have hset : ∀ k, k ≠ .invalidMethod →
      ((afterMethod t rest).SetsMethod k ↔ bytes (httpMethodToString k) <+: t) := by
    intro k hk
    rw [← charsToHttpMethod_eq_iff hk, HttpRequestParser.SetsMethod]
    rcases afterMethod_eq t rest with ⟨hnone, herror⟩ | ⟨-, herror, hmethod⟩
    · rw [hnone, herror]
      exact ⟨fun h => absurd h.1 (by decide), fun h => absurd h.symm hk⟩
    · rw [herror, hmethod]
      exact ⟨And.right, fun h => ⟨rfl, h⟩⟩
  have herror : (afterMethod t rest).error = 1000 ↔
      ∀ k, k ≠ .invalidMethod → ¬ bytes (httpMethodToString k) <+: t := by
    rw [← charsToHttpMethod_eq_invalid_iff]
    rcases afterMethod_eq t rest with ⟨hnone, herror⟩ | ⟨hsome, herror, -⟩
    · exact ⟨fun _ => hnone, fun _ => herror⟩
    · rw [herror]
      exact ⟨fun h => absurd h (by decide), fun h => absurd h hsome⟩
  constructor
  · rintro ⟨s, hs, hexact, -⟩ k hk hprefix
    rw [hscan, Option.some.injEq, Prod.mk.injEq, Prod.mk.injEq] at hs
    rw [← hs.2.2] at hexact
    exact (hexact k hk).mp ((hset k hk).mpr hprefix)
  · intro hwhen
    have hname : ∀ k, k ≠ .invalidMethod →
        (bytes (httpMethodToString k) <+: t ↔ t = bytes (httpMethodToString k)) := by
      intro k hk
      exact ⟨hwhen k hk, fun heq => heq ▸ List.prefix_refl _⟩
    refine ⟨_, hscan, fun k hk => (hset k hk).trans (hname k hk), herror.trans ?_⟩
    exact forall₂_congr fun k hk => not_congr (hname k hk)

/-- `PUT`, with a URI behind it. -/
theorem exactMethod_put : ExactMethod false (bytes "PUT") (bytes "/ HTTP/1.1\r\n") := by
  refine (exactMethod_iff ⟨by decide, by decide, List.all_eq_true.mp (by decide)⟩ _).mpr ?_
  intro k hk
  cases k with
  | invalidMethod => exact absurd rfl hk
  | _ => decide

/-- **A token that goes on** behind the name of a method sets that method. -/
theorem not_exactMethod_getx :
    ((scanner false).exec (act (bytes "GETX / HTTP/1.1\r\n")) 1 0 HttpRequestParser.new.rewind
        (bytes "GETX ")).map (fun r => (r.1, r.2.2.error, r.2.2.data.method)) =
        some (3, 0, .get) ∧
      ¬ ExactMethod false (bytes "GETX") (bytes "/ HTTP/1.1\r\n") := by
  refine ⟨by decide, ?_⟩
  rintro ⟨s, hs, hexact, -⟩
  have htoken : MethodToken (bytes "GETX") :=
    ⟨by decide, by decide, List.all_eq_true.mp (by decide)⟩
  have hset : s.SetsMethod .get := by
    have hafter : some (3, 5, s) =
        some (3, 5, afterMethod (bytes "GETX") (bytes "/ HTTP/1.1\r\n")) :=
      hs.symm.trans (exec_method false htoken _ [])
    rw [Option.some.injEq, Prod.mk.injEq, Prod.mk.injEq] at hafter
    rw [hafter.2.2]
    exact ⟨by decide, by decide⟩
  exact absurd ((hexact .get (by decide)).mp hset) (by decide)

end Mingo.Http
