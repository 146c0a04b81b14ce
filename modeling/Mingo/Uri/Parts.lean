import Mingo.Grammar.Uri
import Mingo.Uri.Basic

/-!
# The parts of a reference

A reference with an authority is the text of some `Parts`, each a word of its production
(`Framed`, and the host apart, as only there uri.rl and RFC 3986 differ), and any other
reference is the text of some `Plain`.

* `derives_iff_parts` -- so `URI_reference` of both grammars comes down to the host.
-/

namespace Mingo.Uri

open Grammar (Derives Expr derives_alt derives_byte derives_empty derives_opt derives_ref
  derives_seq)
open Grammar.Expr (alts byte opt ref seq seqs)
open Scanner (inClass)

/-- A part that may be missing, behind its delimiter. -/
def marked (b : UInt8) (part : Option (List UInt8)) : List UInt8 := part.elim [] (b :: ·)

/-- A part that may be missing, in front of its delimiter. -/
def ended (b : UInt8) (part : Option (List UInt8)) : List UInt8 := part.elim [] (· ++ [b])

/-- The parts of an authority. -/
structure Authority where
  userinfo : Option (List UInt8)
  host : List UInt8
  port : Option (List UInt8)
  deriving DecidableEq, Repr

/-- `userinfo "@" host ":" port` -/
def Authority.text (a : Authority) : List UInt8 :=
  ended 64 a.userinfo ++ a.host ++ marked 58 a.port

/-- The parts of a reference with an authority. -/
structure Parts where
  scheme : Option (List UInt8)
  authority : Authority
  path : List UInt8
  query : Option (List UInt8)
  fragment : Option (List UInt8)
  deriving DecidableEq, Repr

/-- `scheme ":" "//" authority path "?" query "#" fragment` -/
def Parts.text (p : Parts) : List UInt8 :=
  ended 58 p.scheme ++ [47, 47] ++ p.authority.text ++ p.path ++
    (marked 63 p.query ++ marked 35 p.fragment)

/-- The part, if it is there, is a word of the production. -/
def Matches (part : Option (List UInt8)) (n : Production) : Prop :=
  ∀ v, part = some v → Derives uriRl (ref n) v

/-- All parts but the host are words of their productions. -/
structure Parts.Framed (p : Parts) : Prop where
  scheme : Matches p.scheme .scheme
  userinfo : Matches p.authority.userinfo .userinfo
  port : Matches p.authority.port .port
  path : Derives uriRl (ref .pathAbempty) p.path
  query : Matches p.query .query
  fragment : Matches p.fragment .fragment

/-- The parts of a reference without an authority. -/
structure Plain where
  scheme : Option (List UInt8)
  path : List UInt8
  query : Option (List UInt8)
  fragment : Option (List UInt8)
  deriving DecidableEq, Repr

/-- `scheme ":" path "?" query "#" fragment` -/
def Plain.text (o : Plain) : List UInt8 :=
  ended 58 o.scheme ++ o.path ++ (marked 63 o.query ++ marked 35 o.fragment)

/-- The parts are words of their productions, and the path is one that a reference without
an authority may have. -/
structure Plain.WellFormed (o : Plain) : Prop where
  scheme : Matches o.scheme .scheme
  path : Derives uriRl (ref .pathAbsolute) o.path ∨
    Derives uriRl (ref (if o.scheme.isSome then .pathRootless else .pathNoscheme)) o.path ∨
    o.path = []
  query : Matches o.query .query
  fragment : Matches o.fragment .fragment

/-! ### Whether given parts are words -/

/-- The bytes are read as a word of the production. -/
def isWord (n : Production) (v : List UInt8) : Bool :=
  Grammar.reads uriRl 40 [[ref n]] v == some true

/-- What is read as a word is one. -/
theorem derives_of_isWord {n : Production} {v : List UInt8} (h : isWord n v = true) :
    Derives uriRl (ref n) v :=
  (Grammar.derives_iff_reads 40 (eq_of_beq h)).mpr rfl

/-- A part that is missing or read as a word. -/
theorem matches_of_isWord {n : Production} {part : Option (List UInt8)}
    (h : part.all (isWord n) = true) : Matches part n := by
  rintro v rfl
  exact derives_of_isWord h

/-- All parts are read as words of their productions. -/
def Parts.areWords (p : Parts) : Bool :=
  p.scheme.all (isWord .scheme) && p.authority.userinfo.all (isWord .userinfo) &&
  p.authority.port.all (isWord .port) && isWord .pathAbempty p.path &&
  p.query.all (isWord .query) && p.fragment.all (isWord .fragment) &&
  isWord .host p.authority.host

/-- Parts that are read as words are words. -/
theorem words_of_areWords {p : Parts} (h : p.areWords = true) :
    p.Framed ∧ Derives uriRl (ref .host) p.authority.host := by
  simp only [Parts.areWords, Bool.and_eq_true] at h
  obtain ⟨⟨⟨⟨⟨⟨hs, hu⟩, hport⟩, hpath⟩, hq⟩, hf⟩, hhost⟩ := h
  exact ⟨⟨matches_of_isWord hs, matches_of_isWord hu, matches_of_isWord hport,
    derives_of_isWord hpath, matches_of_isWord hq, matches_of_isWord hf⟩, derives_of_isWord hhost⟩

/-! ### Optional parts -/

/-- An optional part behind its delimiter. -/
theorem derives_marked {g : Production → Rhs} {b : Nat} {e : Rhs} {w : List UInt8}
    (hb : b < 256) :
    Derives g (opt (seq (byte b) e)) w ↔
      ∃ part, w = marked (UInt8.ofNat b) part ∧ ∀ v, part = some v → Derives g e v := by
  rw [derives_opt, derives_seq]
  constructor
  · rintro (rfl | ⟨u, v, rfl, hu, hv⟩)
    · exact ⟨none, rfl, by simp⟩
    · rw [derives_byte hb] at hu
      exact ⟨some v, by simp [hu, marked], by simpa using hv⟩
  · rintro ⟨part, rfl, hpart⟩
    cases part with
    | none => exact .inl rfl
    | some v => exact .inr ⟨[UInt8.ofNat b], v, rfl, (derives_byte hb).mpr rfl, hpart v rfl⟩

/-- An optional part in front of its delimiter. -/
theorem derives_ended {g : Production → Rhs} {b : Nat} {e : Rhs} {w : List UInt8}
    (hb : b < 256) :
    Derives g (opt (seq e (byte b))) w ↔
      ∃ part, w = ended (UInt8.ofNat b) part ∧ ∀ v, part = some v → Derives g e v := by
  rw [derives_opt, derives_seq]
  constructor
  · rintro (rfl | ⟨u, v, rfl, hu, hv⟩)
    · exact ⟨none, rfl, by simp⟩
    · rw [derives_byte hb] at hv
      exact ⟨some u, by simp [hv, ended], by simpa using hu⟩
  · rintro ⟨part, rfl, hpart⟩
    cases part with
    | none => exact .inl rfl
    | some v => exact .inr ⟨v, [UInt8.ofNat b], rfl, hpart v rfl, (derives_byte hb).mpr rfl⟩

/-! ### Both grammars -/

/-- A grammar that has the productions of uri.rl but for the three in which the RFC differs. -/
def Shares (g : Production → Rhs) : Prop :=
  ∀ n, n ≠ .decOctet → n ≠ .ipv6Address → n ≠ .ipvFuture → g n = uriRl n

/-- uri.rl shares its productions with itself. -/
theorem shares_uriRl : Shares uriRl := fun _ _ _ _ => rfl

/-- The RFC differs in three productions only. -/
theorem shares_rfc3986 : Shares rfc3986 := by
  intro n hoctet hv6 hfuture
  cases n with
  | decOctet => exact absurd rfl hoctet
  | ipv6Address => exact absurd rfl hv6
  | ipvFuture => exact absurd rfl hfuture
  | _ => rfl

/-- The productions from which no host is reached. -/
def hostless : List Production :=
  [.subDelims, .unreserved, .pctEncoded, .scheme, .userinfo, .port, .pchar, .segment, .segmentNz,
    .segmentNzNc, .pathAbempty, .pathAbsolute, .pathNoscheme, .pathRootless, .pathEmpty, .query,
    .fragment]

/-- An expression over these productions has the same words in both grammars. -/
theorem derives_shared {g : Production → Rhs} (hg : Shares g) {e : Rhs}
    (he : Grammar.refsIn (fun n => decide (n ∈ hostless)) e = true) {w : List UInt8} :
    Derives g e w ↔ Derives uriRl e w := by
  have hrefs : (hostless.all fun n =>
      Grammar.refsIn (fun n => decide (n ∈ hostless)) (uriRl n)) = true := by decide
  refine (Derives.congr (S := fun n => decide (n ∈ hostless)) ?_ he).symm
  intro n hn
  have hn := of_decide_eq_true hn
  exact ⟨(hg n (ne_of_mem_of_not_mem hn (by decide)) (ne_of_mem_of_not_mem hn (by decide))
    (ne_of_mem_of_not_mem hn (by decide))).symm, List.all_eq_true.mp hrefs n hn⟩

/-- A production that reaches no host has the same words in both grammars. -/
theorem derives_hostless {g : Production → Rhs} (hg : Shares g) {n : Production}
    (hn : n ∈ hostless) (w : List UInt8) : Derives g (ref n) w ↔ Derives uriRl (ref n) w :=
  derives_shared hg (e := ref n) (decide_eq_true hn)

variable {g : Production → Rhs} {w s : List UInt8}

/-- The same of a part that may be missing. -/
theorem matches_iff (hg : Shares g) {n : Production} (hn : n ∈ hostless)
    (part : Option (List UInt8)) :
    (∀ v, part = some v → Derives g (ref n) v) ↔ Matches part n :=
  forall_congr' fun v => imp_congr_right fun _ => derives_hostless hg hn v

/-- The words of `authority` by their parts. -/
theorem derives_authority (hg : Shares g) :
    Derives g (ref .authority) w ↔
      ∃ a : Authority, w = a.text ∧ Matches a.userinfo .userinfo ∧
        Derives g (ref .host) a.host ∧ Matches a.port .port := by
  have hrhs : g .authority = seq (opt (seq (ref .userinfo) (byte 64)))
      (seq (ref .host) (opt (seq (byte 58) (ref .port)))) :=
    hg _ (by decide) (by decide) (by decide)
  have hmatches := @matches_iff g hg
  rw [derives_ref, hrhs]
  simp only [derives_seq, derives_ended (show 64 < 256 by decide),
    derives_marked (show 58 < 256 by decide), hmatches (n := .userinfo) (by decide),
    hmatches (n := .port) (by decide)]
  constructor
  · rintro ⟨_, _, rfl, ⟨userinfo, rfl, hu⟩, host, _, rfl, hh, port, rfl, hp⟩
    exact ⟨⟨userinfo, host, port⟩, by simp [Authority.text], hu, hh, hp⟩
  · rintro ⟨a, rfl, hu, hh, hp⟩
    exact ⟨_, a.host ++ marked 58 a.port, by simp [Authority.text], ⟨_, rfl, hu⟩, _, _, rfl, hh, _,
      rfl, hp⟩

/-- The query and the fragment. -/
theorem derives_tail (hg : Shares g) :
    Derives g (seq (opt (seq (byte 63) (ref .query))) (opt (seq (byte 35) (ref .fragment)))) w ↔
      ∃ query fragment, w = marked 63 query ++ marked 35 fragment ∧
        Matches query .query ∧ Matches fragment .fragment := by
  have hmatches := @matches_iff g hg
  simp only [derives_seq, derives_marked (show 63 < 256 by decide),
    derives_marked (show 35 < 256 by decide), hmatches (n := .query) (by decide),
    hmatches (n := .fragment) (by decide)]
  constructor
  · rintro ⟨_, _, rfl, ⟨query, rfl, hq⟩, fragment, rfl, hf⟩
    exact ⟨query, fragment, rfl, hq, hf⟩
  · rintro ⟨query, fragment, rfl, hq, hf⟩
    exact ⟨_, _, rfl, ⟨query, rfl, hq⟩, fragment, rfl, hf⟩

/-- `hier_part` and `relative_part`, with the path that does not begin with a slash. -/
theorem derives_hierarchy (hg : Shares g) {n rootless : Production}
    (hrhs : g n = alts (seqs [byte 47, byte 47, ref .authority, ref .pathAbempty])
      [ref .pathAbsolute, ref rootless, ref .pathEmpty]) (hrootless : rootless ∈ hostless) :
    Derives g (ref n) w ↔
      (∃ (a : Authority) (path : List UInt8), w = [47, 47] ++ a.text ++ path ∧
        Matches a.userinfo .userinfo ∧ Derives g (ref .host) a.host ∧ Matches a.port .port ∧
        Derives uriRl (ref .pathAbempty) path) ∨
      Derives uriRl (ref .pathAbsolute) w ∨ Derives uriRl (ref rootless) w ∨ w = [] := by
  have hempty : Derives g (ref .pathEmpty) w ↔ w = [] := by
    rw [derives_hostless hg (by decide), derives_ref]
    exact derives_empty
  have hrhs' : g n = .alt (seq (byte 47) (seq (byte 47) (seq (ref .authority) (ref .pathAbempty))))
      (.alt (ref .pathAbsolute) (.alt (ref rootless) (ref .pathEmpty))) := hrhs
  rw [derives_ref, hrhs', derives_alt, derives_alt, derives_alt, hempty,
    derives_hostless hg (n := .pathAbsolute) (by decide), derives_hostless hg hrootless]
  refine or_congr_left ?_
  simp only [derives_seq, derives_byte (show 47 < 256 by decide), derives_authority hg,
    derives_hostless hg (n := .pathAbempty) (by decide)]
  constructor
  · rintro ⟨_, _, rfl, rfl, _, _, rfl, rfl, _, path, rfl, ⟨a, rfl, hu, hh, hp⟩, hpath⟩
    exact ⟨a, path, by simp, hu, hh, hp, hpath⟩
  · rintro ⟨a, path, rfl, hu, hh, hp, hpath⟩
    exact ⟨_, _, by simp, rfl, _, a.text ++ path, rfl, rfl, _, _, rfl, ⟨a, rfl, hu, hh, hp⟩, hpath⟩

/-- The references with a scheme and those without one. -/
theorem derives_uriReference (hg : Shares g) :
    Derives g (ref .uriReference) s ↔
      ∃ (scheme : Option (List UInt8)) (w : List UInt8) (query fragment : Option (List UInt8)),
        s = ended 58 scheme ++ w ++ (marked 63 query ++ marked 35 fragment) ∧
        Matches scheme .scheme ∧
        Derives g (ref (if scheme.isSome then .hierPart else .relativePart)) w ∧
        Matches query .query ∧ Matches fragment .fragment := by
  have hreference : g .uriReference = .alt (ref .uri) (ref .relativeRef) :=
    hg _ (by decide) (by decide) (by decide)
  have huri : g .uri = seq (ref .scheme) (seq (byte 58) (seq (ref .hierPart)
      (seq (opt (seq (byte 63) (ref .query))) (opt (seq (byte 35) (ref .fragment)))))) :=
    hg _ (by decide) (by decide) (by decide)
  have hrelative : g .relativeRef = seq (ref .relativePart)
      (seq (opt (seq (byte 63) (ref .query))) (opt (seq (byte 35) (ref .fragment)))) :=
    hg _ (by decide) (by decide) (by decide)
  rw [derives_ref, hreference, derives_alt, derives_ref, huri, derives_ref, hrelative]
  rw [derives_seq, derives_seq]
  constructor
  · rintro (⟨scheme, _, rfl, hscheme, h⟩ | ⟨w, _, rfl, hw, htail⟩)
    · obtain ⟨_, _, rfl, hcolon, h⟩ := derives_seq.mp h
      obtain ⟨w, _, rfl, hw, htail⟩ := derives_seq.mp h
      obtain ⟨query, fragment, rfl, hq, hf⟩ := (derives_tail hg).mp htail
      obtain rfl := (derives_byte (by decide)).mp hcolon
      refine ⟨some scheme, w, query, fragment, by simp [ended], ?_, hw, hq, hf⟩
      rintro _ ⟨⟩
      exact (derives_hostless hg (by decide) _).mp hscheme
    · obtain ⟨query, fragment, rfl, hq, hf⟩ := (derives_tail hg).mp htail
      exact ⟨none, w, query, fragment, rfl, by simp [Matches], hw, hq, hf⟩
  · rintro ⟨scheme, w, query, fragment, rfl, hscheme, hw, hq, hf⟩
    have htail := (derives_tail hg).mpr ⟨query, fragment, rfl, hq, hf⟩
    cases scheme with
    | none => exact .inr ⟨w, _, rfl, hw, htail⟩
    | some scheme =>
        have hscheme' := (derives_hostless hg (by decide) _).mpr (hscheme scheme rfl)
        refine .inl ⟨scheme, _, ?_, hscheme', .seq ((derives_byte (by decide)).mpr rfl)
          (.seq hw htail)⟩
        simp [ended]

/-- **References**, of either grammar: with an authority, whose host is a word of the grammar,
or without. -/
theorem derives_iff_parts (hg : Shares g) :
    Derives g (ref .uriReference) s ↔
      (∃ p : Parts, s = p.text ∧ p.Framed ∧ Derives g (ref .host) p.authority.host) ∨
        ∃ o : Plain, s = o.text ∧ o.WellFormed := by
  have hparts (scheme : Option (List UInt8)) (w : List UInt8) :
      Derives g (ref (if scheme.isSome then .hierPart else .relativePart)) w ↔
        (∃ (a : Authority) (path : List UInt8), w = [47, 47] ++ a.text ++ path ∧
          Matches a.userinfo .userinfo ∧ Derives g (ref .host) a.host ∧ Matches a.port .port ∧
          Derives uriRl (ref .pathAbempty) path) ∨
        Derives uriRl (ref .pathAbsolute) w ∨
        Derives uriRl (ref (if scheme.isSome then .pathRootless else .pathNoscheme)) w ∨
        w = [] := by
    have hrelative : g .relativePart = uriRl .relativePart :=
      hg _ (by decide) (by decide) (by decide)
    have hhier : g .hierPart = uriRl .hierPart := hg _ (by decide) (by decide) (by decide)
    cases scheme with
    | none => exact derives_hierarchy hg hrelative (by decide)
    | some v =>
        have hrootless : Production.pathRootless ∈ hostless := by decide
        exact derives_hierarchy hg hhier hrootless
  rw [derives_uriReference hg]
  constructor
  · rintro ⟨scheme, w, query, fragment, rfl, hscheme, hw, hq, hf⟩
    rcases (hparts scheme w).mp hw with ⟨a, path, rfl, hu, hh, hp, hpath⟩ | hplain
    · exact .inl ⟨⟨scheme, a, path, query, fragment⟩, by simp [Parts.text],
        ⟨hscheme, hu, hp, hpath, hq, hf⟩, hh⟩
    · exact .inr ⟨⟨scheme, w, query, fragment⟩, rfl, hscheme, hplain, hq, hf⟩
  · rintro (⟨p, rfl, h, hh⟩ | ⟨o, rfl, h⟩)
    · exact ⟨p.scheme, [47, 47] ++ p.authority.text ++ p.path, p.query, p.fragment,
        by simp [Parts.text], h.scheme,
        (hparts _ _).mpr (.inl ⟨_, _, rfl, h.userinfo, hh, h.port, h.path⟩), h.query, h.fragment⟩
    · exact ⟨o.scheme, o.path, o.query, o.fragment, rfl, h.scheme, (hparts _ _).mpr (.inr h.path),
        h.query, h.fragment⟩

end Mingo.Uri
