import Mingo.Uri.Ipv6
import Mingo.Uri.Unique

/-!
# Which texts are accepted

Text of a reference comes down to its host, and hosts to what is between the brackets.

* `host_of_rfc`, `not_lost`, `host_of_uriRl` -- the hosts of the RFC that uri.rl has not, and
  the other way round;
* `acceptsRight_iff` -- so a text is accepted as the RFC wants it exactly when its host is none
  of these, and its port is not empty behind a scheme.
-/

namespace Mingo.Uri

open Grammar (Derives derives_alt derives_byte derives_ref derives_seq)
open Grammar.Expr (alts byte plus ref seq seqs)
open Http (bytes)
open Scanner (inClass)

variable {g : Production → Rhs} {h s v x : List UInt8}

/-! ### Hosts -/

/-- Both grammars have the same registered names. -/
theorem derives_regName (hg : Shares g) :
    Derives g (ref .regName) v ↔ Derives uriRl (ref .regName) v := by
  have hrhs : g .regName = uriRl .regName := hg _ (by decide) (by decide) (by decide)
  rw [derives_ref, derives_ref, hrhs]
  exact derives_shared hg (by decide)

/-- An address, or a name. -/
theorem derives_host (hg : Shares g) :
    Derives g (ref .host) h ↔
      (∃ x, h = 91 :: x ++ [93] ∧
        (Derives g (ref .ipv6Address) x ∨ Derives g (ref .ipvFuture) x)) ∨
      Derives g (ref .ipv4Address) h ∨ Derives uriRl (ref .regName) h := by
  have hhost : g .host = .alt (ref .ipLiteral) (.alt (ref .ipv4Address) (ref .regName)) :=
    hg .host (by decide) (by decide) (by decide)
  have hliteral : g .ipLiteral =
      seq (byte 91) (seq (.alt (ref .ipv6Address) (ref .ipvFuture)) (byte 93)) :=
    hg .ipLiteral (by decide) (by decide) (by decide)
  rw [derives_ref, hhost, derives_alt, derives_alt, derives_ref, hliteral, derives_regName hg]
  refine or_congr_left ?_
  simp only [derives_seq, derives_alt, derives_byte (show 91 < 256 by decide),
    derives_byte (show 93 < 256 by decide)]
  constructor
  · rintro ⟨_, _, rfl, rfl, x, _, rfl, hx, rfl⟩
    exact ⟨x, by simp, hx⟩
  · rintro ⟨x, rfl, hx⟩
    exact ⟨[91], x ++ [93], by simp, rfl, x, [93], rfl, hx, rfl⟩

/-- `IPvFuture` behind its letter. -/
def futureRest : Rhs :=
  seqs [plus xdigit, byte 46, plus (alts (ref .unreserved) [ref .subDelims, byte 58])]

/-- `IPvFuture` with the letters `on` at its beginning. -/
theorem derives_future (hg : Shares g) {on : List (Nat × Nat)}
    (hrhs : g .ipvFuture = ipvFuture (.chars on)) :
    Derives g (ref .ipvFuture) x ↔
      ∃ c y, x = c :: y ∧ inClass on c = true ∧ Derives uriRl futureRest y := by
  have hseq : ipvFuture (.chars on) = seq (.chars on) futureRest := rfl
  rw [derives_ref, hrhs, hseq, derives_seq]
  constructor
  · rintro ⟨_, y, rfl, hletter, hy⟩
    obtain ⟨c, hc, rfl⟩ := Grammar.derives_chars.mp hletter
    exact ⟨c, y, rfl, hc, (derives_shared hg (by decide)).mp hy⟩
  · rintro ⟨c, y, rfl, hc, hy⟩
    exact ⟨[c], y, rfl, .chars hc, (derives_shared hg (by decide)).mpr hy⟩

/-- A host of the RFC that uri.rl does not have. -/
def Lost (h : List UInt8) : Prop :=
  ∃ x, h = 91 :: x ++ [93] ∧
    (x.head? = some 86 ∨ Derives rfc3986 (ref .ipv6Address) x ∧ (TooFew x ∨ HighOctet x))

/-- The RFC takes the letter in either case. -/
theorem derives_rfcFuture : Derives rfc3986 (ref .ipvFuture) x ↔
    ∃ c y, x = c :: y ∧ inClass [(86, 86), (118, 118)] c = true ∧ Derives uriRl futureRest y :=
  derives_future shares_rfc3986 rfl

/-- uri.rl takes the small letter only. -/
theorem derives_uriRlFuture : Derives uriRl (ref .ipvFuture) x ↔
    ∃ c y, x = c :: y ∧ inClass [(118, 118)] c = true ∧ Derives uriRl futureRest y :=
  derives_future shares_uriRl rfl

/-- An IPv4 address of digits and dots is a name. -/
theorem name_of_ipv4 (hg : g = uriRl ∨ g = rfc3986) (hh : Derives g (ref .ipv4Address) h)
    (hno : 2 ∉ h) : Derives uriRl (ref .regName) h := by
  refine .ref (Grammar.derives_star_bytes fun b hb => .left (.ref (.chars ?_)))
  have hne : b ≠ 2 := ne_of_mem_of_not_mem hb hno
  have hall := Scanner.forall_byte (P := fun b => !inClass [(2, 2), (46, 46), (48, 57)] b ||
    b == 2 || inClass [(45, 46), (48, 57), (65, 90), (95, 95), (97, 122), (126, 126)] b)
    (by decide +kernel) b
  simpa [ipv4_bytes hg hh b hb, hne] using hall

/-- A host of the RFC is one of uri.rl, unless it is lost. -/
theorem host_of_rfc (hh : Derives rfc3986 (ref .host) h) :
    Derives uriRl (ref .host) h ∨ Lost h := by
  rcases (derives_host shares_rfc3986).mp hh with ⟨x, rfl, hx | hx⟩ | hh | hh
  · rcases address_of_rfc hx with hx' | hlost
    · exact .inl ((derives_host shares_uriRl).mpr (.inl ⟨x, rfl, .inl hx'⟩))
    · exact .inr ⟨x, rfl, .inr ⟨hx, hlost⟩⟩
  · obtain ⟨c, y, rfl, hc, hy⟩ := derives_rfcFuture.mp hx
    by_cases hv : c = 86
    · exact .inr ⟨c :: y, rfl, .inl (by rw [hv]; rfl)⟩
    · have hall := Scanner.forall_byte (P := fun c => !inClass [(86, 86), (118, 118)] c ||
        c == 86 || inClass [(118, 118)] c) (by decide +kernel) c
      have hc' : inClass [(118, 118)] c = true := by simpa [hc, hv] using hall
      have hfuture := derives_uriRlFuture.mpr ⟨c, y, rfl, hc', hy⟩
      exact .inl ((derives_host shares_uriRl).mpr (.inl ⟨c :: y, rfl, .inr hfuture⟩))
  · have hno : 2 ∉ h := by
      have hbytes : ∀ b ∈ h, inClass [(46, 46), (48, 57)] b = true := hh.bytes 20 (by decide)
      exact fun hmem => absurd (hbytes 2 hmem) (by decide)
    exact .inl ((derives_host shares_uriRl).mpr (.inr (.inr (name_of_ipv4 (.inr rfl) hh hno))))
  · exact .inl ((derives_host shares_uriRl).mpr (.inr (.inr hh)))

/-- An address has neither a `V` nor a `v`. -/
theorem address_head (hg : g = uriRl ∨ g = rfc3986) (hx : Derives g (ref .ipv6Address) x)
    {b : UInt8} (hb : x.head? = some b) : inClass [(86, 86), (118, 118)] b = false := by
  have hbytes : ∀ b ∈ x, inClass [(2, 2), (46, 46), (48, 58), (65, 70), (97, 102)] b = true := by
    rcases hg with rfl | rfl
    · exact hx.bytes 30 (by decide)
    · exact hx.bytes 30 (by decide)
  exact Scanner.inClass_of_apart (by decide) (hbytes b (List.mem_of_mem_head? hb))

/-- No host of uri.rl is lost. -/
theorem not_lost (hh : Derives uriRl (ref .host) h) : ¬ Lost h := by
  rintro ⟨x, rfl, hlost⟩
  have hname {on : List (Nat × Nat)} (hbytes : ∀ b ∈ 91 :: x ++ [93], inClass on b = true)
      (hon : inClass on 91 = false) : False := by
    have h91 := hbytes 91 (by simp)
    rw [hon] at h91
    cases h91
  rcases (derives_host shares_uriRl).mp hh with ⟨x', heq, hx⟩ | hh | hh
  · obtain rfl : x = x' := by simpa using heq
    rcases hx with hx | hx
    · rcases hlost with hhead | ⟨-, hfew | hhigh⟩
      · exact absurd (address_head (.inl rfl) hx hhead) (by decide)
      · exact not_tooFew hx hfew
      · exact not_highOctet hx hhigh
    · obtain ⟨c, y, rfl, hc, -⟩ := derives_uriRlFuture.mp hx
      rcases hlost with hhead | ⟨haddress, -⟩
      · obtain rfl := Option.some.inj hhead
        exact absurd hc (by decide)
      · have hletter := address_head (.inr rfl) haddress rfl
        have hcovers : Scanner.covers [(86, 86), (118, 118)] [(118, 118)] = true := by decide
        rw [Scanner.inClass_of_covers hcovers hc] at hletter
        cases hletter
  · exact hname (ipv4_bytes (.inl rfl) hh) (by decide)
  · have hbytes : ∀ b ∈ 91 :: x ++ [93], inClass hostByte b = true := hh.bytes 20 (by decide)
    exact hname hbytes (by decide)

/-- A host of uri.rl without the byte 2 is one of the RFC. -/
theorem host_of_uriRl (hh : Derives uriRl (ref .host) h) (hno : 2 ∉ h) :
    Derives rfc3986 (ref .host) h := by
  refine (derives_host shares_rfc3986).mpr ?_
  rcases (derives_host shares_uriRl).mp hh with ⟨x, rfl, hx | hx⟩ | hh | hh
  · have hno' : 2 ∉ x := fun hmem => hno (by simp [hmem])
    exact .inl ⟨x, rfl, .inl (address_of_uriRl hx hno')⟩
  · obtain ⟨c, y, rfl, hc, hy⟩ := derives_uriRlFuture.mp hx
    have hcovers : Scanner.covers [(86, 86), (118, 118)] [(118, 118)] = true := by decide
    exact .inl ⟨c :: y, rfl,
      .inr (derives_rfcFuture.mpr ⟨c, y, rfl, Scanner.inClass_of_covers hcovers hc, hy⟩)⟩
  · exact .inr (.inr (name_of_ipv4 (.inl rfl) hh hno))
  · exact .inr (.inr hh)

/-! ### Texts -/

/-- The text is made an object exactly when it is a reference of the RFC, and then it has no
control character. -/
structure AcceptsRight (s : List UInt8) : Prop where
  reference : (∃ u, create s = some (some u)) ↔ Derives rfc3986 (ref .uriReference) s
  printable : (∃ u, create s = some (some u)) → ∀ b ∈ s, 32 ≤ b ∧ b ≠ 127

/-- The references of the RFC have no control character. -/
theorem reference_printable (h : Derives rfc3986 (ref .uriReference) s) :
    ∀ b ∈ s, 32 ≤ b ∧ b ≠ 127 := by
  have hwithin : Grammar.within rfc3986 [(33, 126), (128, 255)] 60 (ref .uriReference) = true := by
    decide +kernel
  intro b hb
  have hall := Scanner.forall_byte (P := fun b => !inClass [(33, 126), (128, 255)] b ||
    decide (32 ≤ b ∧ b ≠ 127)) (by decide +kernel) b
  simpa [h.bytes 60 hwithin b hb] using hall

/-- **A text is accepted as it should be** exactly when its host, if it has an authority, is one
of both grammars, and its port is not empty behind a scheme. -/
theorem acceptsRight_iff (s : List UInt8) :
    AcceptsRight s ↔ ∀ x : Parts, s = x.text → x.Framed →
      (Derives rfc3986 (ref .host) x.authority.host → ¬ Lost x.authority.host ∧ ¬ x.EmptyPort) ∧
      (Derives uriRl (ref .host) x.authority.host → 2 ∈ x.authority.host → x.EmptyPort) := by
  constructor
  · rintro ⟨hreference, hprintable⟩ x rfl hx
    constructor
    · intro hrfc
      have hderives := (derives_iff_parts shares_rfc3986).mpr (.inl ⟨x, rfl, hx, hrfc⟩)
      have hdelimited := hx.delimited (hostForm_of_derives (.inr rfl) hrfc)
      rcases created_iff.mp (hreference.mpr hderives) with
        ⟨x', htext, hx', hhost, hport⟩ | ⟨o, htext, ho⟩
      · obtain rfl := Parts.unique hdelimited
          (hx'.delimited (hostForm_of_derives (.inl rfl) hhost)) htext
        exact ⟨not_lost hhost, hport⟩
      · exact absurd htext (Parts.text_ne_plain hdelimited ho)
    · intro huriRl hmem
      by_contra hport
      have hcreated := created_iff.mpr (.inl ⟨x, rfl, hx, huriRl, hport⟩)
      have htwo := hprintable hcreated 2 (by simp [Parts.text, Authority.text, hmem])
      revert htwo
      decide
  · intro hall
    have hto : (∃ u, create s = some (some u)) → Derives rfc3986 (ref .uriReference) s := by
      intro hcreated
      refine (derives_iff_parts shares_rfc3986).mpr ?_
      rcases created_iff.mp hcreated with ⟨x, hs, hx, hhost, hport⟩ | hplain
      · have hno : 2 ∉ x.authority.host := fun hmem => hport ((hall x hs hx).2 hhost hmem)
        exact .inl ⟨x, hs, hx, host_of_uriRl hhost hno⟩
      · exact .inr hplain
    refine ⟨⟨hto, ?_⟩, fun hcreated => reference_printable (hto hcreated)⟩
    intro hderives
    rcases (derives_iff_parts shares_rfc3986).mp hderives with ⟨x, hs, hx, hrfc⟩ | hplain
    · obtain ⟨hlost, hport⟩ := (hall x hs hx).1 hrfc
      have hhost := (host_of_rfc hrfc).resolve_right hlost
      exact created_iff.mpr (.inl ⟨x, hs, hx, hhost, hport⟩)
    · exact created_iff.mpr (.inr hplain)

/-- Hosts that are lost, an empty port, and a byte 2 where a digit should stand. -/
theorem not_acceptsRight_samples :
    ¬ AcceptsRight (bytes "http://[fe80::1]/") ∧ ¬ AcceptsRight (bytes "http://[::200.1.1.1]/") ∧
    ¬ AcceptsRight (bytes "http://[V1.a]/") ∧ ¬ AcceptsRight (bytes "http://h:/") ∧
    ¬ AcceptsRight (bytes "http://" ++ 2 :: bytes "00.1.1.1/") := by
  have hlost {s : List UInt8} (h : Grammar.reads rfc3986 40 [[ref .uriReference]] s = some true ∧
      (create s).join = none) : ¬ AcceptsRight s := by
    intro haccepts
    obtain ⟨u, hu⟩ := haccepts.reference.mpr ((Grammar.derives_iff_reads 40 h.1).mpr rfl)
    rw [hu] at h
    cases h.2
  have htwo : (create (bytes "http://" ++ 2 :: bytes "00.1.1.1/")).join.isSome = true := by
    decide +kernel
  refine ⟨hlost (by decide +kernel), hlost (by decide +kernel), hlost (by decide +kernel),
    hlost (by decide +kernel), ?_⟩
  intro haccepts
  obtain ⟨u, hu⟩ := Option.isSome_iff_exists.mp htwo
  have hbyte := haccepts.printable ⟨u, Option.join_eq_some_iff.mp hu⟩ 2 (by simp)
  revert hbyte
  decide

end Mingo.Uri
