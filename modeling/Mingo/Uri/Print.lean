import Mingo.Uri.Components
import Mingo.Uri.Unique

/-!
# Printing and reading again

`toString` writes the parts of an object as a reference with an authority.  A default port
and empty parts are left out, and an empty path is written as `/`.

* `create_toString` -- what is read again, for an object whose parts are words;
* `not_created_negative` -- a negative port is written with its sign, and not read again;
* `roundTrips_iff` -- so an accepted text survives unless its port is read as a negative
  number, or a userinfo that has lost its beginning loses it once more.
-/

namespace Mingo.Uri

open Grammar (Derives)
open Grammar.Expr (ref)
open Http (bytes decimal)
open Scanner (inClass)

variable {u : Uri} {s v : List UInt8}

/-! ### Decimal numbers -/

/-- The digits 0 to 9 have their value. -/
theorem digitValue_of_range {b : UInt8} (h : 48 ≤ b.toNat ∧ b.toNat ≤ 57) :
    Http.digitValue b = b.toNat - 48 ∧ Http.digitValue b < 10 := by
  have hbyte : 48 ≤ b ∧ b ≤ 57 := by simpa [UInt8.le_iff_toNat_le] using h
  rw [Http.digitValue, if_pos hbyte]
  exact ⟨rfl, by omega⟩

/-- The value of digits, as that of characters. -/
theorem digitsValue_eq (hv : ∀ b ∈ v, 48 ≤ b.toNat ∧ b.toNat ≤ 57) (n : Nat) :
    Http.digitsValue 10 n v = Nat.ofDigitChars 10 (v.map fun b => Char.ofNat b.toNat) n := by
  induction v generalizing n with
  | nil => rfl
  | cons b v ih =>
      have hb := hv b List.mem_cons_self
      obtain ⟨hvalue, hlt⟩ := digitValue_of_range hb
      have hchar : (Char.ofNat b.toNat).toNat = b.toNat := by
        have hall := Scanner.forall_byte (P := fun b => (Char.ofNat b.toNat).toNat == b.toNat)
          (by decide +kernel) b
        simpa using hall
      rw [Http.digitsValue, if_pos hlt, ih fun c hc => hv c (List.mem_cons_of_mem b hc), hvalue,
        List.map_cons, Nat.ofDigitChars_cons, hchar, Nat.mul_comm]
      rfl

/-- The decimal text of a number has its value. -/
theorem digitsValue_decimal (n : Nat) : Http.digitsValue 10 0 (decimal n) = n := by
  rw [digitsValue_eq fun _ => Http.decimal_digits, Http.chars_decimal,
    Nat.ofDigitChars_ten_toDigits]

/-- It is a port of the grammar, -/
theorem derives_decimal (n : Nat) : Derives uriRl (ref .port) (decimal n) := by
  refine .ref (Grammar.derives_star_bytes fun b hb => .chars ?_)
  simpa [inClass, Scanner.digit] using Http.decimal_digits hb

/-- and it is not empty. -/
theorem decimal_ne_nil (n : Nat) : decimal n ≠ [] := by
  rw [decimal, ne_eq, List.map_eq_nil_iff]
  exact Nat.toDigits_ne_nil

/-! ### What is written -/

/-- A part that is written unless it is empty. -/
def unlessEmpty (v : List UInt8) : Option (List UInt8) := if v = [] then none else some v

/-- The parts that `toString` writes. -/
def parts (u : Uri) : Parts where
  scheme := some u.scheme
  authority :=
    ⟨unlessEmpty u.userinfo, u.host, if u.isDefaultPort then none else some (decimalInt u.port)⟩
  path := u.getPath
  query := unlessEmpty u.query
  fragment := unlessEmpty u.fragment

/-- A part that is left out when it is empty, with its mark in front, -/
theorem marked_unlessEmpty (b : UInt8) (v : List UInt8) :
    marked b (unlessEmpty v) = (if v = [] then [] else [b]) ++ v := by
  by_cases h : v = []
  · simp [unlessEmpty, marked, h]
  · simp [unlessEmpty, marked, h]

/-- and with its mark behind. -/
theorem ended_unlessEmpty (b : UInt8) (v : List UInt8) :
    ended b (unlessEmpty v) = v ++ if v = [] then [] else [b] := by
  by_cases h : v = []
  · simp [unlessEmpty, ended, h]
  · simp [unlessEmpty, ended, h]

/-- **What `toString` writes** is the text of the parts. -/
theorem toString_eq (u : Uri) : u.toString = u.parts.text := by
  have hbytes : bytes "://" = [58, 47, 47] ∧ bytes "@" = [64] ∧ bytes ":" = [58] ∧
      bytes "?" = [63] ∧ bytes "#" = [35] := by decide
  obtain ⟨hscheme, hat, hcolon, hquery, hfragment⟩ := hbytes
  have hport : marked 58 u.parts.authority.port =
      if u.isDefaultPort then [] else [58] ++ decimalInt u.port := by
    rw [parts]
    by_cases h : u.isDefaultPort = true
    · simp [marked, h]
    · simp [marked, h]
  have hfront : ended 58 u.parts.scheme = u.scheme ++ [58] := rfl
  rw [toString, dump, Parts.text, Authority.text, hport, hfront, hscheme, hat, hcolon, hquery,
    hfragment]
  simp [parts, ended_unlessEmpty, marked_unlessEmpty]

/-- The components are words of their productions, as `create` makes them. -/
structure Words (u : Uri) : Prop where
  scheme : Derives uriRl (ref .scheme) u.scheme
  userinfo : Derives uriRl (ref .userinfo) u.userinfo
  host : Derives uriRl (ref .host) u.host
  path : Derives uriRl (ref .pathAbempty) u.path
  query : Derives uriRl (ref .query) u.query
  fragment : Derives uriRl (ref .fragment) u.fragment

/-- The path that is written is a word, too, -/
theorem Words.getPath (hu : u.Words) : Derives uriRl (ref .pathAbempty) u.getPath := by
  have hslash : Derives uriRl (ref .pathAbempty) (bytes "/") :=
    derives_of_isWord (by decide +kernel)
  rw [Uri.getPath]
  split
  · exact hslash
  · exact hu.path

/-- and never empty. -/
theorem getPath_ne_nil (u : Uri) : u.getPath ≠ [] := by
  have hslash : bytes "/" ≠ [] := by decide
  rw [getPath]
  split
  · exact hslash
  · assumption

/-- A part that is left out when it is empty matches its production. -/
theorem matches_unlessEmpty {n : Production} (hv : Derives uriRl (ref n) v) :
    Matches (unlessEmpty v) n := by
  intro w hw
  obtain ⟨-, rfl⟩ : v ≠ [] ∧ v = w := by simpa [unlessEmpty] using hw
  exact hv

/-- A port that is no negative number is written as digits. -/
theorem Words.framed (hu : u.Words) (hport : 0 ≤ u.port) : u.parts.Framed := by
  refine ⟨?_, matches_unlessEmpty hu.userinfo, ?_, hu.getPath, matches_unlessEmpty hu.query,
    matches_unlessEmpty hu.fragment⟩
  · rintro _ ⟨⟩
    exact hu.scheme
  · intro d hd
    obtain ⟨-, rfl⟩ : u.isDefaultPort = false ∧ decimalInt u.port = d := by
      simpa [parts] using hd
    rw [decimalInt, if_neg (by omega)]
    exact derives_decimal _

/-- A negative one is still free of the delimiters. -/
theorem Words.delimited (hu : u.Words) : u.parts.Delimited := by
  have hnoport : ({ u with port := 0 } : Uri).parts.Delimited := by
    have hwords : ({ u with port := 0 } : Uri).Words :=
      ⟨hu.scheme, hu.userinfo, hu.host, hu.path, hu.query, hu.fragment⟩
    exact (hwords.framed (le_refl _)).delimited (hostForm_of_derives (.inl rfl) hu.host)
  obtain ⟨hs, ⟨huser, hhost, -⟩, hslash, hpath, hquery⟩ := hnoport
  refine ⟨hs, ⟨huser, hhost, ?_⟩, hslash, hpath, hquery⟩
  intro d hd
  obtain ⟨-, rfl⟩ : u.isDefaultPort = false ∧ decimalInt u.port = d := by
    simpa [parts] using hd
  have hdigits : Free userinfoEnd (decimal u.port.natAbs) :=
    free_of_apart (by decide) (bytes_port (derives_decimal _))
  rw [decimalInt]
  split
  · exact free_cons (by decide) hdigits
  · exact hdigits

/-! ### What is read again -/

/-- What `create` makes of the text of an object. -/
def reread (u : Uri) : Uri :=
  { u with
    userinfo := kept u.userinfo
    path := u.getPath
    port := if u.isDefaultPort then 0 else u.port }

/-- `atoi` reads what `os << n` writes, for an `int`. -/
theorem atoi_decimal {n : Nat} (hn : n < 2 ^ 31) : Http.atoi (decimal n) = n := by
  have hvalue := digitsValue_decimal n
  rw [atoi_port (derives_decimal n) (decimal_ne_nil n) (by rwa [hvalue]), hvalue]

/-- **The text is made an object again**, the one of which `reread` tells. -/
theorem create_toString (hu : u.Words) (hport : 0 ≤ u.port) (hsmall : u.port < 2 ^ 31) :
    create u.toString = some (some u.reread) := by
  have hne : u.parts.authority.port ≠ some [] := by
    have hdecimal := decimal_ne_nil u.port.natAbs
    have hnonneg : ¬ u.port < 0 := by omega
    simp [parts, decimalInt, hnonneg, hdecimal]
  have hdecimal : Http.atoi (decimalInt u.port) = u.port := by
    rw [decimalInt, if_neg (by omega), atoi_decimal (by omega)]
    omega
  have hgetD (v : List UInt8) : (unlessEmpty v).getD [] = v := by
    by_cases h : v = []
    · simp [unlessEmpty, h]
    · simp [unlessEmpty, h]
  have hkept : (unlessEmpty u.userinfo).elim [] kept = kept u.userinfo := by
    by_cases h : u.userinfo = []
    · simp [unlessEmpty, h, kept]
    · simp [unlessEmpty, h]
  have hreread : u.parts.uri u.scheme = u.reread := by
    rw [Parts.uri, reread, parts]
    simp only [hgetD, hkept]
    by_cases h : u.isDefaultPort = true
    · simp [h]
    · simp [h, hdecimal]
  rw [toString_eq, create_parts (hu.framed hport) hu.host rfl, if_neg hne, hreread]

/-- A negative port is written with its sign, and that is no port. -/
theorem not_created_negative (hu : u.Words) (hport : u.port < 0) (u' : Uri) :
    create u.toString ≠ some (some u') := by
  intro h
  rw [toString_eq] at h
  have hderives := (accepts_iff _).mp (accepts_of_create h)
  rcases (derives_iff_parts shares_uriRl).mp hderives with ⟨x, htext, hx, hhost⟩ | ⟨o, htext, ho⟩
  · have hsame := Parts.unique hu.delimited (hx.delimited (hostForm_of_derives (.inl rfl) hhost))
      htext
    have hdefault : u.isDefaultPort = false := by
      have hne : u.port ≠ 0 ∧ u.port ≠ 80 ∧ u.port ≠ 443 := by omega
      simp [isDefaultPort, hne]
    have hport' : x.authority.port = some (45 :: decimal u.port.natAbs) := by
      rw [← hsame, parts]
      simp [hdefault, decimalInt, hport]
    have hdigit := bytes_port (hx.port _ hport') 45 List.mem_cons_self
    revert hdigit
    decide
  · exact Parts.text_ne_plain hu.delimited ho htext

/-! ### Round trips -/

/-- The text of the object is made an object again, and the getters return the same. -/
def RoundTrips (u : Uri) : Prop :=
  ∃ u', create u.toString = some (some u') ∧ u'.scheme = u.scheme ∧ u'.userinfo = u.userinfo ∧
    u'.host = u.host ∧ u'.getPort = u.getPort ∧ u'.getPath = u.getPath ∧ u'.query = u.query ∧
    u'.fragment = u.fragment

/-- The default port is left out and comes back from the scheme. -/
theorem getPort_reread (u : Uri) : u.reread.getPort = u.getPort := by
  have hhttp : bytes "https" ≠ bytes "http" ∧ bytes "https" ≠ bytes "ws" ∧
      bytes "wss" ≠ bytes "http" ∧ bytes "wss" ≠ bytes "ws" := by decide
  by_cases hdefault : u.isDefaultPort = true
  · rw [reread, if_pos hdefault]
    rw [isDefaultPort] at hdefault
    split at hdefault
    · next hport => simp [getPort, hport]
    · next hport =>
        split at hdefault
        · next hs =>
            have h80 : u.port = 80 := by simpa using hdefault
            simp [getPort, hs, h80]
        · next hs =>
            split at hdefault
            · next hs' =>
                have h443 : u.port = 443 := by simpa using hdefault
                simp [getPort, hs, hs', h443]
            · cases hdefault
  · rw [reread, if_neg hdefault]
    rfl

/-- The empty path is written as `/` and comes back so. -/
theorem getPath_reread (u : Uri) : u.reread.getPath = u.getPath := by
  have hpath : u.reread.path = u.getPath := rfl
  rw [getPath, hpath, if_neg (getPath_ne_nil u)]

/-- **Round trips** of an object whose parts are words. -/
theorem Words.rereads_iff (hu : u.Words) (hsmall : u.port < 2 ^ 31) :
    u.RoundTrips ↔ 0 ≤ u.port ∧ kept u.userinfo = u.userinfo := by
  by_cases hport : 0 ≤ u.port
  · have hcreate := create_toString hu hport hsmall
    constructor
    · rintro ⟨u', hu', -, hsame, -⟩
      rw [hcreate, Option.some.injEq, Option.some.injEq] at hu'
      rw [← hu'] at hsame
      exact ⟨hport, hsame⟩
    · rintro ⟨-, hsame⟩
      exact ⟨u.reread, hcreate, rfl, hsame, rfl, getPort_reread u, getPath_reread u, rfl, rfl⟩
  · refine iff_of_false ?_ fun h => hport h.1
    rintro ⟨u', hu', -⟩
    exact not_created_negative hu (by omega) u' hu'

/-! ### The accepted texts -/

/-- A colon in a userinfo is a piece of its own. -/
theorem piece_of_colon {w : List UInt8}
    (hw : Derives uriRl (.alt (ref .unreserved)
      (.alt (ref .pctEncoded) (.alt (ref .subDelims) (Grammar.Expr.byte 58)))) w)
    (hmem : 58 ∈ w) : w = [58] := by
  have hsingle {on : List (Nat × Nat)} (h : Derives uriRl (.chars on) w) : w = [58] := by
    obtain ⟨b, -, rfl⟩ := Grammar.derives_chars.mp h
    rw [List.mem_singleton.mp hmem]
  rcases Grammar.derives_alt.mp hw with h | h
  · exact hsingle (Grammar.derives_ref.mp h)
  rcases Grammar.derives_alt.mp h with h | h
  · have hbytes : ∀ b ∈ w, inClass ((37, 37) :: Scanner.xdigit) b = true := h.bytes 20 (by decide)
    exact absurd (hbytes 58 hmem) (by decide)
  rcases Grammar.derives_alt.mp h with h | h
  · exact hsingle (Grammar.derives_ref.mp h)
  · exact hsingle h

/-- What is kept of a userinfo is a userinfo. -/
theorem derives_kept {w : List UInt8} (hw : Derives uriRl (ref .userinfo) w) :
    Derives uriRl (ref .userinfo) (kept w) := by
  rcases kept_cases w with ⟨hkept, -⟩ | ⟨a, d, c, rfl, -, -, hkept⟩
  · rwa [hkept]
  · rw [hkept]
    have hstar := Grammar.derives_star_behind (fun _ => piece_of_colon) (Grammar.derives_ref.mp hw)
    exact .ref hstar

/-- A part that is missing is the empty word. -/
theorem derives_getD {part : Option (List UInt8)} {n : Production} (h : Matches part n)
    (hnil : Derives uriRl (ref n) []) : Derives uriRl (ref n) (part.getD []) := by
  cases part with
  | none => exact hnil
  | some v => exact h v rfl

/-- What `create` makes of words is made of words. -/
theorem words_parts {x : Parts} {scheme : List UInt8} (hx : x.Framed)
    (hhost : Derives uriRl (ref .host) x.authority.host) (hscheme : x.scheme = some scheme) :
    (x.uri scheme).Words := by
  refine ⟨hx.scheme scheme hscheme, ?_, hhost, hx.path, derives_getD hx.query (.ref .starNil),
    derives_getD hx.fragment (.ref .starNil)⟩
  rw [Parts.uri]
  cases hu : x.authority.userinfo with
  | none => exact .ref .starNil
  | some w => exact derives_kept (hx.userinfo w hu)

/-- So is what it makes of a text without an authority. -/
theorem words_plain {o : Plain} {scheme : List UInt8} (ho : o.WellFormed)
    (hscheme : o.scheme = some scheme) : (o.uri scheme).Words := by
  have hnil : isWord .host [] = true ∧ isWord .pathAbempty [] = true := by decide +kernel
  exact ⟨ho.scheme scheme hscheme, .ref .starNil, derives_of_isWord hnil.1,
    derives_of_isWord hnil.2, derives_getD ho.query (.ref .starNil),
    derives_getD ho.fragment (.ref .starNil)⟩

/-- The decimal number is read by `atoi` as a negative one. -/
def NegativePort (d : List UInt8) : Prop :=
  2 ^ 31 ≤ min (2 ^ 63 - 1) (Http.digitsValue 10 0 d) % 2 ^ 32

/-- Behind the digit from which on the userinfo is kept, there is such a digit again. -/
def LosesTwice (w : List UInt8) : Prop :=
  ∃ a d c, w = a ++ 58 :: d :: c ∧ 58 ∉ a ∧ inClass Scanner.digit d = true ∧
    DigitBehindColon (d :: c)

/-- A number becomes negative when its 32nd bit is set, -/
theorem longToInt_neg_iff (n : Nat) : Http.longToInt n < 0 ↔ 2 ^ 31 ≤ n % 2 ^ 32 := by
  have hmod : ((n : Int) % 2 ^ 32).toNat = n % 2 ^ 32 := by omega
  rw [Http.longToInt, hmod, toInt32, toSigned, Nat.mod_mod]
  split <;> omega

/-- and it is an `int` in any case. -/
theorem longToInt_lt (n : Nat) : Http.longToInt n < 2 ^ 31 := by
  have hmod : ((n : Int) % 2 ^ 32).toNat = n % 2 ^ 32 := by omega
  rw [Http.longToInt, hmod, toInt32, toSigned, Nat.mod_mod]
  split <;> omega

/-- What a port is read as. -/
theorem atoi_eq {d : List UInt8} (hd : Derives uriRl (ref .port) d) (hne : d ≠ []) :
    Http.atoi d = Http.longToInt (min (2 ^ 63 - 1) (Http.digitsValue 10 0 d) : Nat) := by
  have hatoi := atoi_digits hne (bytes_port hd) endsNumber_nil
  rw [List.append_nil] at hatoi
  rw [hatoi]
  congr 1
  omega

/-- What is kept of a userinfo is kept whole, unless it loses a front once more. -/
theorem kept_kept_iff (w : List UInt8) : kept (kept w) = kept w ↔ ¬ LosesTwice w := by
  rcases kept_cases w with ⟨hkept, hno⟩ | ⟨a, d, c, rfl, ha, hd, hkept⟩
  · refine iff_of_true (by rw [hkept, hkept]) ?_
    rintro ⟨a, d, c, hw, ha, hd, -⟩
    exact hno ⟨a, d, c, hw, ha, hd⟩
  · rw [hkept, kept_eq_iff, not_iff_not]
    constructor
    · exact fun h => ⟨a, d, c, rfl, ha, hd, h⟩
    · rintro ⟨a', d', c', heq, ha', -, h⟩
      obtain ⟨-, hrest⟩ := colon_unique ha ha' heq
      rwa [hrest]

/-- A URI with an authority. -/
theorem roundTrips_parts {x : Parts} (hx : x.Framed)
    (hhost : Derives uriRl (ref .host) x.authority.host)
    (hcreate : create x.text = some (some u)) (hscheme : u.scheme ≠ []) :
    u.RoundTrips ↔ (∀ d, x.authority.port = some d → ¬ NegativePort d) ∧
      ∀ w, x.authority.userinfo = some w → ¬ LosesTwice w := by
  cases hs : x.scheme with
  | none =>
      obtain ⟨u', hu', hnil⟩ := create_relative (accepts_parts hx hhost) (front_parts hs)
      rw [hcreate, Option.some.injEq, Option.some.injEq] at hu'
      exact absurd (hu' ▸ hnil) hscheme
  | some scheme =>
      have hne : x.authority.port ≠ some [] := by
        intro hempty
        rw [create_parts hx hhost hs, if_pos hempty] at hcreate
        cases hcreate
      obtain rfl : x.uri scheme = u := by
        rw [create_parts hx hhost hs, if_neg hne] at hcreate
        simpa using hcreate
      have hport : (x.uri scheme).port < 2 ^ 31 ∧ (0 ≤ (x.uri scheme).port ↔
          ∀ d, x.authority.port = some d → ¬ NegativePort d) := by
        rw [Parts.uri]
        cases hd : x.authority.port with
        | none => simp
        | some d =>
            have hnil : d ≠ [] := by
              rintro rfl
              exact hne hd
            have hneg := longToInt_neg_iff (min (2 ^ 63 - 1) (Http.digitsValue 10 0 d))
            rw [Option.elim_some, atoi_eq (hx.port d hd) hnil, ← Int.not_lt, hneg]
            refine ⟨longToInt_lt _, ?_⟩
            simp [NegativePort]
      have hkept : kept (x.uri scheme).userinfo = (x.uri scheme).userinfo ↔
          ∀ w, x.authority.userinfo = some w → ¬ LosesTwice w := by
        rw [Parts.uri]
        cases hw : x.authority.userinfo with
        | none => simp [kept]
        | some w => simpa using kept_kept_iff w
      rw [(words_parts hx hhost hs).rereads_iff hport.1, hport.2, hkept]

/-- A URI without one. -/
theorem roundTrips_plain {o : Plain} (ho : o.WellFormed)
    (hcreate : create o.text = some (some u)) (hscheme : u.scheme ≠ []) : u.RoundTrips := by
  cases hs : o.scheme with
  | none =>
      obtain ⟨u', hu', hnil⟩ := create_relative (accepts_plain ho) (front_plain ho hs)
      rw [hcreate, Option.some.injEq, Option.some.injEq] at hu'
      exact absurd (hu' ▸ hnil) hscheme
  | some scheme =>
      obtain rfl : o.uri scheme = u := by
        rw [create_plain ho hs] at hcreate
        simpa using hcreate
      have hport : (o.uri scheme).port = 0 := rfl
      have huser : (o.uri scheme).userinfo = [] := rfl
      refine ((words_plain ho hs).rereads_iff ?_).mpr ⟨?_, ?_⟩
      · rw [hport]
        decide
      · rw [hport]
      · rw [huser]
        rfl

/-- **An accepted text with a scheme** survives unless its port is read as a negative number or
its userinfo loses its beginning twice. -/
theorem roundTrips_iff (hcreate : create s = some (some u)) (hscheme : u.scheme ≠ []) :
    u.RoundTrips ↔
      ∀ x : Parts, s = x.text → x.Framed → Derives uriRl (ref .host) x.authority.host →
        (∀ d, x.authority.port = some d → ¬ NegativePort d) ∧
        ∀ w, x.authority.userinfo = some w → ¬ LosesTwice w := by
  constructor
  · rintro hround x rfl hx hhost
    exact (roundTrips_parts hx hhost hcreate hscheme).mp hround
  · intro hall
    rcases created_iff.mp ⟨u, hcreate⟩ with ⟨x, rfl, hx, hhost, -⟩ | ⟨o, rfl, ho⟩
    · exact (roundTrips_parts hx hhost hcreate hscheme).mpr (hall x rfl hx hhost)
    · exact roundTrips_plain ho hcreate hscheme

/-- A text with every part. -/
def fullParts : Parts where
  scheme := some (bytes "ws")
  authority := ⟨some (bytes "user:1"), bytes "[::1]", some (bytes "8080")⟩
  path := []
  query := some (bytes "q=1")
  fragment := none

/-- It comes back as it was read. -/
theorem roundTrips_full :
    RoundTrips ⟨bytes "ws", bytes "1", bytes "[::1]", [], bytes "q=1", [], 8080⟩ := by
  have hcreate : create fullParts.text =
      some (some ⟨bytes "ws", bytes "1", bytes "[::1]", [], bytes "q=1", [], 8080⟩) := by
    decide +kernel
  obtain ⟨hframed, hhost⟩ := words_of_areWords (p := fullParts) (by decide +kernel)
  refine (roundTrips_iff hcreate (by decide)).mpr ?_
  intro x hx hx' hhost'
  have hsame := Parts.unique (hframed.delimited (hostForm_of_derives (.inl rfl) hhost))
    (hx'.delimited (hostForm_of_derives (.inl rfl) hhost')) hx
  rw [← hsame]
  constructor
  · rintro d ⟨⟩
    rw [NegativePort]
    decide
  · rintro w ⟨⟩
    rw [← kept_kept_iff]
    decide

/-- A port that is read as -1, and a userinfo that loses what is in front of two digits. -/
theorem not_roundTrips_samples :
    (∃ u, create (bytes "http://h:4294967295/") = some (some u) ∧ u.scheme ≠ [] ∧
      ¬ u.RoundTrips) ∧
    ∃ u, create (bytes "a://u:1:2@h") = some (some u) ∧ u.scheme ≠ [] ∧ ¬ u.RoundTrips := by
  refine ⟨⟨⟨bytes "http", [], bytes "h", bytes "/", [], [], -1⟩, by decide +kernel, by decide, ?_⟩,
    ⟨bytes "a", bytes "1:2", bytes "h", [], [], [], 0⟩, by decide +kernel, by decide, ?_⟩
  · have hnull : create (toString ⟨bytes "http", [], bytes "h", bytes "/", [], [], -1⟩) =
        some none := by decide +kernel
    rintro ⟨u', hu', -⟩
    rw [hnull] at hu'
    cases hu'
  · have hagain : create (toString ⟨bytes "a", bytes "1:2", bytes "h", [], [], [], 0⟩) =
        some (some ⟨bytes "a", bytes "2", bytes "h", bytes "/", [], [], 0⟩) := by decide +kernel
    rintro ⟨u', hu', -, hsame, -⟩
    rw [hagain, Option.some.injEq, Option.some.injEq] at hu'
    rw [← hu'] at hsame
    revert hsame
    decide

end Mingo.Uri
