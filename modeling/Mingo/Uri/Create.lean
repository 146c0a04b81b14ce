import Mingo.Uri.Trace

/-!
# What `Create` makes of a reference

* `create_parts` -- a URI with an authority;
* `create_plain` -- a URI without one, whose path is dropped;
* `create_relative` -- a relative reference never gets a scheme, and nothing throws;
* `created_iff` -- so the accepted texts are the references of uri.rl but for those with an
  empty port.
-/

namespace Mingo.Uri

open Grammar (Derives)
open Grammar.Expr (ref)
open Scanner (Rule events inClass inRanges lastState perform)
open Parsing (act)
open UriTable (eofActions)

variable {buf pre post rest v w s : List UInt8} {q q' p p' : Nat}

/-! ### The scheme -/

/-- The bytes of a scheme behind the first. -/
def schemeByte : List (Nat × Nat) := [(43, 43), (45, 46), (48, 57), (65, 90), (97, 122)]

def letterByte : List (Nat × Nat) := [(65, 90), (97, 122)]

theorem scheme_cases (h : Derives uriRl (ref .scheme) v) :
    ∃ b w, v = b :: w ∧ inClass letterByte b = true ∧ ∀ c ∈ w, inClass schemeByte c = true := by
  obtain ⟨u, w, rfl, hu, hw⟩ := Grammar.derives_seq.mp (Grammar.derives_ref.mp h)
  obtain ⟨b, hb, rfl⟩ := Grammar.derives_chars.mp hu
  exact ⟨b, w, rfl, hb, hw.bytes 20 (by decide)⟩

theorem scheme_rules :
    scanner.leads [(451, 451)] letterByte (Rule.goes [.markU] [(508, 508)]) = true ∧
    scanner.leads [(508, 508)] schemeByte (Rule.stays [(508, 508)]) = true ∧
    scanner.leads [(508, 508)] [(58, 58)] (Rule.goes [.saveScheme] [(509, 509)]) = true ∧
    scanner.leads [(509, 509)] [(47, 47)] (Rule.goes [] [(510, 510)]) = true ∧
    scanner.leads [(510, 510)] [(47, 47)] (Rule.goes [] [(511, 511)]) = true := by
  decide +kernel

/-- **The scheme** and its colon. -/
theorem runs_scheme (hv : Derives uriRl (ref .scheme) v) (hbuf : buf = v ++ 58 :: rest)
    (haccepts : Accepts 451 (v ++ 58 :: rest)) :
    Runs buf 451 0 ⟨new, none⟩ (v ++ [58]) 509 ⟨{ new with scheme := v }, none⟩ ∧
      Accepts 509 rest := by
  obtain ⟨b, w, rfl, hb, hw⟩ := scheme_cases hv
  obtain ⟨hfirst, hstays, hcolon, -⟩ := scheme_rules
  obtain ⟨q₁, hq₁, hrun₁, hrest₁⟩ := runs_byte hfirst (inRanges_single.mpr rfl) hb haccepts
    (perform_mark buf 0 ⟨new, none⟩ (.inl rfl))
  obtain ⟨q₂, hq₂, hsilent, hrest₂⟩ := Scanner.accepts_append_of_stays hstays hq₁ hw hrest₁
  have htoken : Http.token buf 0 (b :: w).length = some (b :: w) := by
    rw [hbuf]
    simpa using token_part [] (b :: w) (58 :: rest)
  have hsave : perform (act buf) ([.saveScheme].map ((b :: w).length, ·)) ⟨new, some 0⟩ =
      some ⟨{ new with scheme := b :: w }, none⟩ := by
    simp only [List.map_cons, List.map_nil, perform, act, Parsing.save, htoken, Option.bind_some,
      Option.map_some]
  obtain ⟨q₃, hq₃, hrun₃, hrest₃⟩ := runs_byte hcolon hq₂ (b := 58) rfl hrest₂ hsave
  obtain rfl := inRanges_single.mp hq₃
  have hword := hrun₁.append (.of_silent hsilent)
  exact ⟨hword.append (by simpa using hrun₃), hrest₃⟩

/-- The two slashes. -/
theorem runs_slashes (buf : List UInt8) (p : Nat) (t : Parsing)
    (haccepts : Accepts 509 (47 :: 47 :: rest)) :
    Runs buf 509 p t [47, 47] 511 t ∧ Accepts 511 rest := by
  obtain ⟨-, -, -, hfirst, hsecond⟩ := scheme_rules
  obtain ⟨q₁, hq₁, hrun₁, hrest₁⟩ := runs_byte hfirst (inRanges_single.mpr rfl) (b := 47) rfl
    haccepts (perform_none buf p t)
  obtain ⟨q₂, hq₂, hrun₂, hrest₂⟩ := runs_byte hsecond hq₁ (b := 47) rfl hrest₁
    (perform_none buf (p + 1) t)
  obtain rfl := inRanges_single.mp hq₂
  exact ⟨hrun₁.append hrun₂, hrest₂⟩

/-! ### A URI with an authority -/

theorem accepts_parts {x : Parts} (hx : x.Framed)
    (hhost : Derives uriRl (ref .host) x.authority.host) : Accepts 451 x.text :=
  (accepts_iff _).mpr ((derives_iff_parts shares_uriRl).mpr (.inl ⟨x, rfl, hx, hhost⟩))

/-- What becomes of the parts: the userinfo is kept from the digit behind its first colon on. -/
def Parts.uri (x : Parts) (scheme : List UInt8) : Uri where
  scheme := scheme
  userinfo := x.authority.userinfo.elim [] kept
  host := x.authority.host
  path := x.path
  query := x.query.getD []
  fragment := x.fragment.getD []
  port := x.authority.port.elim 0 Http.atoi

/-- All in front of the host. -/
theorem runs_front {scheme : List UInt8} {userinfo : Option (List UInt8)}
    (hs : Derives uriRl (ref .scheme) scheme) (hu : Matches userinfo .userinfo)
    (hbuf : buf = scheme ++ 58 :: 47 :: 47 :: (ended 64 userinfo ++ rest))
    (haccepts : Accepts 451 (scheme ++ 58 :: 47 :: 47 :: (ended 64 userinfo ++ rest))) :
    ∃ q host, inRanges hostFirst q = true ∧
      Runs buf 451 0 ⟨new, none⟩ (scheme ++ [58] ++ [47, 47] ++ ended 64 userinfo) q
        ⟨{ new with scheme := scheme, userinfo := userinfo.elim [] kept, host := host }, none⟩ ∧
      Accepts q rest := by
  obtain ⟨hrun₁, hrest₁⟩ := runs_scheme hs hbuf haccepts
  obtain ⟨hrun₂, hrest₂⟩ := runs_slashes buf (0 + (scheme ++ [58]).length)
    ⟨{ new with scheme := scheme }, none⟩ hrest₁
  have hfront := hrun₁.append hrun₂
  cases userinfo with
  | none => exact ⟨511, [], rfl, by simpa [ended, new] using hfront, by simpa [ended] using hrest₂⟩
  | some u =>
      have hbuf' : buf = (scheme ++ [58] ++ [47, 47]) ++ (u ++ 64 :: rest) := by
        rw [hbuf]
        simp [ended]
      have hrest : Accepts 511 (u ++ 64 :: rest) := by simpa [ended] using hrest₂
      obtain ⟨host, hrun₃, hrest₃⟩ := runs_userinfo
        (s := ⟨{ new with scheme := scheme }, none⟩) (hu u rfl) hbuf' hrest
      exact ⟨522, host, rfl, hfront.append (by simpa [ended] using hrun₃), hrest₃⟩

/-- **A URI with an authority.**  An empty port throws. -/
theorem create_parts {x : Parts} {scheme : List UInt8} (hx : x.Framed)
    (hhost : Derives uriRl (ref .host) x.authority.host) (hscheme : x.scheme = some scheme) :
    create x.text =
      if x.authority.port = some [] then none else some (some (x.uri scheme)) := by
  have haccepts := accepts_parts hx hhost
  obtain ⟨xs, ⟨userinfo, host, port⟩, path, query, fragment⟩ := x
  obtain ⟨hs, hu, hp, hpath, hq, hf⟩ := hx
  simp only at hs hu hp hpath hq hf hhost hscheme
  subst hscheme
  generalize htext : (Parts.mk (some scheme) ⟨userinfo, host, port⟩ path query fragment).text =
    text at haccepts ⊢
  have hwhole : text = scheme ++ 58 :: 47 :: 47 :: (ended 64 userinfo ++ (host ++
      (marked 58 port ++ (path ++ (marked 63 query ++ marked 35 fragment))))) := by
    rw [← htext]
    simp [Parts.text, Authority.text, ended]
  rw [hwhole] at haccepts
  obtain ⟨q, host', hq', hrun, hrest⟩ := runs_front (hs scheme rfl) hu hwhole haccepts
  have hbuf : text = (scheme ++ [58] ++ [47, 47] ++ ended 64 userinfo) ++ (host ++
      (marked 58 port ++ (path ++ (marked 63 query ++ marked 35 fragment)))) := by
    rw [hwhole]
    simp
  have hall := hrun.finishes (by
    rw [Nat.zero_add]
    exact finishes_host (hostForm_of_derives (.inl rfl) hhost) hq' hp hpath hq hf hbuf hrest)
  rw [← hbuf] at hall
  rw [create_of_finishes hall]
  by_cases hempty : port = some []
  · simp [hempty]
  · simp only [if_neg hempty, Option.map_some, Parsing.withTail, withAuthority, Parts.uri, new]

/-! ### A URI without an authority -/

/-- `pchar` and the percent sign. -/
def pcharByte : List (Nat × Nat) :=
  [(33, 33), (36, 46), (48, 59), (61, 61), (64, 90), (95, 95), (97, 122), (126, 126), (128, 255)]

/-- `pathByte` without the slash and the colon. -/
def segmentNcByte : List (Nat × Nat) :=
  [(33, 33), (36, 46), (48, 57), (59, 59), (61, 61), (64, 90), (95, 95), (97, 122), (126, 126),
    (128, 255)]

/-- No segment of these productions is empty. -/
theorem segment_ne (h : Derives uriRl (ref .segmentNz) v ∨ Derives uriRl (ref .segmentNzNc) v) :
    v ≠ [] := by
  have hnz : Derives uriRl (ref .segmentNz) [] ↔ false = true :=
    Grammar.derives_iff_reads 20 (by decide)
  have hnc : Derives uriRl (ref .segmentNzNc) [] ↔ false = true :=
    Grammar.derives_iff_reads 20 (by decide)
  rintro rfl
  simp [hnz, hnc] at h

/-- The slashes and segments behind a first segment. -/
theorem slashes_cases (h : Derives uriRl (.star slashSegment) v) :
    (v = [] ∨ ∃ w, v = 47 :: w) ∧ ∀ b ∈ v, inClass pathByte b = true := by
  refine ⟨?_, h.bytes 20 (by decide)⟩
  rcases Grammar.derives_star.mp h with rfl | ⟨u, w, rfl, hu, -⟩
  · exact .inl rfl
  · obtain ⟨_, u', rfl, hbyte, -⟩ := Grammar.derives_seq.mp hu
    obtain rfl := (Grammar.derives_byte (by decide)).mp hbyte
    exact .inr ⟨u' ++ w, rfl⟩

/-- A path behind a first segment that is not empty. -/
theorem rootless_cases (h : Derives uriRl (.seq (ref .segmentNz) (.star slashSegment)) v) :
    ∃ b w, v = b :: w ∧ inClass pcharByte b = true ∧ ∀ c ∈ w, inClass pathByte c = true := by
  obtain ⟨u, w, rfl, hu, hw⟩ := Grammar.derives_seq.mp h
  obtain ⟨b, u, rfl⟩ := List.exists_cons_of_ne_nil (segment_ne (.inl hu))
  have hbytes : ∀ c ∈ b :: u, inClass pcharByte c = true := hu.bytes 20 (by decide)
  have hpath : ∀ c ∈ b :: u, inClass pathByte c = true := hu.bytes 20 (by decide)
  refine ⟨b, u ++ w, rfl, hbytes b List.mem_cons_self, ?_⟩
  intro c hc
  rcases List.mem_append.mp hc with hc | hc
  · exact hpath c (List.mem_cons_of_mem b hc)
  · exact (slashes_cases hw).2 c hc

/-- A path with a slash at its front, but not two. -/
theorem absolute_cases (h : Derives uriRl (ref .pathAbsolute) v) :
    v = [47] ∨ ∃ b w, v = 47 :: b :: w ∧ inClass pcharByte b = true ∧
      ∀ c ∈ w, inClass pathByte c = true := by
  obtain ⟨_, u, rfl, hbyte, hu⟩ := Grammar.derives_seq.mp (Grammar.derives_ref.mp h)
  obtain rfl := (Grammar.derives_byte (by decide)).mp hbyte
  rcases Grammar.derives_opt.mp hu with rfl | hu
  · exact .inl rfl
  · obtain ⟨b, w, rfl, hb, hw⟩ := rootless_cases hu
    exact .inr ⟨b, w, rfl, hb, hw⟩

def plainStates : List (Nat × Nat) := [(5, 6), (455, 455)]

theorem plain_rules :
    scanner.leads [(509, 510)] pcharByte (Rule.goes [] plainStates) = true ∧
    scanner.leads plainStates pathByte (Rule.stays plainStates) = true ∧
    scanner.leads [(509, 509)] [(47, 47)] (Rule.goes [] [(510, 510)]) = true ∧
    scanner.leads ((509, 510) :: plainStates) [(63, 63)] (Rule.goes [] [(456, 456)]) = true ∧
    scanner.leads ((509, 510) :: plainStates) [(35, 35)] (Rule.goes [] [(453, 453)]) = true ∧
    endsWith ((509, 510) :: plainStates) [] = true := by
  decide +kernel

/-- A path that is not behind an authority has no action. -/
theorem runs_plain (buf : List UInt8) (p : Nat) (t : Parsing) {path : List UInt8}
    (hpath : Derives uriRl (ref .pathAbsolute) path ∨ Derives uriRl (ref .pathRootless) path ∨
      path = [])
    (haccepts : Accepts 509 (path ++ rest)) :
    ∃ q, inRanges ((509, 510) :: plainStates) q = true ∧ Runs buf 509 p t path q t ∧
      Accepts q rest := by
  obtain ⟨hfirst, hstays, hslash, -⟩ := plain_rules
  have hmem {q : Nat} (hq : inRanges plainStates q = true) :
      inRanges ((509, 510) :: plainStates) q = true := by
    rw [inRanges, List.any_cons]
    exact Bool.or_eq_true_iff.mpr (.inr hq)
  have hword {q p : Nat} {b : UInt8} {w : List UInt8} (hq : inRanges [(509, 510)] q = true)
      (hb : inClass pcharByte b = true) (hw : ∀ c ∈ w, inClass pathByte c = true)
      (haccepts : Accepts q (b :: w ++ rest)) :
      ∃ q', inRanges ((509, 510) :: plainStates) q' = true ∧ Runs buf q p t (b :: w) q' t ∧
        Accepts q' rest := by
    obtain ⟨q₁, hq₁, hrun₁, hrest₁⟩ := runs_byte hfirst hq hb haccepts
      (perform_none buf p t)
    obtain ⟨q₂, hq₂, hsilent, hrest₂⟩ := Scanner.accepts_append_of_stays hstays hq₁ hw hrest₁
    exact ⟨q₂, hmem hq₂, hrun₁.append (.of_silent hsilent), hrest₂⟩
  rcases hpath with habsolute | hrootless | rfl
  · have hstep : ∀ w : List UInt8, Accepts 509 (47 :: w) →
        Runs buf 509 p t [47] 510 t ∧ Accepts 510 w := by
      intro w hw
      obtain ⟨q, hq, hrun, hrest⟩ := runs_byte hslash (q := 509) rfl
        (b := 47) rfl hw (perform_none buf p t)
      obtain rfl := inRanges_single.mp hq
      exact ⟨hrun, hrest⟩
    rcases absolute_cases habsolute with rfl | ⟨b, w, rfl, hb, hw⟩
    · obtain ⟨hrun, hrest⟩ := hstep rest haccepts
      exact ⟨510, rfl, hrun, hrest⟩
    · obtain ⟨hrun, hrest⟩ := hstep _ haccepts
      obtain ⟨q, hq, hrun₂, hrest₂⟩ := hword (q := 510) rfl hb hw hrest
      exact ⟨q, hq, hrun.append hrun₂, hrest₂⟩
  · obtain ⟨b, w, rfl, hb, hw⟩ := rootless_cases (Grammar.derives_ref.mp hrootless)
    exact hword rfl hb hw haccepts
  · exact ⟨509, rfl, .of_silent (Scanner.Silent.nil 509), haccepts⟩

theorem accepts_plain {o : Plain} (ho : o.WellFormed) : Accepts 451 o.text :=
  (accepts_iff _).mpr ((derives_iff_parts shares_uriRl).mpr (.inr ⟨o, rfl, ho⟩))

/-- What becomes of a URI without an authority: the path is dropped. -/
def Plain.uri (o : Plain) (scheme : List UInt8) : Uri :=
  { new with scheme := scheme, query := o.query.getD [], fragment := o.fragment.getD [] }

/-- **A URI without an authority.** -/
theorem create_plain {o : Plain} {scheme : List UInt8} (ho : o.WellFormed)
    (hscheme : o.scheme = some scheme) : create o.text = some (some (o.uri scheme)) := by
  have haccepts := accepts_plain ho
  obtain ⟨os, path, query, fragment⟩ := o
  obtain ⟨hs, hpath, hq, hf⟩ := ho
  simp only at hs hpath hq hf hscheme
  subst hscheme
  generalize htext : (Plain.mk (some scheme) path query fragment).text = text at haccepts ⊢
  have hwhole : text = scheme ++ 58 :: (path ++ (marked 63 query ++ marked 35 fragment)) := by
    rw [← htext]
    simp [Plain.text, ended]
  rw [hwhole] at haccepts
  obtain ⟨hrun₁, hrest₁⟩ := runs_scheme (hs scheme rfl) hwhole haccepts
  obtain ⟨q, hq', hrun₂, hrest₂⟩ := runs_plain text (0 + (scheme ++ [58]).length)
    ⟨{ new with scheme := scheme }, none⟩ (by simpa using hpath) hrest₁
  obtain ⟨-, -, -, hquery, hfragment, heof⟩ := plain_rules
  have hbuf : text = (scheme ++ [58] ++ path) ++ (marked 63 query ++ marked 35 fragment) := by
    rw [hwhole]
    simp
  have htail := finishes_tail hq' hquery hfragment (eofActions_of_endsWith heof hq')
    (perform_none text (scheme ++ [58] ++ path).length ⟨{ new with scheme := scheme }, none⟩)
    (by simp) hq hf hbuf hrest₂
  have hall := (hrun₁.append hrun₂).finishes (by simpa [Nat.add_assoc] using htail)
  rw [← hbuf] at hall
  rw [create_of_finishes hall]
  rfl

/-! ### Relative references -/

/-- Whether the mark is known to be set behind an action, by whether it was before; `none`
when the action may throw, or saves a scheme. -/
def markStep : UriAction → Bool → Option Bool
  | .markU, _ => some true
  | .markH, _ => some true
  | .saveHost, m => some m
  | .saveUserinfo, _ => some false
  | .saveScheme, _ => none
  | _, true => some false
  | _, false => none

def markAfter : List UriAction → Bool → Option Bool
  | [], m => some m
  | a :: as, m => (markStep a m).bind (markAfter as)

/-- The mark is not behind position `p`, and it is set if that is known. -/
structure MarkOk (p : Nat) (known : Bool) (t : Parsing) : Prop where
  le : ∀ m, t.mark = some m → m ≤ p
  known : known = true → t.mark.isSome = true

theorem MarkOk.mono {t : Parsing} {known : Bool} (h : MarkOk p known t) (hp : p ≤ p') :
    MarkOk p' known t :=
  ⟨fun m hm => (h.le m hm).trans hp, h.known⟩

theorem markOk_none (p : Nat) (uri : Uri) : MarkOk p false ⟨uri, none⟩ := ⟨by simp, by simp⟩

theorem token_of_markOk {t : Parsing} {known : Bool} (h : MarkOk p known t) {m : Nat}
    (hm : t.mark = some m) (buf : List UInt8) : ∃ v, Http.token buf m p = some v :=
  ⟨_, if_pos (h.le m hm)⟩

/-- An action that saves a part. -/
theorem save_markOk {t : Parsing} (h : MarkOk p true t) (buf : List UInt8)
    (set : List UInt8 → Uri) (hset : ∀ v, (set v).scheme = t.uri.scheme) :
    ∃ t', t.save buf p set = some t' ∧ t'.uri.scheme = t.uri.scheme ∧ MarkOk p false t' := by
  obtain ⟨m, hm⟩ := Option.isSome_iff_exists.mp (h.known rfl)
  obtain ⟨v, hv⟩ := token_of_markOk h hm buf
  exact ⟨⟨set v, none⟩, by simp [Parsing.save, hm, hv], hset v, markOk_none p _⟩

/-- **What one action does to the mark.** -/
theorem act_markOk {a : UriAction} {known m : Bool} {t : Parsing}
    (ha : markStep a known = some m) (h : MarkOk p known t) (buf : List UInt8) :
    ∃ t', act buf p a t = some t' ∧ t'.uri.scheme = t.uri.scheme ∧ MarkOk p m t' := by
  cases a with
  | saveScheme => cases ha
  | markU =>
      cases ha
      exact ⟨_, rfl, rfl, by simp, by simp⟩
  | markH =>
      cases ha
      exact ⟨_, rfl, rfl, by simp, by simp⟩
  | saveHost =>
      cases ha
      cases hm : t.mark with
      | none => exact ⟨t, by simp [act, hm], rfl, h⟩
      | some k =>
          obtain ⟨v, hv⟩ := token_of_markOk h hm buf
          exact ⟨{ t with uri := { t.uri with host := v } }, by simp [act, hm, hv], rfl, h.le,
            fun _ => by simp [hm]⟩
  | saveUserinfo =>
      cases ha
      cases hm : t.mark with
      | none => exact ⟨t, by simp [act, hm], rfl, by simp [hm], by simp⟩
      | some k =>
          have hknown : MarkOk p true t := ⟨h.le, fun _ => by simp [hm]⟩
          obtain ⟨t', hsave, hscheme, hok⟩ := save_markOk hknown buf
            (fun v => { t.uri with userinfo := v }) fun _ => rfl
          exact ⟨t', by simpa [act, hm] using hsave, hscheme, hok⟩
  | savePort =>
      cases known with
      | false => cases ha
      | true =>
          cases ha
          obtain ⟨k, hk⟩ := Option.isSome_iff_exists.mp (h.known rfl)
          by_cases hp : p = k
          · exact ⟨⟨t.uri, none⟩, by simp [act, hk, hp], rfl, markOk_none p _⟩
          · exact ⟨⟨{ t.uri with port := Http.atoi (buf.drop k) }, none⟩, by simp [act, hk, hp],
              rfl, markOk_none p _⟩
  | savePath =>
      cases known with
      | false => cases ha
      | true =>
          cases ha
          exact save_markOk h buf _ fun _ => rfl
  | saveQuery =>
      cases known with
      | false => cases ha
      | true =>
          cases ha
          exact save_markOk h buf _ fun _ => rfl
  | saveFragment =>
      cases known with
      | false => cases ha
      | true =>
          cases ha
          exact save_markOk h buf _ fun _ => rfl

theorem perform_markOk {acts : List UriAction} {known m : Bool} {t : Parsing}
    (hacts : markAfter acts known = some m) (h : MarkOk p known t) (buf : List UInt8) :
    ∃ t', perform (act buf) (acts.map (p, ·)) t = some t' ∧ t'.uri.scheme = t.uri.scheme ∧
      MarkOk p m t' := by
  induction acts generalizing known t with
  | nil =>
      cases hacts
      exact ⟨t, rfl, rfl, h⟩
  | cons a acts ih =>
      obtain ⟨known', hstep, hrest⟩ := Option.bind_eq_some_iff.mp hacts
      obtain ⟨t₁, hact, hscheme, hok⟩ := act_markOk hstep h buf
      obtain ⟨t₂, hperform, hscheme₂, hok₂⟩ := ih hrest hok
      exact ⟨t₂, by simpa [perform, hact] using hperform, hscheme₂.trans hscheme, hok₂⟩

/-- The states of a relative reference. -/
def relativeStates : List (Nat × Nat) := [(1, 228), (451, 508)]

/-- Those in which the mark is set. -/
def markedStates : List (Nat × Nat) :=
  [(1, 2), (7, 8), (454, 454), (457, 457), (462, 462), (489, 489), (508, 508)]

/-- The rule saves the scheme, or it does not throw and stays among these states. -/
def relativeRule (q : Nat) (r : Rule UriAction) : Bool :=
  r.acts.contains .saveScheme || inRanges relativeStates r.next &&
    (markAfter r.acts (inRanges markedStates q)).any fun m => !inRanges markedStates r.next || m

theorem relative_rules :
    (scanner.table.all fun row => !inRanges relativeStates row.1 ||
      row.2.all (relativeRule row.1)) = true ∧
    ((List.range 600).all fun q => !(inRanges relativeStates q && isFinal q) ||
      (markAfter (eofActions q) (inRanges markedStates q)).isSome) = true := by
  decide +kernel

/-- **The scan of a relative reference** never throws, as long as no scheme is saved. -/
theorem perform_relative (buf : List UInt8) {rs : List (Rule UriAction)} {t : Parsing}
    (hq : inRanges relativeStates q = true) (hfollow : scanner.follow q w = some rs)
    (hno : ∀ r ∈ rs, .saveScheme ∉ r.acts) (h : MarkOk p (inRanges markedStates q) t) :
    ∃ t', perform (act buf) (events p rs) t = some t' ∧ t'.uri.scheme = t.uri.scheme ∧
      inRanges relativeStates (lastState q rs) = true ∧
      MarkOk (p + w.length) (inRanges markedStates (lastState q rs)) t' := by
  induction w generalizing q p rs t with
  | nil =>
      cases hfollow
      exact ⟨t, rfl, rfl, hq, h⟩
  | cons b w ih =>
      obtain ⟨r, rs', hrule, hrest, rfl⟩ := Scanner.follow_cons hfollow
      have hrow := Scanner.of_all_rows (m := scanner)
        (P := fun q rs => !inRanges relativeStates q || rs.all (relativeRule q))
        relative_rules.1 (List.ne_nil_of_mem (Scanner.rule_mem hrule))
      rw [hq, Bool.not_true, Bool.false_or] at hrow
      have hcheck := List.all_eq_true.mp hrow r (Scanner.rule_mem hrule)
      have hscheme : r.acts.contains .saveScheme = false := by
        simpa using hno r List.mem_cons_self
      rw [relativeRule, hscheme, Bool.false_or, Bool.and_eq_true] at hcheck
      obtain ⟨m, hafter, hm⟩ := (Option.any_eq_true _ _).mp hcheck.2
      obtain ⟨t₁, hperform, hscheme₁, hok₁⟩ := perform_markOk hafter h buf
      have hnext : MarkOk (p + 1) (inRanges markedStates r.next) t₁ := by
        refine ⟨(hok₁.mono (Nat.le_succ p)).le, fun hin => hok₁.known ?_⟩
        simpa [hin] using hm
      obtain ⟨t₂, hperform₂, hscheme₂, hlast, hok₂⟩ := ih hcheck.1 hrest
        (fun r' hr' => hno r' (List.mem_cons_of_mem r hr')) hnext
      refine ⟨t₂, ?_, hscheme₂.trans hscheme₁, hlast, ?_⟩
      · rw [events, Scanner.perform_append, hperform, Option.bind_some, hperform₂]
      · rw [List.length_cons, Nat.add_comm w.length, ← Nat.add_assoc]
        exact hok₂

/-- Only the rules of a scheme lead to the one that saves it. -/
def schemeRule (q : Nat) (r : Rule UriAction) : Bool :=
  !(r.next == 451) &&
    (!r.acts.contains .saveScheme || q == 508 && decide (r.on = [(58, 58)])) &&
    (!(r.next == 508) || (q == 451 || q == 508) && Scanner.covers schemeByte r.on)

theorem scheme_only : (scanner.table.all fun row => row.2.all (schemeRule row.1)) = true := by
  decide +kernel

theorem inClass_of_rule {r : Rule UriAction} {b : UInt8} (h : scanner.rule q b = some r) :
    inClass r.on b = true := by
  have htakes := Scanner.rule_takes h
  rw [Rule.takes, Bool.and_eq_true] at htakes
  exact htakes.2

/-- A scan that saves a scheme reads its bytes and a colon first. -/
theorem scheme_of_follow {rs : List (Rule UriAction)} {r : Rule UriAction}
    (hfollow : scanner.follow q w = some rs) (hr : r ∈ rs) (hsave : .saveScheme ∈ r.acts) :
    (q = 451 ∨ q = 508) ∧ ∃ v rest, w = v ++ 58 :: rest ∧ ∀ b ∈ v, inClass schemeByte b = true := by
  induction w generalizing q rs with
  | nil =>
      cases hfollow
      cases hr
  | cons b w ih =>
      obtain ⟨r₁, rs', hrule, hrest, rfl⟩ := Scanner.follow_cons hfollow
      have hcheck := Scanner.of_all scheme_only (Scanner.rule_mem hrule)
      have hb := inClass_of_rule hrule
      simp only [schemeRule, Bool.and_eq_true, Bool.or_eq_true, Bool.not_eq_true', beq_iff_eq,
        decide_eq_true_eq, beq_eq_false_iff_ne, List.contains_eq_mem, decide_eq_false_iff_not]
        at hcheck
      obtain ⟨⟨hnext, hcolon⟩, hletters⟩ := hcheck
      rcases List.mem_cons.mp hr with rfl | hr
      · obtain ⟨rfl, hon⟩ := hcolon.resolve_left (not_not_intro hsave)
        rw [hon] at hb
        have hcolon' : b = 58 := by
          simp only [inClass, List.any_cons, List.any_nil, Bool.or_false, Bool.and_eq_true,
            decide_eq_true_eq] at hb
          exact UInt8.toNat.inj (Nat.le_antisymm hb.2 hb.1)
        exact ⟨.inr rfl, [], w, by rw [hcolon']; rfl, by simp⟩
      · obtain ⟨hstate, v, rest, rfl, hv⟩ := ih hrest hr
        obtain ⟨hfrom, hcovers⟩ := hletters.resolve_left (not_not_intro (hstate.resolve_left hnext))
        refine ⟨hfrom, b :: v, rest, rfl, ?_⟩
        exact List.forall_mem_cons.mpr ⟨Scanner.inClass_of_covers hcovers hb, hv⟩

/-- A text whose first part has no colon, and is over at a delimiter, is scanned without one. -/
theorem not_saves_scheme {u x : List UInt8} {rs : List (Rule UriAction)} (hu : 58 ∉ u)
    (hx : ∀ b, x.head? = some b → b = 47 ∨ b = 63 ∨ b = 35)
    (hfollow : scanner.follow 451 (u ++ x) = some rs) : ∀ r ∈ rs, .saveScheme ∉ r.acts := by
  intro r hr hsave
  obtain ⟨-, v, rest, htext, hv⟩ := scheme_of_follow hfollow hr hsave
  have hdelims {b : UInt8} (hb : x.head? = some b) :
      b ≠ 58 ∧ inClass schemeByte b = false := by
    rcases hx b hb with rfl | rfl | rfl
    · exact ⟨by decide, by decide⟩
    · exact ⟨by decide, by decide⟩
    · exact ⟨by decide, by decide⟩
  rcases List.append_eq_append_iff.mp htext with ⟨c, rfl, hc⟩ | ⟨c, rfl, hc⟩
  · cases c with
    | nil => exact (hdelims (b := 58) (by rw [hc]; rfl)).1 rfl
    | cons b c =>
        have hb := (hdelims (b := b) (by rw [hc]; rfl)).2
        rw [hv b (by simp)] at hb
        cases hb
  · cases c with
    | nil => exact (hdelims (b := 58) (by rw [List.nil_append] at hc; rw [← hc]; rfl)).1 rfl
    | cons b c =>
        obtain ⟨rfl, -⟩ := List.cons.inj hc
        simp at hu

/-- The text of a relative reference up to its first delimiter. -/
def Front (s : List UInt8) : Prop :=
  ∃ u x, s = u ++ x ∧ 58 ∉ u ∧ ∀ b, x.head? = some b → b = 47 ∨ b = 63 ∨ b = 35

theorem head_tail {query fragment : Option (List UInt8)} {b : UInt8}
    (h : (marked 63 query ++ marked 35 fragment).head? = some b) : b = 63 ∨ b = 35 := by
  cases query with
  | some v =>
      cases h
      exact .inl rfl
  | none =>
      cases fragment with
      | some v =>
          cases h
          exact .inr rfl
      | none => cases h

theorem front_parts {x : Parts} (h : x.scheme = none) : Front x.text := by
  refine ⟨[], x.text, rfl, by simp, ?_⟩
  intro b hb
  rw [Parts.text, h] at hb
  cases hb
  exact .inl rfl

theorem front_plain {o : Plain} (ho : o.WellFormed) (h : o.scheme = none) : Front o.text := by
  obtain ⟨os, path, query, fragment⟩ := o
  simp only at h
  subst h
  have hpath : Derives uriRl (ref .pathAbsolute) path ∨ Derives uriRl (ref .pathNoscheme) path ∨
      path = [] := ho.path
  have htext : (Plain.mk none path query fragment).text =
      path ++ (marked 63 query ++ marked 35 fragment) := by simp [Plain.text, ended]
  rw [htext]
  rcases hpath with habsolute | hnoscheme | rfl
  · obtain ⟨_, u, rfl, hbyte, -⟩ := Grammar.derives_seq.mp (Grammar.derives_ref.mp habsolute)
    obtain rfl := (Grammar.derives_byte (by decide)).mp hbyte
    refine ⟨[], _, rfl, by simp, ?_⟩
    rintro b ⟨⟩
    exact .inl rfl
  · obtain ⟨u, w, rfl, hu, hw⟩ := Grammar.derives_seq.mp (Grammar.derives_ref.mp hnoscheme)
    have hbytes : ∀ b ∈ u, inClass segmentNcByte b = true := hu.bytes 20 (by decide)
    refine ⟨u, w ++ (marked 63 query ++ marked 35 fragment), by simp, ?_, ?_⟩
    · intro hmem
      exact absurd (hbytes 58 hmem) (by decide)
    · intro b hb
      rcases (slashes_cases hw).1 with rfl | ⟨w, rfl⟩
      · exact .inr (head_tail hb)
      · cases hb
        exact .inl rfl
  · exact ⟨[], _, rfl, by simp, fun b hb => .inr (head_tail hb)⟩

/-- **A relative reference** is made an object without a scheme. -/
theorem create_relative (haccepts : Accepts 451 s) (hfront : Front s) :
    ∃ u, create s = some (some u) ∧ u.scheme = [] := by
  obtain ⟨u, x, rfl, hu, hx⟩ := hfront
  obtain ⟨rs, hfollow, hfinal⟩ := haccepts
  obtain ⟨t, hperform, hscheme, hlast, hok⟩ := perform_relative (u ++ x) (p := 0)
    (t := ⟨new, none⟩) (q := 451) rfl hfollow (not_saves_scheme hu hx hfollow) (markOk_none 0 new)
  have hstate : lastState 451 rs < 600 := by
    simp only [inRanges, relativeStates, List.any_cons, List.any_nil, Bool.or_false,
      Bool.or_eq_true, Bool.and_eq_true, Nat.ble_eq] at hlast
    omega
  have heof := List.all_eq_true.mp relative_rules.2 _ (List.mem_range.mpr hstate)
  rw [hlast, hfinal, Bool.and_self, Bool.not_true, Bool.false_or] at heof
  obtain ⟨m, hm⟩ := Option.isSome_iff_exists.mp heof
  obtain ⟨t', hperform', hscheme', -⟩ := perform_markOk hm hok (u ++ x)
  have hfinishes : Finishes (u ++ x) 451 0 ⟨new, none⟩ (u ++ x) (some t') := by
    refine ⟨rs, hfollow, hfinal, ?_⟩
    rw [Scanner.perform_append, hperform, Option.bind_some, hperform']
  exact ⟨t'.uri, create_of_finishes hfinishes, hscheme'.trans hscheme⟩

/-! ### The accepted texts -/

theorem accepts_of_create {u : Uri} (h : create s = some (some u)) : Accepts 451 s := by
  obtain ⟨⟨q, p, t⟩, hexec, hrest⟩ := Option.bind_eq_some_iff.mp h
  obtain ⟨t', -, hfinal⟩ := Option.map_eq_some_iff.mp hrest
  have hq : isFinal q = true := by
    by_contra hno
    rw [if_neg hno] at hfinal
    cases hfinal
  have hzero : q ≠ 0 := by
    rintro rfl
    cases hq
  obtain ⟨rs, hfollow, rfl, -⟩ := Scanner.follow_of_exec (fun _ => rfl) hexec hzero
  exact ⟨rs, hfollow, hq⟩

/-- A port that is there but empty, behind a scheme: on it `create` throws. -/
def Parts.EmptyPort (x : Parts) : Prop := x.scheme.isSome = true ∧ x.authority.port = some []

/-- **The accepted texts** are the references of uri.rl without such a port. -/
theorem created_iff :
    (∃ u, create s = some (some u)) ↔
      (∃ x : Parts, s = x.text ∧ x.Framed ∧ Derives uriRl (ref .host) x.authority.host ∧
          ¬ x.EmptyPort) ∨
        ∃ o : Plain, s = o.text ∧ o.WellFormed := by
  constructor
  · rintro ⟨u, hu⟩
    have hderives := (accepts_iff s).mp (accepts_of_create hu)
    rcases (derives_iff_parts shares_uriRl).mp hderives with ⟨x, rfl, hx, hhost⟩ | hplain
    · refine .inl ⟨x, rfl, hx, hhost, ?_⟩
      rintro ⟨hscheme, hport⟩
      obtain ⟨scheme, hscheme⟩ := Option.isSome_iff_exists.mp hscheme
      rw [create_parts hx hhost hscheme, if_pos hport] at hu
      cases hu
    · exact .inr hplain
  · rintro (⟨x, rfl, hx, hhost, hport⟩ | ⟨o, rfl, ho⟩)
    · cases hscheme : x.scheme with
      | none =>
          obtain ⟨u, hu, -⟩ := create_relative (accepts_parts hx hhost) (front_parts hscheme)
          exact ⟨u, hu⟩
      | some scheme =>
          have hne : x.authority.port ≠ some [] := fun h => hport ⟨by simp [hscheme], h⟩
          exact ⟨_, by rw [create_parts hx hhost hscheme, if_neg hne]⟩
    · cases hscheme : o.scheme with
      | none =>
          obtain ⟨u, hu, -⟩ := create_relative (accepts_plain ho) (front_plain ho hscheme)
          exact ⟨u, hu⟩
      | some scheme => exact ⟨_, create_plain ho hscheme⟩

end Mingo.Uri
