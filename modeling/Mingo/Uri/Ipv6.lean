import Mathlib.Tactic.IntervalCases
import Mathlib.Tactic.Tauto
import Mingo.Lib.Delimited
import Mingo.Uri.Parts

/-!
# IPv6 addresses in both grammars

An address without `::` has eight groups, or six and an IPv4 address.  Around a `::`, the RFC
allows up to seven; uri.rl has all groups in front of it or none, so that with a group in
front they must be seven.

* `derives_rfcAddress`, `derives_uriRlAddress` -- the addresses of the RFC and of uri.rl;
* `address_of_rfc` -- an address of the RFC is one of uri.rl unless it has too few groups, or
  an octet from 200 to 249;
* `not_tooFew`, `not_highOctet` -- and those are none of uri.rl;
* `address_of_uriRl` -- an address of uri.rl is one of the RFC unless it has the byte 2.
-/

namespace Mingo.Uri

open Delimited (Splits splits_nil splits_cons)
open Grammar (Derives derives_alt derives_byte derives_empty derives_opt derives_ref
  derives_seq)
open Grammar.Expr (byte opt ref rep seq seqs upTo)
open Scanner (inClass)

variable {g g' : Production → Rhs} {w f k f' k' p d o : List UInt8} {n m a b : Nat}

/-! ### Groups -/

/-- Up to `n` times is some number of times. -/
theorem derives_upTo_iff {e : Rhs} :
    Derives g (upTo n e) w ↔ ∃ m ≤ n, Derives g (rep m e) w := by
  induction n generalizing w with
  | zero => simp
  | succ n ih =>
      rw [Grammar.derives_upTo_succ]
      constructor
      · rintro (rfl | ⟨u, v, rfl, hu, hv⟩)
        · exact ⟨0, Nat.zero_le _, .repNil⟩
        · obtain ⟨m, hm, hv⟩ := ih.mp hv
          exact ⟨m + 1, Nat.succ_le_succ hm, .repCons hu hv⟩
      · rintro ⟨m, hm, hw⟩
        cases m with
        | zero => exact .inl (Grammar.derives_rep_zero.mp hw)
        | succ m =>
            obtain ⟨u, v, rfl, hu, hv⟩ := Grammar.derives_rep_succ.mp hw
            exact .inr ⟨u, v, rfl, hu, ih.mpr ⟨m, Nat.le_of_succ_le_succ hm, hv⟩⟩

/-- `n` groups with colons between them. -/
def front : Nat → Rhs
  | 0 => .empty
  | n + 1 => seq (rep n group) (ref .h16)

/-- As many groups, of which an IPv4 address may be the last two. -/
def back : Nat → Rhs
  | 0 => .empty
  | 1 => ref .h16
  | n + 2 => seq (rep n group) (ref .ls32)

/-- Both grammars have the same groups. -/
theorem derives_groups (hg : Shares g) {e : Rhs}
    (he : Grammar.refsIn (fun n => decide (n = .h16)) e = true) :
    Derives g e w ↔ Derives uriRl e w := by
  refine Derives.congr (S := fun n => decide (n = .h16)) ?_ he
  intro n hn
  obtain rfl := of_decide_eq_true hn
  have hrhs : g .h16 = uriRl .h16 := hg _ (by decide) (by decide) (by decide)
  rw [hrhs]
  exact ⟨rfl, by decide⟩

/-- The groups in front are the same in both grammars. -/
theorem derives_front (hg : Shares g) : Derives g (front n) w ↔ Derives uriRl (front n) w := by
  refine derives_groups hg ?_
  cases n with
  | zero => rfl
  | succ n => rfl

/-- An address with a gap, and so many groups around it that they fit. -/
def Gapped (g : Production → Rhs) (fits : Nat → Nat → Prop) (w : List UInt8) : Prop :=
  ∃ a b f k, w = f ++ 58 :: 58 :: k ∧ Derives g (front a) f ∧ Derives g (back b) k ∧ fits a b

/-- The gap is two colons. -/
theorem derives_gap : Derives g gap w ↔ w = [58, 58] := by
  simp [gap, derives_byte (show 58 < 256 by decide)]

/-- One alternative of `IPv6address`. -/
theorem derives_gapped {e e' : Rhs} :
    Derives g (seq (opt e) (seq gap e')) w ↔
      ∃ f k, w = f ++ 58 :: 58 :: k ∧ (f = [] ∨ Derives g e f) ∧ Derives g e' k := by
  simp only [derives_seq, derives_opt, derives_gap]
  constructor
  · rintro ⟨f, _, rfl, hf, _, k, rfl, rfl, hk⟩
    exact ⟨f, k, rfl, hf, hk⟩
  · rintro ⟨f, k, rfl, hf, hk⟩
    exact ⟨f, 58 :: 58 :: k, rfl, hf, [58, 58], k, rfl, rfl, hk⟩

/-- What `times` means in front of a gap. -/
structure Counts (g : Production → Rhs) (times : Nat → Rhs → Rhs) (ok : Nat → Nat → Prop) :
    Prop where
  zero : ∀ {m}, ok m 0 ↔ m = 0
  front : ∀ {n f}, Derives g (seq (times n group) (ref .h16)) f ↔
    ∃ m, ok m n ∧ Derives g (front (m + 1)) f

/-- Either no group is in front, or so many as suit those behind. -/
def Suits (ok : Nat → Nat → Prop) (a b : Nat) : Prop :=
  b ≤ 7 ∧ (a = 0 ∨ ∃ m, a = m + 1 ∧ b ≤ 6 ∧ ok m (6 - b))

/-- **The nine alternatives.** -/
theorem derives_address {times : Nat → Rhs → Rhs} {ok : Nat → Nat → Prop}
    (h : Counts g times ok) :
    Derives g (ipv6Address times) w ↔ Derives g (back 8) w ∨ Gapped g (Suits ok) w := by
  have hrhs : ipv6Address times =
      .alt (back 8) (.alt (seq gap (back 7)) (.alt (seq (opt (ref .h16)) (seq gap (back 6)))
      (.alt (seq (opt (seq (times 1 group) (ref .h16))) (seq gap (back 5)))
      (.alt (seq (opt (seq (times 2 group) (ref .h16))) (seq gap (back 4)))
      (.alt (seq (opt (seq (times 3 group) (ref .h16))) (seq gap (back 3)))
      (.alt (seq (opt (seq (times 4 group) (ref .h16))) (seq gap (ref .ls32)))
      (.alt (seq (opt (seq (times 5 group) (ref .h16))) (seq gap (back 1)))
        (seq (opt (seq (times 6 group) (ref .h16))) gap)))))))) := rfl
  have hone {f : List UInt8} : Derives g (ref .h16) f ↔ Derives g (front 1) f := by
    simp [front]
  have htwo {k : List UInt8} : Derives g (ref .ls32) k ↔ Derives g (back 2) k := by
    simp [back]
  have hseven : Derives g (seq gap (back 7)) w ↔ ∃ k, w = 58 :: 58 :: k ∧ Derives g (back 7) k := by
    simp only [derives_seq, derives_gap]
    constructor
    · rintro ⟨_, k, rfl, rfl, hk⟩
      exact ⟨k, rfl, hk⟩
    · rintro ⟨k, rfl, hk⟩
      exact ⟨[58, 58], k, rfl, rfl, hk⟩
  have hlast {e : Rhs} : Derives g (seq (opt e) gap) w ↔
      ∃ f k, w = f ++ 58 :: 58 :: k ∧ (f = [] ∨ Derives g e f) ∧ Derives g (back 0) k := by
    simp [back, derives_gap]
  rw [hrhs]
  simp only [derives_alt, derives_gapped, hseven, hlast, hone, htwo, h.front]
  -- each alternative has the groups behind the gap fixed
  have hfront {b : Nat} (hb : b ≤ 6) {f k : List UInt8}
      (hf : f = [] ∨ ∃ m, ok m (6 - b) ∧ Derives g (front (m + 1)) f)
      (hk : Derives g (back b) k) : Gapped g (Suits ok) (f ++ 58 :: 58 :: k) := by
    rcases hf with rfl | ⟨m, hm, hf⟩
    · exact ⟨0, b, [], k, rfl, .empty, hk, by omega, .inl rfl⟩
    · exact ⟨m + 1, b, f, k, rfl, hf, hk, by omega, .inr ⟨m, rfl, hb, hm⟩⟩
  constructor
  · rintro (h8 | ⟨k, rfl, hk⟩ | ⟨f, k, rfl, hf, hk⟩ | ⟨f, k, rfl, hf, hk⟩ | ⟨f, k, rfl, hf, hk⟩ |
      ⟨f, k, rfl, hf, hk⟩ | ⟨f, k, rfl, hf, hk⟩ | ⟨f, k, rfl, hf, hk⟩ | ⟨f, k, rfl, hf, hk⟩)
    · exact .inl h8
    · exact .inr ⟨0, 7, [], k, rfl, .empty, hk, le_refl 7, .inl rfl⟩
    · exact .inr (hfront (le_refl 6) (hf.imp_right fun hf => ⟨0, h.zero.mpr rfl, hf⟩) hk)
    all_goals exact .inr (hfront (by omega) hf hk)
  · rintro (h8 | ⟨a, b, f, k, rfl, hf, hk, hb, hsuits⟩)
    · exact .inl h8
    · have hf' : f = [] ∨ b ≤ 6 ∧ ∃ m, ok m (6 - b) ∧ Derives g (front (m + 1)) f := by
        rcases hsuits with rfl | ⟨m, rfl, hb6, hm⟩
        · exact .inl (derives_empty.mp hf)
        · exact .inr ⟨hb6, m, hm, hf⟩
      have hsome : f = [] ∨ ∃ m, ok m (6 - b) ∧ Derives g (front (m + 1)) f :=
        hf'.imp_right And.right
      refine .inr ?_
      interval_cases b
      · exact .inr (.inr (.inr (.inr (.inr (.inr (.inr ⟨f, k, rfl, hsome, hk⟩))))))
      · exact .inr (.inr (.inr (.inr (.inr (.inr (.inl ⟨f, k, rfl, hsome, hk⟩))))))
      · exact .inr (.inr (.inr (.inr (.inr (.inl ⟨f, k, rfl, hsome, hk⟩)))))
      · exact .inr (.inr (.inr (.inr (.inl ⟨f, k, rfl, hsome, hk⟩))))
      · exact .inr (.inr (.inr (.inl ⟨f, k, rfl, hsome, hk⟩)))
      · exact .inr (.inr (.inl ⟨f, k, rfl, hsome, hk⟩))
      · refine .inr (.inl ⟨f, k, rfl, hsome.imp_right ?_, hk⟩)
        rintro ⟨m, hm, hf⟩
        obtain rfl := h.zero.mp hm
        exact hf
      · have hnil : f = [] := hf'.resolve_right fun hno => absurd hno.1 (by decide)
        exact .inl ⟨k, by rw [hnil]; rfl, hk⟩

/-- A repetition counts its words. -/
theorem counts_rep (g : Production → Rhs) : Counts g rep fun m n => m = n := by
  refine ⟨Iff.rfl, ?_⟩
  intro n f
  constructor
  · exact fun h => ⟨n, rfl, h⟩
  · rintro ⟨_, rfl, h⟩
    exact h

/-- A bounded repetition counts at most its bound. -/
theorem counts_upTo (g : Production → Rhs) : Counts g upTo fun m n => m ≤ n := by
  refine ⟨Nat.le_zero, ?_⟩
  intro n f
  simp only [front, derives_seq, derives_upTo_iff]
  constructor
  · rintro ⟨u, v, rfl, ⟨m, hm, hu⟩, hv⟩
    exact ⟨m, hm, u, v, rfl, hu, hv⟩
  · rintro ⟨m, hm, u, v, rfl, hu, hv⟩
    exact ⟨u, v, rfl, ⟨m, hm, hu⟩, hv⟩

/-- Conditions that agree on the numbers of groups. -/
theorem Gapped.congr {fits fits' : Nat → Nat → Prop} (h : ∀ a b, fits a b ↔ fits' a b) :
    Gapped g fits w ↔ Gapped g fits' w := by
  simp only [Gapped, h]

/-- **The addresses of uri.rl.** -/
theorem derives_uriRlAddress :
    Derives uriRl (ref .ipv6Address) w ↔
      Derives uriRl (back 8) w ∨
        Gapped uriRl (fun a b => b ≤ 7 ∧ (a = 0 ∨ a + b = 7)) w := by
  rw [derives_ref]
  refine (derives_address (counts_rep uriRl)).trans (or_congr_right (Gapped.congr ?_))
  intro a b
  constructor
  · rintro ⟨hb, rfl | ⟨m, rfl, hb6, rfl⟩⟩
    · exact ⟨hb, .inl rfl⟩
    · exact ⟨hb, .inr (by omega)⟩
  · rintro ⟨hb, rfl | hsum⟩
    · exact ⟨hb, .inl rfl⟩
    · refine ⟨hb, (Nat.eq_zero_or_pos a).imp_right fun ha => ⟨a - 1, by omega, by omega, by omega⟩⟩

/-- **The addresses of the RFC.** -/
theorem derives_rfcAddress :
    Derives rfc3986 (ref .ipv6Address) w ↔
      Derives rfc3986 (back 8) w ∨ Gapped rfc3986 (fun a b => a + b ≤ 7) w := by
  rw [derives_ref]
  refine (derives_address (counts_upTo rfc3986)).trans (or_congr_right (Gapped.congr ?_))
  intro a b
  constructor
  · rintro ⟨hb, rfl | ⟨m, rfl, hb6, hm⟩⟩
    · omega
    · omega
  · intro hsum
    exact ⟨by omega,
      (Nat.eq_zero_or_pos a).imp_right fun ha => ⟨a - 1, by omega, by omega, by omega⟩⟩

/-! ### IPv4 addresses -/

/-- The bytes of an octet. -/
theorem octet_bytes (hg : g = uriRl ∨ g = rfc3986) (ho : Derives g (ref .decOctet) o) :
    ∀ b ∈ o, inClass [(2, 2), (48, 57)] b = true := by
  rcases hg with rfl | rfl
  · exact ho.bytes 20 (by decide)
  · exact ho.bytes 20 (by decide)

/-- Both grammars share their productions. -/
theorem shares_of (hg : g = uriRl ∨ g = rfc3986) : Shares g := by
  rcases hg with rfl | rfl
  · exact shares_uriRl
  · exact shares_rfc3986

/-- Four octets with dots between them. -/
theorem derives_ipv4 (hg : g = uriRl ∨ g = rfc3986) :
    Derives g (ref .ipv4Address) d ↔
      (d.splitOn 46).length = 4 ∧ ∀ o ∈ d.splitOn 46, Derives g (ref .decOctet) o := by
  have hrhs : g .ipv4Address = uriRl .ipv4Address :=
    shares_of hg _ (by decide) (by decide) (by decide)
  have hdot {o : List UInt8} (ho : Derives g (ref .decOctet) o) : 46 ∉ o := fun hmem =>
    absurd (octet_bytes hg ho 46 hmem) (by decide)
  have hshape : Derives g (ref .ipv4Address) d ↔ ∃ o₁ o₂ o₃ o₄,
      d = o₁ ++ 46 :: (o₂ ++ 46 :: (o₃ ++ 46 :: o₄)) ∧ Derives g (ref .decOctet) o₁ ∧
        Derives g (ref .decOctet) o₂ ∧ Derives g (ref .decOctet) o₃ ∧
        Derives g (ref .decOctet) o₄ := by
    have hseqs : uriRl .ipv4Address = seq (ref .decOctet) (seq (byte 46) (seq (ref .decOctet)
        (seq (byte 46) (seq (ref .decOctet) (seq (byte 46) (ref .decOctet)))))) := rfl
    rw [derives_ref, hrhs, hseqs]
    simp only [derives_seq, derives_byte (show 46 < 256 by decide)]
    constructor
    · rintro ⟨o₁, _, rfl, h₁, _, _, rfl, rfl, o₂, _, rfl, h₂, _, _, rfl, rfl, o₃, _, rfl, h₃, _, o₄,
        rfl, rfl, h₄⟩
      exact ⟨o₁, o₂, o₃, o₄, rfl, h₁, h₂, h₃, h₄⟩
    · rintro ⟨o₁, o₂, o₃, o₄, rfl, h₁, h₂, h₃, h₄⟩
      exact ⟨o₁, _, rfl, h₁, [46], _, rfl, rfl, o₂, _, rfl, h₂, [46], _, rfl, rfl, o₃, _, rfl, h₃,
        [46], o₄, rfl, rfl, h₄⟩
  rw [hshape]
  constructor
  · rintro ⟨o₁, o₂, o₃, o₄, rfl, h₁, h₂, h₃, h₄⟩
    rw [List.splitOn_append_cons_self_of_not_mem (hdot h₁),
      List.splitOn_append_cons_self_of_not_mem (hdot h₂),
      List.splitOn_append_cons_self_of_not_mem (hdot h₃), List.splitOn_eq_singleton (hdot h₄)]
    simp only [List.forall_mem_cons]
    exact ⟨rfl, h₁, h₂, h₃, h₄, by simp⟩
  · rintro ⟨hlen, hall⟩
    obtain ⟨o₁, o₂, o₃, o₄, hos⟩ := List.length_eq_four.mp hlen
    refine ⟨o₁, o₂, o₃, o₄, ?_, hall o₁ (by simp [hos]), hall o₂ (by simp [hos]),
      hall o₃ (by simp [hos]), hall o₄ (by simp [hos])⟩
    have hjoined : [46].intercalate (d.splitOn 46) = d := List.intercalate_splitOn 46
    rw [← hjoined, hos]
    simp

/-- The octets up to 199 and from 250. -/
def otherOctet : Rhs :=
  Grammar.Expr.alts digit [seq (Grammar.Expr.chars [(49, 57)]) digit, seq (byte 49) (rep 2 digit),
    seqs [byte 50, byte 53, Grammar.Expr.chars [(48, 53)]]]

/-- `dec_octet`, with `two` where the RFC has the digit 2. -/
theorem derives_octet {two : Nat} (htwo : two < 256) (hrhs : g .decOctet = decOctet two) :
    Derives g (ref .decOctet) o ↔ Derives uriRl otherOctet o ∨
      ∃ c e, o = [UInt8.ofNat two, c, e] ∧ inClass [(48, 52)] c = true ∧
        inClass Scanner.digit e = true := by
  have hother : Derives g otherOctet o ↔ Derives uriRl otherOctet o :=
    Derives.congr (S := fun _ => false) (by simp) (by decide)
  rw [← hother, derives_ref, hrhs]
  have hbyte {b : Nat} (hb : b < 256) {u : List UInt8} :
      Derives g (byte b) u ↔ u = [UInt8.ofNat b] := derives_byte hb
  have htwos : Derives g (seqs [byte two, Grammar.Expr.chars [(48, 52)], digit]) o ↔
      ∃ c e, o = [UInt8.ofNat two, c, e] ∧ inClass [(48, 52)] c = true ∧
        inClass Scanner.digit e = true := by
    simp only [seqs, derives_seq, hbyte htwo, Grammar.derives_chars, digit]
    constructor
    · rintro ⟨_, _, rfl, rfl, _, _, rfl, ⟨c, hc, rfl⟩, e, he, rfl⟩
      exact ⟨c, e, rfl, hc, he⟩
    · rintro ⟨c, e, rfl, hc, he⟩
      exact ⟨[UInt8.ofNat two], [c, e], rfl, rfl, [c], [e], rfl, ⟨c, hc, rfl⟩, e, he, rfl⟩
  rw [← htwos]
  simp only [decOctet, otherOctet, Grammar.Expr.alts, derives_alt]
  tauto

/-- An octet from 200 to 249. -/
def From200 (o : List UInt8) : Prop :=
  ∃ c e, o = [50, c, e] ∧ inClass [(48, 52)] c = true ∧ inClass Scanner.digit e = true

/-- The octets of the RFC: those that uri.rl has as well, and those from 200 to 249. -/
theorem derives_rfcOctet :
    Derives rfc3986 (ref .decOctet) o ↔ Derives uriRl otherOctet o ∨ From200 o :=
  derives_octet (by decide) rfl

/-- The byte 2 stands where the digit should. -/
theorem derives_uriRlOctet :
    Derives uriRl (ref .decOctet) o ↔ Derives uriRl otherOctet o ∨
      ∃ c e, o = [2, c, e] ∧ inClass [(48, 52)] c = true ∧ inClass Scanner.digit e = true :=
  derives_octet (by decide) rfl

/-- uri.rl has no octet from 200 to 249. -/
theorem not_octet (ho : From200 o) : ¬ Derives uriRl (ref .decOctet) o := by
  obtain ⟨c, e, rfl, hc, he⟩ := ho
  have hall := Scanner.forall_byte (P := fun c => !inClass [(48, 52)] c ||
    (List.range 256).all fun e => !inClass Scanner.digit (UInt8.ofNat e) ||
      Grammar.reads uriRl 20 [[ref .decOctet]] [50, c, UInt8.ofNat e] == some false)
    (by decide +kernel) c
  rw [hc, Bool.not_true, Bool.false_or] at hall
  have hread := List.all_eq_true.mp hall e.toNat (List.mem_range.mpr e.toNat_lt)
  rw [UInt8.ofNat_toNat, he, Bool.not_true, Bool.false_or] at hread
  rw [Grammar.derives_iff_reads 20 (eq_of_beq hread)]
  decide

/-! ### The text of groups -/

/-- A repetition, by its last word. -/
theorem derives_rep_snoc {e : Rhs} :
    Derives g (rep (n + 1) e) w ↔ ∃ u v, w = u ++ v ∧ Derives g (rep n e) u ∧ Derives g e v := by
  induction n generalizing w with
  | zero => simp [Grammar.derives_rep_succ]
  | succ n ih =>
      rw [Grammar.derives_rep_succ]
      constructor
      · rintro ⟨u, v, rfl, hu, hv⟩
        obtain ⟨v, x, rfl, hv, hx⟩ := ih.mp hv
        exact ⟨u ++ v, x, by simp, .repCons hu hv, hx⟩
      · rintro ⟨u, x, rfl, hu, hx⟩
        obtain ⟨u, v, rfl, hu, hv⟩ := Grammar.derives_rep_succ.mp hu
        exact ⟨u, v ++ x, by simp, hu, ih.mpr ⟨v, x, rfl, hv, hx⟩⟩

/-- A group is not empty and has no delimiter. -/
theorem h16_text (h : Derives uriRl (ref .h16) w) : w ≠ [] ∧ 58 ∉ w ∧ 46 ∉ w := by
  have hbytes : ∀ b ∈ w, inClass Scanner.xdigit b = true := h.bytes 20 (by decide)
  refine ⟨?_, fun hmem => absurd (hbytes 58 hmem) (by decide), fun hmem =>
    absurd (hbytes 46 hmem) (by decide)⟩
  rintro rfl
  have hnil : Derives uriRl (ref .h16) [] ↔ false = true :=
    Grammar.derives_iff_reads 20 (by decide)
  simp [hnil] at h

/-- Groups that end in a colon each. -/
structure Groups (n : Nat) (p : List UInt8) : Prop where
  colons : p.count 58 = n
  dotless : 46 ∉ p
  ends : p = [] ∨ ∃ p', p = p' ++ [58]
  pieces : ∀ {w : List UInt8}, [] ∉ w.splitOn 58 → [] ∉ (p ++ w).splitOn 58

/-- The groups of a repetition. -/
theorem groups_of_rep (h : Derives uriRl (rep n group) p) : Groups n p := by
  induction n generalizing p with
  | zero =>
      obtain rfl := Grammar.derives_rep_zero.mp h
      exact ⟨by simp, by simp, .inl rfl, by simp⟩
  | succ n ih =>
      obtain ⟨u, v, rfl, hu, hv⟩ := Grammar.derives_rep_succ.mp h
      obtain ⟨x, _, rfl, hx, hcolon⟩ := derives_seq.mp hu
      obtain rfl := (derives_byte (by decide)).mp hcolon
      obtain ⟨hne, hnocolon, hnodot⟩ := h16_text hx
      obtain ⟨hcolons, hdotless, hends, hpieces⟩ := ih hv
      refine ⟨?_, ?_, .inr ?_, ?_⟩
      · simp [List.count_eq_zero_of_not_mem hnocolon, hcolons]
      · simp [hnodot, hdotless]
      · rcases hends with rfl | ⟨p', rfl⟩
        · exact ⟨x, by simp⟩
        · exact ⟨x ++ 58 :: p', by simp⟩
      · intro w hw
        have htext : x ++ [UInt8.ofNat 58] ++ v ++ w = x ++ 58 :: (v ++ w) := by simp
        rw [htext, List.splitOn_append_cons_self_of_not_mem hnocolon, List.mem_cons]
        rintro (hnil | hmem)
        · exact hne hnil.symm
        · exact hpieces hw hmem

/-- The groups of a side of a gap; an IPv4 address counts for two. -/
def units (w : List UInt8) : Nat :=
  if w = [] then 0 else w.count 58 + 1 + if 46 ∈ w then 1 else 0

/-- The units in front of the gap. -/
theorem front_text (h : Derives uriRl (front n) f) :
    units f = n ∧ 46 ∉ f ∧ (0 < n → [] ∉ f.splitOn 58) := by
  cases n with
  | zero =>
      obtain rfl := derives_empty.mp h
      exact ⟨by simp [units], by simp, by simp⟩
  | succ n =>
      obtain ⟨p, x, rfl, hp, hx⟩ := derives_seq.mp h
      obtain ⟨hcolons, hdotless, -, hpieces⟩ := groups_of_rep hp
      obtain ⟨hne, hnocolon, hnodot⟩ := h16_text hx
      have hsingle : [] ∉ x.splitOn 58 := by
        rw [List.splitOn_eq_singleton hnocolon, List.mem_singleton]
        exact fun hnil => hne hnil.symm
      refine ⟨?_, by simp [hdotless, hnodot], fun _ => hpieces hsingle⟩
      simp [units, hne, hdotless, hnodot, hcolons, List.count_eq_zero_of_not_mem hnocolon]

/-- The bytes of an IPv4 address. -/
theorem ipv4_bytes (hg : g = uriRl ∨ g = rfc3986) (h : Derives g (ref .ipv4Address) d) :
    ∀ b ∈ d, inClass [(2, 2), (46, 46), (48, 57)] b = true := by
  rcases hg with rfl | rfl
  · exact h.bytes 20 (by decide)
  · exact h.bytes 20 (by decide)

/-- An IPv4 address has a dot and no colon. -/
theorem ipv4_text (hg : g = uriRl ∨ g = rfc3986) (h : Derives g (ref .ipv4Address) d) :
    58 ∉ d ∧ 46 ∈ d := by
  refine ⟨fun hmem => absurd (ipv4_bytes hg h 58 hmem) (by decide), ?_⟩
  by_contra hno
  have hlen := ((derives_ipv4 hg).mp h).1
  rw [List.splitOn_eq_singleton hno] at hlen
  cases hlen

/-- Behind the groups of an address, there is a group or an IPv4 address. -/
theorem derives_back (hg : g = uriRl ∨ g = rfc3986) :
    Derives g (back n) k ↔ Derives uriRl (front n) k ∨
      ∃ m p d, n = m + 2 ∧ k = p ++ d ∧ Derives uriRl (rep m group) p ∧
        Derives g (ref .ipv4Address) d := by
  have hshares := shares_of hg
  have hh16 {x : List UInt8} : Derives g (ref .h16) x ↔ Derives uriRl (ref .h16) x :=
    derives_groups hshares (by decide)
  match n with
  | 0 => simp [back, front]
  | 1 => simpa [back, front] using hh16
  | n + 2 =>
      have hrep {p : List UInt8} : Derives g (rep n group) p ↔ Derives uriRl (rep n group) p :=
        derives_groups hshares rfl
      have hrhs : g .ls32 = .alt (seq (ref .h16) (seq (byte 58) (ref .h16))) (ref .ipv4Address) :=
        hshares .ls32 (by decide) (by decide) (by decide)
      have hcolon {u : List UInt8} : Derives g (byte 58) u ↔ u = [58] := derives_byte (by decide)
      constructor
      · intro hk
        obtain ⟨p, l, rfl, hp, hl⟩ := derives_seq.mp hk
        rw [derives_ref, hrhs, derives_alt] at hl
        rcases hl with hl | hl
        · obtain ⟨x, _, rfl, hx, hl⟩ := derives_seq.mp hl
          obtain ⟨_, y, rfl, hu, hy⟩ := derives_seq.mp hl
          obtain rfl := hcolon.mp hu
          have hgroup : Derives uriRl group (x ++ [58]) :=
            .seq (hh16.mp hx) ((derives_byte (by decide)).mpr rfl)
          have hfront : Derives uriRl (front (n + 2)) (p ++ (x ++ [58]) ++ y) :=
            .seq (derives_rep_snoc.mpr ⟨p, _, rfl, hrep.mp hp, hgroup⟩) (hh16.mp hy)
          exact .inl (by simpa using hfront)
        · exact .inr ⟨n, p, l, rfl, rfl, hrep.mp hp, hl⟩
      · rintro (hk | ⟨m, p, d, hm, rfl, hp, hd⟩)
        · obtain ⟨q, y, rfl, hq, hy⟩ := derives_seq.mp hk
          obtain ⟨p, u, rfl, hp, hu⟩ := derives_rep_snoc.mp hq
          obtain ⟨x, v, rfl, hx, hv⟩ := derives_seq.mp hu
          obtain rfl := (derives_byte (by decide)).mp hv
          have hls : Derives g (ref .ls32) (x ++ ([58] ++ y)) := by
            rw [derives_ref, hrhs]
            exact .left (.seq (hh16.mpr hx) (.seq (hcolon.mpr rfl) (hh16.mpr hy)))
          have hback : Derives g (back (n + 2)) (p ++ (x ++ ([58] ++ y))) :=
            .seq (hrep.mpr hp) hls
          simpa using hback
        · obtain rfl : n = m := by omega
          refine .seq (hrep.mpr hp) ?_
          rw [derives_ref, hrhs]
          exact .right hd

/-- An address ends in this IPv4 address. -/
def EndsInIpv4 (w d : List UInt8) : Prop := (w = d ∨ ∃ p, w = p ++ 58 :: d) ∧ 58 ∉ d ∧ 46 ∈ d

/-- The units behind the gap, of which an IPv4 address is the last two. -/
theorem back_text (hg : g = uriRl ∨ g = rfc3986) (h : Derives g (back n) k) :
    units k = n ∧ (0 < n → [] ∉ k.splitOn 58) ∧
      (46 ∉ k ∨ ∃ d, EndsInIpv4 k d ∧ Derives g (ref .ipv4Address) d) := by
  rcases (derives_back hg).mp h with hk | ⟨m, p, d, rfl, rfl, hp, hd⟩
  · obtain ⟨hunits, hdotless, hpieces⟩ := front_text hk
    exact ⟨hunits, hpieces, .inl hdotless⟩
  · obtain ⟨hcolons, hdotless, hends, hpieces⟩ := groups_of_rep hp
    obtain ⟨hnocolon, hdot⟩ := ipv4_text hg hd
    have hne : d ≠ [] := List.ne_nil_of_mem hdot
    have hsingle : [] ∉ d.splitOn 58 := by
      rw [List.splitOn_eq_singleton hnocolon, List.mem_singleton]
      exact fun hnil => hne hnil.symm
    refine ⟨?_, fun _ => hpieces hsingle, .inr ⟨d, ⟨?_, hnocolon, hdot⟩, hd⟩⟩
    · simp [units, hne, hdot, hcolons, List.count_eq_zero_of_not_mem hnocolon]
    · rcases hends with rfl | ⟨p', rfl⟩
      · exact .inl rfl
      · exact .inr ⟨p', by simp⟩

/-- The ending behind a gap is the ending of the whole. -/
theorem EndsInIpv4.behind_gap (h : EndsInIpv4 k d) : EndsInIpv4 (f ++ 58 :: 58 :: k) d := by
  obtain ⟨hk, hd⟩ := h
  refine ⟨.inr ?_, hd⟩
  rcases hk with rfl | ⟨p, rfl⟩
  · exact ⟨f ++ [58], by simp⟩
  · exact ⟨f ++ 58 :: 58 :: p, by simp⟩

/-- A text has one such ending. -/
theorem EndsInIpv4.unique {d' : List UInt8} (h : EndsInIpv4 w d) (h' : EndsInIpv4 w d') :
    d = d' := by
  have hlast {d : List UInt8} (h : EndsInIpv4 w d) : (w.splitOn 58).getLast? = some d := by
    obtain ⟨rfl | ⟨p, rfl⟩, hd, -⟩ := h
    · simp [List.splitOn_eq_singleton hd]
    · rw [List.splitOn_append_cons_self, List.splitOn_eq_singleton hd]
      simp
  exact Option.some.inj ((hlast h).symm.trans (hlast h'))

/-- An address of uri.rl that has a dot. -/
theorem address_text (h : Derives uriRl (ref .ipv6Address) w) :
    46 ∉ w ∨ ∃ d, EndsInIpv4 w d ∧ Derives uriRl (ref .ipv4Address) d := by
  rcases derives_uriRlAddress.mp h with hw | ⟨a, b, f, k, rfl, hf, hk, -⟩
  · exact (back_text (.inl rfl) hw).2.2
  · rcases (back_text (.inl rfl) hk).2.2 with hdotless | ⟨d, hends, hd⟩
    · exact .inl (by simp [(front_text hf).2.1, hdotless])
    · exact .inr ⟨d, hends.behind_gap, hd⟩

/-! ### The difference -/

/-- The groups behind a gap, in the other grammar, unless an octet is in the way. -/
theorem back_transfer {bad : List UInt8 → Prop} (hg : g = uriRl ∨ g = rfc3986)
    (hg' : g' = uriRl ∨ g' = rfc3986)
    (hoctet : ∀ o, Derives g (ref .decOctet) o → Derives g' (ref .decOctet) o ∨ bad o)
    (h : Derives g (back n) k) :
    Derives g' (back n) k ∨ ∃ d, EndsInIpv4 k d ∧ ∃ o ∈ d.splitOn 46, bad o := by
  rcases (derives_back hg).mp h with hk | ⟨m, p, d, rfl, rfl, hp, hd⟩
  · exact .inl ((derives_back hg').mpr (.inl hk))
  · obtain ⟨hlen, hall⟩ := (derives_ipv4 hg).mp hd
    by_cases hbad : ∃ o ∈ d.splitOn 46, bad o
    · refine .inr ⟨d, ⟨?_, ipv4_text hg hd⟩, hbad⟩
      rcases (groups_of_rep hp).ends with rfl | ⟨p', rfl⟩
      · exact .inl rfl
      · exact .inr ⟨p', by simp⟩
    · have hd' : Derives g' (ref .ipv4Address) d := by
        refine (derives_ipv4 hg').mpr ⟨hlen, fun o ho => ?_⟩
        exact (hoctet o (hall o ho)).resolve_right fun hno => hbad ⟨o, ho, hno⟩
      exact .inl ((derives_back hg').mpr (.inr ⟨m, p, d, rfl, rfl, hp, hd'⟩))

/-- A gap with a group in front of it, and fewer than seven groups around it. -/
def TooFew (w : List UInt8) : Prop :=
  ∃ f k, w = f ++ 58 :: 58 :: k ∧ [] ∉ f.splitOn 58 ∧ units f + units k < 7

/-- An address with an octet from 200 to 249. -/
def HighOctet (w : List UInt8) : Prop := ∃ d, EndsInIpv4 w d ∧ ∃ o ∈ d.splitOn 46, From200 o

/-- **An address of the RFC** is one of uri.rl, or it is one of these. -/
theorem address_of_rfc (h : Derives rfc3986 (ref .ipv6Address) w) :
    Derives uriRl (ref .ipv6Address) w ∨ TooFew w ∨ HighOctet w := by
  have hoctet : ∀ o, Derives rfc3986 (ref .decOctet) o →
      Derives uriRl (ref .decOctet) o ∨ From200 o := fun o ho =>
    (derives_rfcOctet.mp ho).imp_left fun h => derives_uriRlOctet.mpr (.inl h)
  rcases derives_rfcAddress.mp h with hw | ⟨a, b, f, k, rfl, hf, hk, hsum⟩
  · rcases back_transfer (.inr rfl) (.inl rfl) hoctet hw with hw | hhigh
    · exact .inl (derives_uriRlAddress.mpr (.inl hw))
    · exact .inr (.inr hhigh)
  · have hf' := (derives_front shares_rfc3986).mp hf
    rcases back_transfer (.inr rfl) (.inl rfl) hoctet hk with hk' | ⟨d, hends, hbad⟩
    · by_cases hfits : a = 0 ∨ a + b = 7
      · exact .inl (derives_uriRlAddress.mpr
          (.inr ⟨a, b, f, k, rfl, hf', hk', by omega, hfits⟩))
      · obtain ⟨hunits, -, hpieces⟩ := front_text hf'
        have hunits' := (back_text (.inl rfl) hk').1
        exact .inr (.inl ⟨f, k, rfl, hpieces (by omega), by omega⟩)
    · exact .inr (.inr ⟨d, hends.behind_gap, hbad⟩)

/-- No address of uri.rl has a group in front of its gap and fewer than seven around it. -/
theorem not_tooFew (h : Derives uriRl (ref .ipv6Address) w) : ¬ TooFew w := by
  rintro ⟨f, k, rfl, hpieces, hfew⟩
  have hcolon (x : List UInt8) : (58 :: x).splitOn 58 = [] :: x.splitOn 58 :=
    List.splitOn_append_cons_self_of_not_mem List.not_mem_nil x
  have hgap {f k : List UInt8} : [] ∈ (f ++ 58 :: 58 :: k).splitOn 58 := by
    rw [List.splitOn_append_cons_self, hcolon]
    simp
  rcases derives_uriRlAddress.mp h with hw | ⟨a, b, f', k', heq, hf', hk', -, hfits⟩
  · exact (back_text (.inl rfl) hw).2.1 (by decide) hgap
  · obtain ⟨hunits, -, hpieces'⟩ := front_text hf'
    have hunits' := (back_text (.inl rfl) hk').1
    rcases Nat.eq_zero_or_pos a with rfl | ha
    · obtain rfl := derives_empty.mp hf'
      cases f with
      | nil => simp at hpieces
      | cons c f =>
          obtain ⟨rfl, -⟩ := List.cons.inj heq
          simp [hcolon] at hpieces
    · obtain ⟨rfl, rfl⟩ := Delimited.gap_unique hpieces (hpieces' ha) heq
      omega

/-- No address of uri.rl has an octet from 200 to 249. -/
theorem not_highOctet (h : Derives uriRl (ref .ipv6Address) w) : ¬ HighOctet w := by
  rintro ⟨d, hends, o, ho, hhigh⟩
  rcases address_text h with hdotless | ⟨d', hends', hd'⟩
  · obtain ⟨rfl | ⟨p, rfl⟩, -, hdot⟩ := hends
    · exact hdotless hdot
    · exact hdotless (by simp [hdot])
  · obtain rfl := hends.unique hends'
    exact not_octet hhigh (((derives_ipv4 (.inl rfl)).mp hd').2 o ho)

/-- **An address of uri.rl** without the byte 2 is one of the RFC. -/
theorem address_of_uriRl (h : Derives uriRl (ref .ipv6Address) w) (hno : 2 ∉ w) :
    Derives rfc3986 (ref .ipv6Address) w := by
  have hoctet : ∀ o, Derives uriRl (ref .decOctet) o →
      Derives rfc3986 (ref .decOctet) o ∨ 2 ∈ o := by
    intro o ho
    rcases derives_uriRlOctet.mp ho with ho | ⟨c, e, rfl, -⟩
    · exact .inl (derives_rfcOctet.mpr (.inl ho))
    · exact .inr List.mem_cons_self
  have hback {k : List UInt8} {n : Nat} (hk : Derives uriRl (back n) k) (hno : 2 ∉ k) :
      Derives rfc3986 (back n) k := by
    rcases back_transfer (.inl rfl) (.inr rfl) hoctet hk with hk | ⟨d, hends, o, ho, hmem⟩
    · exact hk
    · have hd := Delimited.mem_of_mem_splitOn ho hmem
      obtain ⟨rfl | ⟨p, rfl⟩, -⟩ := hends
      · exact absurd hd hno
      · exact absurd (by simp [hd]) hno
  rcases derives_uriRlAddress.mp h with hw | ⟨a, b, f, k, rfl, hf, hk, hb, hfits⟩
  · exact derives_rfcAddress.mpr (.inl (hback hw hno))
  · have hk' := hback hk fun hmem => hno (by simp [hmem])
    exact derives_rfcAddress.mpr
      (.inr ⟨a, b, f, k, rfl, (derives_front shares_rfc3986).mpr hf, hk', by omega⟩)

end Mingo.Uri
