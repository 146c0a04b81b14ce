import Mingo.Lib.Delimited
import Mingo.Uri.Create

/-!
# The parts of a text

Each part of a reference is free of the delimiter it ends at, so a text is cut at its
delimiters in one way only.

* `Parts.unique` -- two references with an authority and one text have the same parts;
* `Parts.text_ne_plain` -- no reference without an authority has that text.
-/

namespace Mingo.Uri

open Delimited (Splits splits_all splits_cons splits_nil)
open Grammar (Derives)
open Grammar.Expr (ref)
open Scanner (inClass)

variable {on : List (Nat × Nat)} {v x x' : List UInt8} {part part' : Option (List UInt8)}
  {d : UInt8}

/-! ### Parts and delimiters -/

/-- No byte of the part is one of the delimiters. -/
def Free (on : List (Nat × Nat)) (v : List UInt8) : Prop := ∀ b ∈ v, ¬ inClass on b = true

/-- Bytes of a class that has no delimiter in it. -/
theorem free_of_apart {class_ : List (Nat × Nat)} (hapart : Scanner.apart on class_ = true)
    (hv : ∀ b ∈ v, inClass class_ b = true) : Free on v := by
  intro b hb
  simp [Scanner.inClass_of_apart hapart (hv b hb)]

/-- Free of more delimiters is free of fewer. -/
theorem Free.mono {on' : List (Nat × Nat)} (h : Free on v)
    (hcovers : Scanner.covers on on' = true) : Free on' v :=
  fun b hb hdelim => h b hb (Scanner.inClass_of_covers hcovers hdelim)

/-- Two free texts, one behind the other. -/
theorem Free.append {w : List UInt8} (hv : Free on v) (hw : Free on w) : Free on (v ++ w) := by
  intro b hb
  exact (List.mem_append.mp hb).elim (hv b) (hw b)

/-- A byte that is no delimiter, in front of a free text. -/
theorem free_cons {b : UInt8} (hb : inClass on b = false) (hv : Free on v) : Free on (b :: v) := by
  intro c hc
  rcases List.mem_cons.mp hc with rfl | hc
  · simp [hb]
  · exact hv c hc

/-- The part, if it is there, is free of the delimiters. -/
def FreePart (on : List (Nat × Nat)) (part : Option (List UInt8)) : Prop :=
  ∀ v, part = some v → Free on v

/-- A part behind its mark, which is none of the delimiters. -/
theorem free_marked (hd : inClass on d = false) (h : FreePart on part) :
    Free on (marked d part) := by
  cases part with
  | none => simp [marked, Free]
  | some v => exact free_cons hd (h v rfl)

/-- A part that is there begins with its mark. -/
theorem head_marked {b : UInt8} (h : (marked d part).head? = some b) : b = d := by
  cases part with
  | none => cases h
  | some v =>
      cases h
      rfl

/-- The text of a part determines the part. -/
theorem marked_injective (h : marked d part = marked d part') : part = part' := by
  cases part <;> cases part' <;> simp_all [marked]

/-- No part in front of the delimiter `d` is at the beginning of the text. -/
def Passes (on : List (Nat × Nat)) (d : UInt8) (x : List UInt8) : Prop :=
  ∀ v w, Free on v → x ≠ v ++ d :: w

/-- A text free of the delimiters has no part in front of `d`. -/
theorem passes_free (hd : inClass on d = true) (hx : Free on x) : Passes on d x := by
  rintro v w hv rfl
  exact hx d (by simp) hd

/-- Another delimiter at the beginning, and no part in front of `d`. -/
theorem passes_cons {b : UInt8} (hb : inClass on b = true) (hne : b ≠ d) :
    Passes on d (b :: x) := by
  intro v w hv heq
  cases v with
  | nil => exact hne (List.cons.inj heq).1
  | cons c v =>
      obtain ⟨rfl, -⟩ := List.cons.inj heq
      exact hv b List.mem_cons_self hb

/-- **A part in front of its delimiter** is found, and so is that there is none. -/
theorem ended_unique (hd : inClass on d = true) (hpart : FreePart on part)
    (hpart' : FreePart on part') (hx : part = none → Passes on d x)
    (hx' : part' = none → Passes on d x') (heq : ended d part ++ x = ended d part' ++ x') :
    part = part' ∧ x = x' := by
  cases part with
  | none =>
      cases part' with
      | none => exact ⟨rfl, by simpa [ended] using heq⟩
      | some v' => exact absurd (by simpa [ended] using heq) (hx rfl v' x' (hpart' v' rfl))
  | some v =>
      cases part' with
      | none => exact absurd (by simpa [ended] using heq.symm) (hx' rfl v x (hpart v rfl))
      | some v' =>
          have htext : v ++ d :: x = v' ++ d :: x' := by simpa [ended] using heq
          obtain ⟨rfl, hrest⟩ := (splits_cons (hpart v rfl) hd).unique
            (splits_cons (hpart' v' rfl) hd) htext
          exact ⟨rfl, (List.cons.inj hrest).2⟩

/-! ### The authority -/

/-- The delimiters behind an authority. -/
def authorityEnd : List (Nat × Nat) := [(35, 35), (47, 47), (63, 63)]

/-- These, and the `@` behind a userinfo. -/
def userinfoEnd : List (Nat × Nat) := [(35, 35), (47, 47), (63, 64)]

/-- A host is free of them. -/
theorem HostForm.free {h : List UInt8} (hform : HostForm h) : Free userinfoEnd h := by
  cases hform with
  | name hh => exact free_of_apart (by decide) hh
  | literal hx =>
      have hclose : Free userinfoEnd [93] := free_cons (by decide) (by simp [Free])
      exact (free_cons (by decide) (free_of_apart (by decide) hx)).append hclose

/-- **The host** ends at its bracket, or at the first colon. -/
theorem HostForm.unique {h h' : List UInt8} {port port' : Option (List UInt8)}
    (hform : HostForm h) (hform' : HostForm h')
    (heq : h ++ marked 58 port = h' ++ marked 58 port') : h = h' ∧ port = port' := by
  have hbracket {x w : List UInt8} {port : Option (List UInt8)}
      (hw : ∀ b ∈ w, inClass hostByte b = true) : 91 :: x ≠ w ++ marked 58 port := by
    intro heq
    cases w with
    | nil =>
        have hhead : (marked 58 port).head? = some 91 := by
          rw [← List.nil_append (marked 58 port), ← heq, List.head?_cons]
        exact absurd (head_marked hhead) (by decide)
    | cons b w =>
        obtain ⟨rfl, -⟩ := List.cons.inj heq
        exact absurd (hw 91 List.mem_cons_self) (by decide)
  cases hform with
  | name hh =>
      cases hform' with
      | name hh' =>
          have hsplits {w : List UInt8} {port : Option (List UInt8)}
              (hw : ∀ b ∈ w, inClass hostByte b = true) :
              Splits (inClass [(58, 58)] · = true) w (marked 58 port) := by
            refine ⟨free_of_apart (by decide) hw, ?_⟩
            intro b hb
            rw [head_marked hb]
            decide
          obtain ⟨rfl, hport⟩ := (hsplits hh).unique (hsplits hh') heq
          exact ⟨rfl, marked_injective hport⟩
      | literal hx' => exact absurd heq.symm (hbracket hh)
  | @literal x hx =>
      cases hform' with
      | name hh' => exact absurd heq (hbracket hh')
      | @literal x' hx' =>
          have hsplits {w : List UInt8} {port : Option (List UInt8)}
              (hw : ∀ b ∈ w, inClass literalByte b = true) :
              Splits (inClass [(93, 93)] · = true) w (93 :: marked 58 port) :=
            splits_cons (free_of_apart (by decide) hw) (by decide)
          have htext : x ++ 93 :: marked 58 port = x' ++ 93 :: marked 58 port' := by
            simpa using heq
          obtain ⟨rfl, hport⟩ := (hsplits hx).unique (hsplits hx') htext
          exact ⟨rfl, marked_injective (List.cons.inj hport).2⟩

/-- Each part of an authority is free of the delimiters around it. -/
structure Authority.Delimited (a : Authority) : Prop where
  userinfo : FreePart userinfoEnd a.userinfo
  host : HostForm a.host
  port : FreePart userinfoEnd a.port

/-- An authority is free of the delimiters behind it. -/
theorem Authority.Delimited.free {a : Authority} (ha : a.Delimited) : Free authorityEnd a.text := by
  have hcovers : Scanner.covers userinfoEnd authorityEnd = true := by decide
  have huserinfo : Free authorityEnd (ended 64 a.userinfo) := by
    cases hu : a.userinfo with
    | none => simp [ended, Free]
    | some u =>
        have hat : Free authorityEnd [64] := free_cons (by decide) (by simp [Free])
        exact ((ha.userinfo u hu).mono hcovers).append hat
  have hport : Free authorityEnd (marked 58 a.port) :=
    free_marked (by decide) fun v hv => (ha.port v hv).mono hcovers
  exact (huserinfo.append (ha.host.free.mono hcovers)).append hport

/-- **An authority** has one userinfo, one host and one port. -/
theorem Authority.unique {a a' : Authority} (ha : a.Delimited) (ha' : a'.Delimited)
    (heq : a.text = a'.text) : a = a' := by
  have hpasses {a : Authority} (ha : a.Delimited) :
      Passes [(64, 64)] 64 (a.host ++ marked 58 a.port) := by
    have hcovers : Scanner.covers userinfoEnd [(64, 64)] = true := by decide
    exact passes_free (by decide) ((ha.host.free.mono hcovers).append
      (free_marked (by decide) fun v hv => (ha.port v hv).mono hcovers))
  have huser {a : Authority} (ha : a.Delimited) : FreePart [(64, 64)] a.userinfo :=
    fun v hv => (ha.userinfo v hv).mono (by decide)
  have htext : ended 64 a.userinfo ++ (a.host ++ marked 58 a.port) =
      ended 64 a'.userinfo ++ (a'.host ++ marked 58 a'.port) := by
    simpa [Authority.text] using heq
  obtain ⟨hu, hrest⟩ := ended_unique (by decide) (huser ha) (huser ha') (fun _ => hpasses ha)
    (fun _ => hpasses ha') htext
  obtain ⟨hh, hp⟩ := ha.host.unique ha'.host hrest
  cases a
  cases a'
  simp_all

/-! ### The whole text -/

/-- The delimiters behind a scheme. -/
def schemeEnd : List (Nat × Nat) := [(35, 35), (47, 47), (58, 58), (63, 63)]

/-- Each part of a reference is free of the delimiters behind it. -/
structure Parts.Delimited (p : Parts) : Prop where
  scheme : FreePart schemeEnd p.scheme
  authority : p.authority.Delimited
  slash : p.path = [] ∨ ∃ v, p.path = 47 :: v
  path : Free [(35, 35), (63, 63)] p.path
  query : FreePart [(35, 35)] p.query

variable {p p' : Parts}

/-- A scheme is free of them. -/
theorem free_scheme (h : Matches part .scheme) : FreePart schemeEnd part := by
  intro v hv
  obtain ⟨b, w, rfl, hb, hw⟩ := scheme_cases (h v hv)
  have hfirst : inClass schemeEnd b = false := Scanner.inClass_of_apart (by decide) hb
  exact free_cons hfirst (free_of_apart (by decide) hw)

/-- The parts that are words of their productions. -/
theorem Parts.Framed.delimited (hp : p.Framed) (hhost : HostForm p.authority.host) :
    p.Delimited := by
  refine ⟨free_scheme hp.scheme, ⟨?_, hhost, ?_⟩, path_cases hp.path, ?_, ?_⟩
  · exact fun v hv => free_of_apart (by decide) (bytes_userinfo (hp.userinfo v hv))
  · exact fun v hv => free_of_apart (by decide) (bytes_port (hp.port v hv))
  · exact free_of_apart (by decide) (bytes_path hp.path)
  · exact fun v hv => free_of_apart (by decide) (bytes_query (hp.query v hv))

/-- The query and the fragment. -/
theorem tail_unique {query query' fragment fragment' : Option (List UInt8)}
    (hq : FreePart [(35, 35)] query) (hq' : FreePart [(35, 35)] query')
    (heq : marked 63 query ++ marked 35 fragment = marked 63 query' ++ marked 35 fragment') :
    query = query' ∧ fragment = fragment' := by
  have hsplits {query : Option (List UInt8)} (fragment : Option (List UInt8))
      (hq : FreePart [(35, 35)] query) :
      Splits (inClass [(35, 35)] · = true) (marked 63 query) (marked 35 fragment) := by
    refine ⟨free_marked (by decide) hq, ?_⟩
    intro b hb
    rw [head_marked hb]
    decide
  obtain ⟨hquery, hfragment⟩ := (hsplits fragment hq).unique (hsplits fragment' hq') heq
  exact ⟨marked_injective hquery, marked_injective hfragment⟩

/-- **A text has one reference** with an authority. -/
theorem Parts.unique (hp : p.Delimited) (hp' : p'.Delimited) (heq : p.text = p'.text) :
    p = p' := by
  have hscheme (p : Parts) : p.text = ended 58 p.scheme ++ 47 :: 47 :: (p.authority.text ++
      (p.path ++ (marked 63 p.query ++ marked 35 p.fragment))) := by simp [Parts.text]
  rw [hscheme p, hscheme p'] at heq
  have hslash {x : List UInt8} : Passes schemeEnd 58 (47 :: x) :=
    passes_cons (by decide) (by decide)
  obtain ⟨hs, hrest⟩ := ended_unique (by decide) hp.scheme hp'.scheme (fun _ => hslash)
    (fun _ => hslash) heq
  simp only [List.cons.injEq, true_and] at hrest
  have hpath {p : Parts} (hp : p.Delimited) :
      Splits (inClass [(35, 35), (63, 63)] · = true) p.path
        (marked 63 p.query ++ marked 35 p.fragment) := by
    refine ⟨hp.path, ?_⟩
    intro b hb
    rcases head_tail hb with rfl | rfl
    · decide
    · decide
  have hauthority {p : Parts} (hp : p.Delimited) :
      Splits (inClass authorityEnd · = true) p.authority.text
        (p.path ++ (marked 63 p.query ++ marked 35 p.fragment)) := by
    refine ⟨hp.authority.free, ?_⟩
    intro b hb
    rcases hp.slash with hnil | ⟨v, hv⟩
    · rw [hnil, List.nil_append] at hb
      rcases head_tail hb with rfl | rfl
      · decide
      · decide
    · rw [hv] at hb
      cases hb
      decide
  obtain ⟨hauth, hrest⟩ := (hauthority hp).unique (hauthority hp') hrest
  obtain ⟨hpaths, htail⟩ := (hpath hp).unique (hpath hp') hrest
  obtain ⟨hq, hf⟩ := tail_unique hp.query hp'.query htail
  have ha := Authority.unique hp.authority hp'.authority hauth
  cases p
  cases p'
  simp_all

/-- In front of its first colon, a relative reference has another delimiter. -/
theorem Front.passes {s : List UInt8} (hs : Front s) : Passes schemeEnd 58 s := by
  obtain ⟨u, x, rfl, hu, hx⟩ := hs
  intro v w hv heq
  have hhead {b : UInt8} (hb : x.head? = some b) : b ≠ 58 ∧ inClass schemeEnd b = true := by
    rcases hx b hb with rfl | rfl | rfl
    · decide
    · decide
    · decide
  rcases List.append_eq_append_iff.mp heq with ⟨c, rfl, rfl⟩ | ⟨c, rfl, hc⟩
  · cases c with
    | nil => exact (hhead rfl).1 rfl
    | cons b c => exact hv b (by simp) (hhead rfl).2
  · cases c with
    | nil =>
        rw [List.nil_append] at hc
        exact (hhead (b := 58) (by rw [← hc]; rfl)).1 rfl
    | cons b c =>
        obtain ⟨rfl, -⟩ := List.cons.inj hc
        simp at hu

/-- No path without an authority begins with two slashes. -/
theorem Plain.WellFormed.not_slashes {o : Plain} (ho : o.WellFormed) (w : List UInt8) :
    o.path ++ (marked 63 o.query ++ marked 35 o.fragment) ≠ 47 :: 47 :: w := by
  obtain ⟨scheme, path, query, fragment⟩ := o
  have hpath := ho.path
  have htail {w : List UInt8} : marked 63 query ++ marked 35 fragment ≠ 47 :: w := by
    intro heq
    rcases head_tail (b := 47) (by rw [heq]; rfl) with h | h
    · cases h
    · cases h
  have hfirst {on : List (Nat × Nat)} {b : UInt8} {u w : List UInt8}
      (hb : inClass on b = true) (hslash : inClass on 47 = false) : b :: u ≠ 47 :: w := by
    intro heq
    rw [(List.cons.inj heq).1, hslash] at hb
    cases hb
  simp only at hpath ⊢
  rcases hpath with habsolute | hrelative | rfl
  · rcases absolute_cases habsolute with rfl | ⟨b, u, rfl, hb, -⟩
    · simpa using htail
    · simpa using hfirst hb (by decide)
  · cases scheme with
    | some v =>
        obtain ⟨b, u, rfl, hb, -⟩ := rootless_cases (Grammar.derives_ref.mp hrelative)
        exact hfirst hb (by decide)
    | none =>
        obtain ⟨u, v, rfl, hu, -⟩ := Grammar.derives_seq.mp (Grammar.derives_ref.mp hrelative)
        obtain ⟨b, u, rfl⟩ := List.exists_cons_of_ne_nil (segment_ne (.inr hu))
        have hb : inClass segmentNcByte b = true := hu.bytes 20 (by decide) b List.mem_cons_self
        exact hfirst hb (by decide)
  · exact htail

/-- **No reference without an authority** has the text of one with an authority. -/
theorem Parts.text_ne_plain (hp : p.Delimited) {o : Plain} (ho : o.WellFormed) :
    p.text ≠ o.text := by
  intro heq
  have htext : ended 58 p.scheme ++ 47 :: 47 :: (p.authority.text ++
      (p.path ++ (marked 63 p.query ++ marked 35 p.fragment))) =
      ended 58 o.scheme ++ (o.path ++ (marked 63 o.query ++ marked 35 o.fragment)) := by
    simpa [Parts.text, Plain.text] using heq
  have hrelative : o.scheme = none →
      Passes schemeEnd 58 (o.path ++ (marked 63 o.query ++ marked 35 o.fragment)) := by
    intro hscheme
    have hpasses := (front_plain ho hscheme).passes
    rwa [Plain.text, hscheme, ended, Option.elim_none, List.nil_append] at hpasses
  obtain ⟨-, hrest⟩ := ended_unique (by decide) hp.scheme (free_scheme ho.scheme)
    (fun _ => passes_cons (by decide) (by decide)) hrelative htext
  exact ho.not_slashes _ hrest.symm

end Mingo.Uri
