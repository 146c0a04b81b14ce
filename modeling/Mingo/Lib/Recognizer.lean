import Mingo.Lib.Buckets
import Mingo.Lib.Grammar
import Mingo.Lib.Regions

/-!
# Scanners that recognise a grammar

A table that a generator made from a grammar is checked against it.  `explore` starts with
the first state and the stack of the start expression and follows both at once: the bytes
are split by the rules of the state and by the heads of the stacks, and each part leads to
a state with the stacks that are left.  When the pairs met on the way are used up, the
scanner accepts from each state the words of its stacks (`accepts_iff_of_recognizes`).
-/

namespace Grammar

open Scanner (inClass testBit_bits)

variable {A N : Type} {m : Scanner A} {final : Nat → Bool} {g : N → Expr N}

/-- A state, and the stacks that are left when the scan is in it. -/
abbrev Pair (N : Type) := Nat × List (List (Expr N))

/-- Some bytes, the state they lead to and the stacks behind them. -/
structure Part (N : Type) where
  bytes : Nat
  next : Option Nat
  tails : List (List (Expr N))

/-- Parts without bytes are left out. -/
def consPart (p : Part N) (ps : List (Part N)) : List (Part N) :=
  bif Nat.beq p.bytes 0 then ps else p :: ps

theorem mem_consPart {p p' : Part N} {ps : List (Part N)} {b : UInt8}
    (hbit : p'.bytes.testBit b.toNat = true) (h : p' = p ∨ p' ∈ ps) : p' ∈ consPart p ps := by
  rw [consPart]
  cases hzero : Nat.beq p.bytes 0 with
  | false => simpa using h
  | true =>
      rcases h with rfl | h
      · rw [Nat.eq_of_beq_eq_true hzero, Nat.zero_testBit] at hbit
        cases hbit
      · simpa using h

/-- The pairs behind the parts, unless there are stacks where the scan has no rule. -/
def pairsOf : List (Part N) → Option (List (Pair N))
  | [] => some []
  | ⟨_, none, []⟩ :: ps => pairsOf ps
  | ⟨_, none, _ :: _⟩ :: _ => none
  | ⟨_, some q, ks⟩ :: ps => (pairsOf ps).map ((q, ks) :: ·)

theorem mem_pairsOf {p : Part N} {ps : List (Part N)} {l : List (Pair N)}
    (h : pairsOf ps = some l) (hp : p ∈ ps) :
    (p.next = none ∧ p.tails = []) ∨ ∃ q, p.next = some q ∧ (q, p.tails) ∈ l := by
  induction ps generalizing l with
  | nil => cases hp
  | cons p₀ ps ih =>
      obtain ⟨μ, next, tails⟩ := p₀
      cases next with
      | none =>
          cases tails with
          | nil =>
              rcases List.mem_cons.mp hp with rfl | hp
              · exact .inl ⟨rfl, rfl⟩
              · exact ih h hp
          | cons k ks => cases h
      | some q =>
          obtain ⟨l, hl, rfl⟩ := Option.map_eq_some_iff.mp h
          rcases List.mem_cons.mp hp with rfl | hp
          · exact .inr ⟨q, rfl, List.mem_cons_self⟩
          · rcases ih hl hp with hnone | ⟨q', hq', hmem⟩
            · exact .inl hnone
            · exact .inr ⟨q', hq', List.mem_cons_of_mem _ hmem⟩

/-- The row of a state, found fast. -/
def rowOf (m : Scanner A) (q : Nat) : List (Scanner.Rule A) :=
  (((Buckets.ofList 10 m.table).find 10 q).lookup q).getD []

theorem rowOf_eq (m : Scanner A) (q : Nat) : rowOf m q = m.rules q := by
  rw [rowOf, Buckets.lookup_find_ofList, Scanner.rules]

variable [BEq N]

/-- The stack `k` stands behind the bytes of `on`. -/
def splitBy (on : Nat) (k : List (Expr N)) : List (Part N) → List (Part N)
  | [] => []
  | p :: ps =>
      consPart ⟨p.bytes &&& on, p.next, p.tails.insert k⟩
        (consPart ⟨p.bytes ^^^ (p.bytes &&& on), p.next, p.tails⟩ (splitBy on k ps))

def splitAll : List (Head N) → List (Part N) → List (Part N)
  | [], ps => ps
  | .stop :: hs, ps => splitAll hs ps
  | .read on k :: hs, ps => splitBy (Scanner.bits on) k (splitAll hs ps)

/-- A part that has the byte is split into one that still has it. -/
theorem mem_splitBy (on : List (Nat × Nat)) (k : List (Expr N)) {p : Part N} {ps : List (Part N)}
    {b : UInt8} (hp : p ∈ ps) (hbit : p.bytes.testBit b.toNat = true) :
    ∃ p' ∈ splitBy (Scanner.bits on) k ps, p'.bytes.testBit b.toNat = true ∧
      p'.next = p.next ∧
      p'.tails = if inClass on b then p.tails.insert k else p.tails := by
  induction ps with
  | nil => cases hp
  | cons p₀ ps ih =>
      rw [splitBy]
      rcases List.mem_cons.mp hp with rfl | hp
      · cases hon : inClass on b with
        | true =>
            have hbit' : (p.bytes &&& Scanner.bits on).testBit b.toNat = true := by
              rw [Nat.testBit_and, hbit, testBit_bits, hon]
              rfl
            exact ⟨_, mem_consPart hbit' (.inl rfl), hbit', rfl, rfl⟩
        | false =>
            have hbit' : (p.bytes ^^^ (p.bytes &&& Scanner.bits on)).testBit b.toNat = true := by
              rw [Nat.testBit_xor, Nat.testBit_and, hbit, testBit_bits, hon]
              rfl
            exact ⟨⟨_, p.next, p.tails⟩,
              mem_consPart hbit' (.inr (mem_consPart hbit' (.inl rfl))), hbit', rfl, rfl⟩
      · obtain ⟨p', hp', hbit', hrest⟩ := ih hp
        exact ⟨p', mem_consPart hbit' (.inr (mem_consPart hbit' (.inr hp'))), hbit', hrest⟩

theorem mem_splitAll (hs : List (Head N)) {p : Part N} {ps : List (Part N)} {b : UInt8}
    (hp : p ∈ ps) (hbit : p.bytes.testBit b.toNat = true) (hstacks : p.tails = []) :
    ∃ p' ∈ splitAll hs ps, p'.bytes.testBit b.toNat = true ∧ p'.next = p.next ∧
      p'.tails = following b hs := by
  induction hs with
  | nil => exact ⟨p, hp, hbit, rfl, hstacks⟩
  | cons d hs ih =>
      obtain ⟨p', hp', hbit', hnext, hfollowing⟩ := ih
      cases d with
      | stop => exact ⟨p', hp', hbit', hnext, hfollowing⟩
      | read on k =>
          obtain ⟨p'', hp'', hbit'', hnext', hstacks'⟩ := mem_splitBy on k hp' hbit'
          exact ⟨p'', hp'', hbit'', hnext'.trans hnext, by rw [hstacks', hfollowing, following]⟩

/-- The pairs one byte behind a pair, provided the scan may end there if the stacks may. -/
def expand (m : Scanner A) (final : Nat → Bool) (g : N → Expr N) (fuel : Nat) (p : Pair N) :
    Option (List (Pair N)) :=
  (allHeads g fuel p.2).bind fun hs =>
    bif stops hs == final p.1 then
      pairsOf (splitAll hs ((Scanner.rowParts m.flag Scanner.allBytes (rowOf m p.1)).map
        fun part => ⟨part.1, part.2.map (·.next), []⟩))
    else none

/-- Expand the pairs of `work` and those behind them, each once. -/
def explore (m : Scanner A) (final : Nat → Bool) (g : N → Expr N) (fuel : Nat) :
    Nat → List (Pair N) → Buckets (Pair N) → Bool
  | _, [], _ => true
  | 0, _ :: _, _ => false
  | steps + 1, p :: work, seen =>
      bif (seen.find 10 p.1).elem p then explore m final g fuel steps work seen
      else
        match expand m final g fuel p with
        | none => false
        | some ps => explore m final g fuel steps (ps ++ work) (seen.insert p 10 p.1)

/-- The scan from `q` and the expression `e` go through pairs that fit. -/
def recognizes (m : Scanner A) (final : Nat → Bool) (g : N → Expr N) (q : Nat) (e : Expr N)
    (fuel steps : Nat) : Bool :=
  explore m final g fuel steps [(q, [[e]])] .leaf

/-- What `expand` has checked of a pair, with `V` the pairs one byte behind. -/
structure Fits (m : Scanner A) (final : Nat → Bool) (g : N → Expr N) (V : Pair N → Prop)
    (p : Pair N) : Prop where
  ends : DerivesAny g p.2 [] ↔ final p.1 = true
  goes : ∀ b, match m.rule p.1 b with
    | none => ∀ w, ¬ DerivesAny g p.2 (b :: w)
    | some r => ∃ ks, V (r.next, ks) ∧ ∀ w, DerivesAny g p.2 (b :: w) ↔ DerivesAny g ks w

theorem fits_of_expand [LawfulBEq N] {fuel : Nat} {p : Pair N} {ps : List (Pair N)}
    {V : Pair N → Prop} (h : expand m final g fuel p = some ps) (hV : ∀ p' ∈ ps, V p') :
    Fits m final g V p := by
  obtain ⟨hs, hheads, hrest⟩ := Option.bind_eq_some_iff.mp h
  cases hends : stops hs == final p.1 with
  | false => simp [hends] at hrest
  | true =>
      rw [hends, cond_true, rowOf_eq] at hrest
      refine ⟨?_, fun b => ?_⟩
      · rw [derivesAny_iff_heads hheads, derives_nil_iff_stops, beq_iff_eq.mp hends]
      · have hiff (w : List UInt8) :
            DerivesAny g p.2 (b :: w) ↔ DerivesAny g (following b hs) w := by
          rw [derivesAny_iff_heads hheads, derives_cons_iff_following]
        obtain ⟨part, hpart, hbit, hrule⟩ :=
          Scanner.mem_rowParts m.flag (m.rules p.1) (Scanner.testBit_allBytes b)
        obtain ⟨p', hp', _, hnext, hstacks⟩ := mem_splitAll hs
          (List.mem_map_of_mem (f := fun part : Nat × Option (Scanner.Rule A) =>
            (⟨part.1, part.2.map (·.next), []⟩ : Part N)) hpart) hbit rfl
        have hrule' : m.rule p.1 b = part.2 := hrule.symm
        rw [hrule']
        rcases mem_pairsOf hrest hp' with ⟨hnone, hnil⟩ | ⟨q, hsome, hmem⟩
        · rw [hnext] at hnone
          cases hpart₂ : part.2 with
          | none =>
              intro w hw
              rw [hiff, ← hstacks, hnil] at hw
              obtain ⟨k, hk, _⟩ := hw
              cases hk
          | some r => simp [hpart₂] at hnone
        · rw [hnext] at hsome
          cases hpart₂ : part.2 with
          | none => simp [hpart₂] at hsome
          | some r =>
              rw [hpart₂, Option.map_some, Option.some.injEq] at hsome
              exact ⟨p'.tails, hV _ (hsome ▸ hmem), fun w => by rw [hiff, hstacks]⟩

/-- The pair has been met. -/
def Seen (seen : Buckets (Pair N)) (p : Pair N) : Prop := p ∈ seen.find 10 p.1

/-- **What was explored** is closed: every pair fits, with the pairs behind it explored as
well. -/
theorem explore_closed [LawfulBEq N] {fuel steps : Nat} {work : List (Pair N)}
    {seen : Buckets (Pair N)} (h : explore m final g fuel steps work seen = true) :
    ∃ V : Pair N → Prop, (∀ p ∈ work, V p) ∧ (∀ p, Seen seen p → V p) ∧
      ∀ p, V p → Seen seen p ∨ Fits m final g V p := by
  induction steps generalizing work seen with
  | zero =>
      cases work with
      | nil => exact ⟨Seen seen, by simp, fun _ => id, fun _ => .inl⟩
      | cons p work => cases h
  | succ steps ih =>
      cases work with
      | nil => exact ⟨Seen seen, by simp, fun _ => id, fun _ => .inl⟩
      | cons p work =>
          rw [explore] at h
          cases hseen : (seen.find 10 p.1).elem p with
          | true =>
              rw [hseen, cond_true] at h
              obtain ⟨V, hwork, hold, hfits⟩ := ih h
              exact ⟨V, List.forall_mem_cons.mpr ⟨hold p (List.elem_iff.mp hseen), hwork⟩, hold,
                hfits⟩
          | false =>
              rw [hseen, cond_false] at h
              split at h
              · cases h
              · next ps hexpand =>
                  obtain ⟨V, hwork, hold, hfits⟩ := ih h
                  rw [List.forall_mem_append] at hwork
                  have hinsert (p' : Pair N) :
                      Seen (seen.insert p 10 p.1) p' ↔ p' = p ∨ Seen seen p' :=
                    Buckets.mem_find_insert Prod.fst
                  refine ⟨V,
                    List.forall_mem_cons.mpr ⟨hold p ((hinsert p).mpr (.inl rfl)), hwork.2⟩,
                    fun p' hp' => hold p' ((hinsert p').mpr (.inr hp')), fun p' hp' => ?_⟩
                  rcases hfits p' hp' with hp' | hp'
                  · rcases (hinsert p').mp hp' with rfl | hp'
                    · exact .inr (fits_of_expand hexpand hwork.1)
                    · exact .inl hp'
                  · exact .inr hp'

/-- **Recognition.**  A scanner that was explored together with an expression accepts the
words of the expression and no others. -/
theorem accepts_iff_of_recognizes [LawfulBEq N] {q : Nat} {e : Expr N} {fuel steps : Nat}
    (h : recognizes m final g q e fuel steps = true) (w : List UInt8) :
    m.Accepts final q w ↔ Derives g e w := by
  obtain ⟨V, hwork, -, hfits⟩ := explore_closed h
  have hfit (p : Pair N) (hp : V p) : Fits m final g V p :=
    (hfits p hp).resolve_left (by simp [Seen, Buckets.find_leaf])
  have hall (p : Pair N) (hp : V p) : m.Accepts final p.1 w ↔ DerivesAny g p.2 w := by
    induction w generalizing p with
    | nil => rw [Scanner.accepts_nil, (hfit p hp).ends]
    | cons b w ih =>
        have hgoes := (hfit p hp).goes b
        rw [Scanner.accepts_cons]
        cases hrule : m.rule p.1 b with
        | none =>
            rw [hrule] at hgoes
            simp [hgoes w]
        | some r =>
            rw [hrule] at hgoes
            obtain ⟨ks, hks, hiff⟩ := hgoes
            have hnext : m.Accepts final r.next w ↔ DerivesAny g ks w := ih (r.next, ks) hks
            simp [hiff w, hnext]
  rw [hall (q, [[e]]) (hwork _ List.mem_cons_self)]
  simp [DerivesAny, derivesAll_singleton]

end Grammar
