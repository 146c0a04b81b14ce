import Mathlib.Algebra.Group.Nat.Defs
import Mingo.Lib.Scanner

/-!
# Regions of a scanner

What the rules of a whole set of states do on a class of bytes is one check of the table
(`leads`): the bytes are split by the rules of each row.  A class of bytes is a number for
this, with one bit for each byte, so that splitting is a computation with numbers.

* `mem_rowParts` -- each byte is in the part of its rule;
* `rule_of_leads` -- what a check of a region says of the rule for a byte;
* `accepts_append_of_stays` -- a word that keeps the scan in a region, without actions.
-/

namespace Scanner

variable {A : Type} {m : Scanner A}

/-- The scan of `w` from `q` takes every byte and ends in a final state. -/
def Accepts (m : Scanner A) (final : Nat → Bool) (q : Nat) (w : List UInt8) : Prop :=
  ∃ rs, m.follow q w = some rs ∧ final (lastState q rs) = true

theorem accepts_nil {final : Nat → Bool} {q : Nat} :
    m.Accepts final q [] ↔ final q = true := by
  simp [Accepts, follow, lastState]

theorem accepts_cons {final : Nat → Bool} {q : Nat} {b : UInt8} {w : List UInt8} :
    m.Accepts final q (b :: w) ↔ ∃ r, m.rule q b = some r ∧ m.Accepts final r.next w := by
  constructor
  · rintro ⟨rs, hfollow, hfinal⟩
    obtain ⟨r, rs', hrule, hrest, rfl⟩ := follow_cons hfollow
    exact ⟨r, hrule, rs', hrest, hfinal⟩
  · rintro ⟨r, hrule, rs, hrest, hfinal⟩
    exact ⟨r :: rs, by simp [follow, hrule, hrest], hfinal⟩

/-! ### Classes as numbers -/

/-- The bytes of a class as the bits of a number. -/
def bits : List (Nat × Nat) → Nat
  | [] => 0
  | c :: cs => ((2 ^ (c.2 + 1 - c.1) - 1) <<< c.1) ||| bits cs

theorem testBit_bits (class_ : List (Nat × Nat)) (b : UInt8) :
    (bits class_).testBit b.toNat = inClass class_ b := by
  induction class_ with
  | nil => simp [bits, inClass]
  | cons c cs ih =>
      rw [bits, Nat.testBit_or, ih, Nat.testBit_shiftLeft, Nat.testBit_two_pow_sub_one]
      have hrange : (decide (b.toNat ≥ c.1) && decide (b.toNat - c.1 < c.2 + 1 - c.1)) =
          (decide (c.1 ≤ b.toNat) && decide (b.toNat ≤ c.2)) := by
        rw [Bool.eq_iff_iff]
        simp only [Bool.and_eq_true, decide_eq_true_eq]
        omega
      rw [hrange]
      rfl

/-- The bytes a rule takes. -/
def Rule.bits (flag : Bool) (r : Rule A) : Nat :=
  bif flag || !r.guarded then Scanner.bits r.on else 0

theorem testBit_ruleBits (flag : Bool) (r : Rule A) (b : UInt8) :
    (r.bits flag).testBit b.toNat = r.takes flag b := by
  rw [Rule.bits, Rule.takes]
  cases flag || !r.guarded with
  | false => simp
  | true => exact testBit_bits r.on b

/-- The bytes `left` split by the rules of a row. -/
def rowParts (flag : Bool) : Nat → List (Rule A) → List (Nat × Option (Rule A))
  | left, [] => [(left, none)]
  | left, r :: rs =>
      (left &&& r.bits flag, some r) :: rowParts flag (left ^^^ (left &&& r.bits flag)) rs

/-- **Each byte** is in the part of its rule. -/
theorem mem_rowParts (flag : Bool) {left : Nat} (rs : List (Rule A)) {b : UInt8}
    (hb : left.testBit b.toNat = true) :
    ∃ p ∈ rowParts flag left rs,
      p.1.testBit b.toNat = true ∧ p.2 = rs.find? (·.takes flag b) := by
  induction rs generalizing left with
  | nil => exact ⟨(left, none), by simp [rowParts], hb, rfl⟩
  | cons r rs ih =>
      cases htakes : r.takes flag b with
      | true =>
          refine ⟨_, List.mem_cons_self, ?_, ?_⟩
          · rw [Nat.testBit_and, hb, testBit_ruleBits, htakes]
            rfl
          · rw [List.find?_cons_of_pos (by simpa using htakes)]
      | false =>
          have hleft : (left ^^^ (left &&& r.bits flag)).testBit b.toNat = true := by
            rw [Nat.testBit_xor, Nat.testBit_and, hb, testBit_ruleBits, htakes]
            rfl
          obtain ⟨p, hp, hbit, heq⟩ := ih hleft
          refine ⟨p, List.mem_cons_of_mem _ hp, hbit, ?_⟩
          rw [heq, List.find?_cons_of_neg (by simp [htakes])]

/-- The number with the bits of all bytes. -/
def allBytes : Nat := 2 ^ 256 - 1

theorem testBit_allBytes (b : UInt8) : allBytes.testBit b.toNat = true := by
  rw [allBytes, Nat.testBit_two_pow_sub_one]
  exact decide_eq_true b.toNat_lt

/-! ### Regions -/

/-- `q` is in one of the ranges. -/
def inRanges (R : List (Nat × Nat)) (q : Nat) : Bool :=
  R.any fun c => Nat.ble c.1 q && Nat.ble q c.2

/-- The rules that the states of `R` have for the bytes of a class are as `P` says. -/
def leads (m : Scanner A) (R class_ : List (Nat × Nat)) (P : Rule A → Bool) : Bool :=
  m.table.all fun row =>
    bif inRanges R row.1 then
      (rowParts m.flag (bits class_) row.2).all fun p => bif Nat.beq p.1 0 then true else p.2.all P
    else true

/-- **Region check.** -/
theorem rule_of_leads {R class_ : List (Nat × Nat)} {P : Rule A → Bool}
    (h : m.leads R class_ P = true) {q : Nat} {b : UInt8} {r : Rule A}
    (hq : inRanges R q = true) (hb : inClass class_ b = true) (hrule : m.rule q b = some r) :
    P r = true := by
  have hrow := of_all_rows (m := m)
    (P := fun q rs => bif inRanges R q then
      (rowParts m.flag (bits class_) rs).all
        fun p => bif Nat.beq p.1 0 then true else p.2.all P
      else true) h (q := q) (List.ne_nil_of_mem (rule_mem hrule))
  simp only [hq, cond_true] at hrow
  obtain ⟨p, hp, hbit, heq⟩ := mem_rowParts m.flag (m.rules q)
    ((testBit_bits class_ b).trans hb)
  have hpart := List.all_eq_true.mp hrow p hp
  have hne : Nat.beq p.1 0 = false := by
    rw [Bool.eq_false_iff]
    intro hzero
    rw [Nat.eq_of_beq_eq_true hzero, Nat.zero_testBit] at hbit
    cases hbit
  have hsome : p.2 = some r := heq.trans hrule
  simpa [hne, hsome] using hpart

/-- No action, and the scan stays in the region. -/
def Rule.stays (R : List (Nat × Nat)) (r : Rule A) : Bool :=
  r.acts.isEmpty && inRanges R r.next

/-- The rule has these actions and leads into the region. -/
def Rule.goes [DecidableEq A] (acts : List A) (R : List (Nat × Nat)) (r : Rule A) : Bool :=
  decide (r.acts = acts) && inRanges R r.next

/-- **A word in a region.**  The scan of its bytes has no action and stays there. -/
theorem accepts_append_of_stays {final : Nat → Bool} {R class_ : List (Nat × Nat)}
    (h : m.leads R class_ (Rule.stays R) = true) {q : Nat} {w rest : List UInt8}
    (hq : inRanges R q = true) (hw : ∀ b ∈ w, inClass class_ b = true)
    (haccepts : m.Accepts final q (w ++ rest)) :
    ∃ q', inRanges R q' = true ∧ m.Silent q w q' ∧ m.Accepts final q' rest := by
  induction w generalizing q with
  | nil => exact ⟨q, hq, Silent.nil q, haccepts⟩
  | cons b w ih =>
      obtain ⟨r, hrule, hrest⟩ := accepts_cons.mp haccepts
      have hstays := rule_of_leads h hq (hw b List.mem_cons_self) hrule
      rw [Rule.stays, Bool.and_eq_true, List.isEmpty_iff] at hstays
      obtain ⟨q', hq', hsilent, hrest'⟩ :=
        ih hstays.2 (fun c hc => hw c (List.mem_cons_of_mem b hc)) hrest
      exact ⟨q', hq', Silent.cons hrule hstays.1 hsilent, hrest'⟩

end Scanner
