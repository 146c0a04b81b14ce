import Mingo.Lib.Scanner

/-!
# Grammars over bytes

`Expr` has the operators of a scanner generator, over productions that may refer to one
another, and `Derives` says which words an expression derives.  A stack of expressions
stands for what is left to be read (`DerivesAll`), and `heads` opens a stack up to the
classes of bytes it can read first:

* `derivesAll_iff_heads` -- a word of the stack is read through one of its heads;
* `derives_iff_reads` -- so reading byte by byte decides the words of an expression;
* `Derives.bytes` -- the bytes of a word are in the classes of its expression;
* `Derives.congr` -- grammars with the same productions derive the same words.
-/

namespace Grammar

open Scanner (inClass)

/-- Expressions over the productions `N`; `rep k` is `{k}` and `upTo k` is `{0,k}`. -/
inductive Expr (N : Type)
  | chars (on : List (Nat × Nat))
  | ref (n : N)
  | empty
  | seq (e f : Expr N)
  | alt (e f : Expr N)
  | rep (k : Nat) (e : Expr N)
  | upTo (k : Nat) (e : Expr N)
  | star (e : Expr N)
  deriving BEq, ReflBEq, LawfulBEq, Repr

variable {N : Type}

namespace Expr

/-- One byte. -/
def byte (b : Nat) : Expr N := chars [(b, b)]

/-- `e?` -/
def opt (e : Expr N) : Expr N := upTo 1 e

/-- `e+` -/
def plus (e : Expr N) : Expr N := seq e (star e)

/-- One after the other. -/
def seqs : List (Expr N) → Expr N
  | [] => empty
  | [e] => e
  | e :: e' :: es => seq e (seqs (e' :: es))

/-- One of them. -/
def alts : Expr N → List (Expr N) → Expr N
  | e, [] => e
  | e, e' :: es => alt e (alts e' es)

end Expr

open Grammar.Expr

variable {g : N → Expr N} {e f : Expr N} {k : List (Expr N)} {w : List UInt8}

/-- The words of an expression, with `g` the right-hand sides of the productions. -/
inductive Derives (g : N → Expr N) : Expr N → List UInt8 → Prop
  | chars {on : List (Nat × Nat)} {b : UInt8} : inClass on b = true → Derives g (.chars on) [b]
  | ref {n : N} {w : List UInt8} : Derives g (g n) w → Derives g (.ref n) w
  | empty : Derives g .empty []
  | seq {e f : Expr N} {u v : List UInt8} :
      Derives g e u → Derives g f v → Derives g (.seq e f) (u ++ v)
  | left {e f : Expr N} {w : List UInt8} : Derives g e w → Derives g (.alt e f) w
  | right {e f : Expr N} {w : List UInt8} : Derives g f w → Derives g (.alt e f) w
  | repNil {e : Expr N} : Derives g (.rep 0 e) []
  | repCons {k : Nat} {e : Expr N} {u v : List UInt8} :
      Derives g e u → Derives g (.rep k e) v → Derives g (.rep (k + 1) e) (u ++ v)
  | upToNil {k : Nat} {e : Expr N} : Derives g (.upTo k e) []
  | upToCons {k : Nat} {e : Expr N} {u v : List UInt8} :
      Derives g e u → Derives g (.upTo k e) v → Derives g (.upTo (k + 1) e) (u ++ v)
  | starNil {e : Expr N} : Derives g (.star e) []
  | starCons {e : Expr N} {u v : List UInt8} :
      Derives g e u → Derives g (.star e) v → Derives g (.star e) (u ++ v)

/-! ### One rule for each operator -/

@[simp] theorem derives_chars {on : List (Nat × Nat)} :
    Derives g (.chars on) w ↔ ∃ b, inClass on b = true ∧ w = [b] := by
  constructor
  · rintro (h | _)
    exact ⟨_, h, rfl⟩
  · rintro ⟨b, h, rfl⟩
    exact .chars h

@[simp] theorem derives_ref {n : N} : Derives g (.ref n) w ↔ Derives g (g n) w := by
  constructor
  · rintro (_ | h)
    exact h
  · exact .ref

@[simp] theorem derives_empty : Derives g (.empty : Expr N) w ↔ w = [] := by
  constructor
  · rintro ⟨⟩
    rfl
  · rintro rfl
    exact .empty

@[simp] theorem derives_seq :
    Derives g (.seq e f) w ↔ ∃ u v, w = u ++ v ∧ Derives g e u ∧ Derives g f v := by
  constructor
  · intro h
    cases h with
    | seq he hf => exact ⟨_, _, rfl, he, hf⟩
  · rintro ⟨u, v, rfl, he, hf⟩
    exact .seq he hf

@[simp] theorem derives_alt : Derives g (.alt e f) w ↔ Derives g e w ∨ Derives g f w := by
  constructor
  · intro h
    cases h with
    | left he => exact .inl he
    | right hf => exact .inr hf
  · rintro (he | hf)
    · exact .left he
    · exact .right hf

@[simp] theorem derives_rep_zero : Derives g (.rep 0 e) w ↔ w = [] := by
  constructor
  · rintro ⟨⟩
    rfl
  · rintro rfl
    exact .repNil

/-- A repetition, by its first word. -/
theorem derives_rep_succ {n : Nat} :
    Derives g (.rep (n + 1) e) w ↔
      ∃ u v, w = u ++ v ∧ Derives g e u ∧ Derives g (.rep n e) v := by
  constructor
  · intro h
    cases h with
    | repCons he hrest => exact ⟨_, _, rfl, he, hrest⟩
  · rintro ⟨u, v, rfl, he, hrest⟩
    exact .repCons he hrest

@[simp] theorem derives_upTo_zero : Derives g (.upTo 0 e) w ↔ w = [] := by
  constructor
  · rintro ⟨⟩
    rfl
  · rintro rfl
    exact .upToNil

/-- A bounded repetition is empty or begins with a word. -/
theorem derives_upTo_succ {n : Nat} :
    Derives g (.upTo (n + 1) e) w ↔
      w = [] ∨ ∃ u v, w = u ++ v ∧ Derives g e u ∧ Derives g (.upTo n e) v := by
  constructor
  · intro h
    cases h with
    | upToNil => exact .inl rfl
    | upToCons he hrest => exact .inr ⟨_, _, rfl, he, hrest⟩
  · rintro (rfl | ⟨u, v, rfl, he, hrest⟩)
    · exact .upToNil
    · exact .upToCons he hrest

/-- A repetition is empty or begins with a word. -/
theorem derives_star :
    Derives g (.star e) w ↔
      w = [] ∨ ∃ u v, w = u ++ v ∧ Derives g e u ∧ Derives g (.star e) v := by
  constructor
  · intro h
    cases h with
    | starNil => exact .inl rfl
    | starCons he hrest => exact .inr ⟨_, _, rfl, he, hrest⟩
  · rintro (rfl | ⟨u, v, rfl, he, hrest⟩)
    · exact .starNil
    · exact .starCons he hrest

/-- A repetition of single bytes. -/
theorem derives_star_bytes (h : ∀ b ∈ w, Derives g e [b]) : Derives g (.star e) w := by
  induction w with
  | nil => exact .starNil
  | cons b w ih =>
      exact .starCons (h b List.mem_cons_self) (ih fun c hc => h c (List.mem_cons_of_mem b hc))

/-- Behind a byte that is a word of its own, a repetition goes on. -/
theorem derives_star_behind {b : UInt8} (he : ∀ u, Derives g e u → b ∈ u → u = [b])
    {a c : List UInt8} (h : Derives g (.star e) (a ++ b :: c)) : Derives g (.star e) c := by
  generalize hstar : Expr.star e = f at h
  generalize htext : a ++ b :: c = w at h
  induction h generalizing a with
  | starNil => simp at htext
  | @starCons e' u v hu hv _ ih =>
      cases hstar
      rcases List.append_eq_append_iff.mp htext with ⟨a', rfl, hrest⟩ | ⟨a', rfl, hrest⟩
      · cases a' with
        | nil => exact ih rfl (a := []) hrest
        | cons d a' =>
            obtain ⟨rfl, rfl⟩ := List.cons.inj hrest
            have hbyte := he _ hu (by simp)
            simp only [List.append_eq_singleton_iff, List.cons.injEq, true_and] at hbyte
            obtain ⟨-, rfl⟩ | ⟨-, hnil⟩ := hbyte
            · exact hv
            · cases hnil
      · exact ih rfl hrest.symm
  | _ => cases hstar

/-- The one word of a byte. -/
theorem derives_byte {b : Nat} (hb : b < 256) :
    Derives g (Expr.byte b) w ↔ w = [UInt8.ofNat b] := by
  have hclass (c : UInt8) : inClass [(b, b)] c = true ↔ c = UInt8.ofNat b := by
    rw [← UInt8.toNat_inj, UInt8.toNat_ofNat', Nat.mod_eq_of_lt hb]
    simp only [inClass, List.any_cons, List.any_nil, Bool.or_false, Bool.and_eq_true,
      decide_eq_true_eq]
    omega
  rw [Expr.byte, derives_chars]
  simp [hclass]

@[simp] theorem derives_opt : Derives g (opt e) w ↔ w = [] ∨ Derives g e w := by
  simp [opt, derives_upTo_succ]

@[simp] theorem derives_plus :
    Derives g (plus e) w ↔ ∃ u v, w = u ++ v ∧ Derives g e u ∧ Derives g (.star e) v :=
  derives_seq

/-! ### Stacks -/

/-- The words of a stack of expressions. -/
inductive DerivesAll (g : N → Expr N) : List (Expr N) → List UInt8 → Prop
  | nil : DerivesAll g [] []
  | cons {e : Expr N} {k : List (Expr N)} {u v : List UInt8} :
      Derives g e u → DerivesAll g k v → DerivesAll g (e :: k) (u ++ v)

/-- The empty stack has the empty word. -/
theorem derivesAll_nil : DerivesAll g [] w ↔ w = [] := by
  constructor
  · rintro ⟨⟩
    rfl
  · rintro rfl
    exact .nil

/-- A word of a stack, by the word of its first expression. -/
theorem derivesAll_cons :
    DerivesAll g (e :: k) w ↔ ∃ u v, w = u ++ v ∧ Derives g e u ∧ DerivesAll g k v := by
  constructor
  · intro h
    cases h with
    | cons he hk => exact ⟨_, _, rfl, he, hk⟩
  · rintro ⟨u, v, rfl, he, hk⟩
    exact .cons he hk

/-- A stack of one expression. -/
theorem derivesAll_singleton : DerivesAll g [e] w ↔ Derives g e w := by
  simp [derivesAll_cons, derivesAll_nil]

/-- A production on the stack, by its right-hand side. -/
theorem derivesAll_ref {n : N} :
    DerivesAll g (.ref n :: k) w ↔ DerivesAll g (g n :: k) w := by
  simp [derivesAll_cons]

/-- The empty expression on the stack. -/
theorem derivesAll_empty : DerivesAll g (.empty :: k) w ↔ DerivesAll g k w := by
  simp [derivesAll_cons]

/-- A sequence on the stack, by its two expressions. -/
theorem derivesAll_seq :
    DerivesAll g (.seq e f :: k) w ↔ DerivesAll g (e :: f :: k) w := by
  simp only [derivesAll_cons, derives_seq]
  constructor
  · rintro ⟨_, z, rfl, ⟨u, v, rfl, he, hf⟩, hk⟩
    exact ⟨u, v ++ z, by simp, he, v, z, rfl, hf, hk⟩
  · rintro ⟨u, _, rfl, he, v, z, rfl, hf, hk⟩
    exact ⟨u ++ v, z, by simp, ⟨u, v, rfl, he, hf⟩, hk⟩

/-- An alternative on the stack, by its two stacks. -/
theorem derivesAll_alt :
    DerivesAll g (.alt e f :: k) w ↔ DerivesAll g (e :: k) w ∨ DerivesAll g (f :: k) w := by
  simp only [derivesAll_cons, derives_alt, or_and_right, and_or_left, exists_or]

/-- Nothing left to repeat. -/
theorem derivesAll_rep_zero : DerivesAll g (.rep 0 e :: k) w ↔ DerivesAll g k w := by
  simp [derivesAll_cons]

/-- A repetition on the stack, one step unrolled. -/
theorem derivesAll_rep_succ {n : Nat} :
    DerivesAll g (.rep (n + 1) e :: k) w ↔ DerivesAll g (e :: .rep n e :: k) w := by
  rw [← derivesAll_seq, derivesAll_cons, derivesAll_cons]
  simp only [derives_rep_succ, derives_seq]

/-- No repetition is left. -/
theorem derivesAll_upTo_zero : DerivesAll g (.upTo 0 e :: k) w ↔ DerivesAll g k w := by
  simp [derivesAll_cons]

/-- An expression that derives the empty word or `e` and then `f`. -/
theorem derivesAll_of_nil_or {e' : Expr N}
    (h : ∀ {w}, Derives g e' w ↔ w = [] ∨ ∃ u v, w = u ++ v ∧ Derives g e u ∧ Derives g f v) :
    DerivesAll g (e' :: k) w ↔ DerivesAll g (e :: f :: k) w ∨ DerivesAll g k w := by
  rw [← derivesAll_seq, derivesAll_cons]
  constructor
  · rintro ⟨u, v, rfl, hu, hv⟩
    rcases h.mp hu with rfl | hseq
    · exact .inr hv
    · exact .inl (.cons (derives_seq.mpr hseq) hv)
  · rintro (hseq | hk)
    · obtain ⟨u, v, rfl, hu, hv⟩ := derivesAll_cons.mp hseq
      exact ⟨u, v, rfl, h.mpr (.inr (derives_seq.mp hu)), hv⟩
    · exact ⟨[], w, rfl, h.mpr (.inl rfl), hk⟩

/-- A bounded repetition on the stack, one step unrolled or left out. -/
theorem derivesAll_upTo_succ {n : Nat} :
    DerivesAll g (.upTo (n + 1) e :: k) w ↔
      DerivesAll g (e :: .upTo n e :: k) w ∨ DerivesAll g k w :=
  derivesAll_of_nil_or derives_upTo_succ

/-- A repetition on the stack, one step unrolled or left out. -/
theorem derivesAll_star :
    DerivesAll g (.star e :: k) w ↔
      DerivesAll g (e :: .star e :: k) w ∨ DerivesAll g k w :=
  derivesAll_of_nil_or derives_star

/-! ### Heads -/

/-- What a stack can do first: end, or read a byte of a class and go on with a stack. -/
inductive Head (N : Type)
  | stop
  | read (on : List (Nat × Nat)) (k : List (Expr N))

/-- The words that begin with this head. -/
def Head.Derives (g : N → Expr N) : Head N → List UInt8 → Prop
  | .stop, w => w = []
  | .read on k, w => ∃ b v, w = b :: v ∧ inClass on b = true ∧ DerivesAll g k v

/-- The end has the empty word. -/
theorem head_stop_derives : (Head.stop : Head N).Derives g w ↔ w = [] := Iff.rfl

/-- A byte to read is not in the empty word. -/
theorem head_read_derives_nil {on : List (Nat × Nat)} :
    (Head.read on k).Derives g [] ↔ False := by
  simp [Head.Derives]

/-- A byte that is read, and the stack behind it. -/
theorem head_read_derives_cons {on : List (Nat × Nat)} {b : UInt8} :
    (Head.read on k).Derives g (b :: w) ↔ inClass on b = true ∧ DerivesAll g k w := by
  simp [Head.Derives]

/-- The heads of a stack, unless the fuel does not suffice. -/
def heads (g : N → Expr N) : Nat → List (Expr N) → Option (List (Head N))
  | _, [] => some [.stop]
  | 0, _ :: _ => none
  | fuel + 1, e :: k =>
      match e with
      | .chars on => some [.read on k]
      | .ref n => heads g fuel (g n :: k)
      | .empty => heads g fuel k
      | .seq e f => heads g fuel (e :: f :: k)
      | .alt e f => (heads g fuel (e :: k)).bind fun hs =>
          (heads g fuel (f :: k)).map (hs ++ ·)
      | .rep 0 _ => heads g fuel k
      | .rep (n + 1) e => heads g fuel (e :: .rep n e :: k)
      | .upTo 0 _ => heads g fuel k
      | .upTo (n + 1) e => (heads g fuel (e :: .upTo n e :: k)).bind fun hs =>
          (heads g fuel k).map (hs ++ ·)
      | .star e => (heads g fuel (e :: .star e :: k)).bind fun hs =>
          (heads g fuel k).map (hs ++ ·)

/-- Two alternatives, each with its heads. -/
theorem iff_heads_append {hs : List (Head N)} {o₁ o₂ : Option (List (Head N))}
    {P Q : Prop} (h : (o₁.bind fun hs => o₂.map (hs ++ ·)) = some hs)
    (h₁ : ∀ {hs}, o₁ = some hs → (P ↔ ∃ d ∈ hs, d.Derives g w))
    (h₂ : ∀ {hs}, o₂ = some hs → (Q ↔ ∃ d ∈ hs, d.Derives g w)) :
    P ∨ Q ↔ ∃ d ∈ hs, d.Derives g w := by
  obtain ⟨hs₁, ho₁, hrest⟩ := Option.bind_eq_some_iff.mp h
  obtain ⟨hs₂, ho₂, rfl⟩ := Option.map_eq_some_iff.mp hrest
  rw [h₁ ho₁, h₂ ho₂]
  simp only [List.mem_append, or_and_right, exists_or]

/-- **The heads of a stack** are all it can do first. -/
theorem derivesAll_iff_heads {fuel : Nat} {hs : List (Head N)} (h : heads g fuel k = some hs) :
    DerivesAll g k w ↔ ∃ d ∈ hs, d.Derives g w := by
  induction fuel generalizing k hs with
  | zero =>
      cases k with
      | nil =>
          cases h
          simp [derivesAll_nil, Head.Derives]
      | cons e k => cases h
  | succ fuel ih =>
      cases k with
      | nil =>
          cases h
          simp [derivesAll_nil, Head.Derives]
      | cons e k =>
          cases e with
          | chars on =>
              cases h
              rw [derivesAll_cons]
              constructor
              · rintro ⟨u, v, rfl, hu, hv⟩
                obtain ⟨b, hb, rfl⟩ := derives_chars.mp hu
                exact ⟨_, List.mem_singleton_self _, b, v, rfl, hb, hv⟩
              · rintro ⟨d, hd, hderives⟩
                obtain rfl := List.mem_singleton.mp hd
                obtain ⟨b, v, rfl, hb, hv⟩ := hderives
                exact ⟨[b], v, rfl, .chars hb, hv⟩
          | ref n => exact derivesAll_ref.trans (ih h)
          | empty => exact derivesAll_empty.trans (ih h)
          | seq e f => exact derivesAll_seq.trans (ih h)
          | alt e f => exact derivesAll_alt.trans (iff_heads_append h ih ih)
          | rep n e =>
              cases n with
              | zero => exact derivesAll_rep_zero.trans (ih h)
              | succ n => exact derivesAll_rep_succ.trans (ih h)
          | upTo n e =>
              cases n with
              | zero => exact derivesAll_upTo_zero.trans (ih h)
              | succ n => exact derivesAll_upTo_succ.trans (iff_heads_append h ih ih)
          | star e => exact derivesAll_star.trans (iff_heads_append h ih ih)

/-! ### Reading a word -/

/-- The heads of alternative stacks. -/
def allHeads (g : N → Expr N) (fuel : Nat) : List (List (Expr N)) → Option (List (Head N))
  | [] => some []
  | k :: ks => (heads g fuel k).bind fun hs => (allHeads g fuel ks).map (hs ++ ·)

/-- One of the alternative stacks derives the word. -/
def DerivesAny (g : N → Expr N) (ks : List (List (Expr N))) (w : List UInt8) : Prop :=
  ∃ k ∈ ks, DerivesAll g k w

/-- One of the heads is the end. -/
def stops : List (Head N) → Bool
  | [] => false
  | .stop :: _ => true
  | .read _ _ :: hs => stops hs

/-- The stacks behind the byte `b`. -/
def following [BEq N] (b : UInt8) : List (Head N) → List (List (Expr N))
  | [] => []
  | .stop :: hs => following b hs
  | .read on k :: hs =>
      if inClass on b then (following b hs).insert k else following b hs

/-- Whether alternative stacks derive a word, unless the fuel does not suffice. -/
def reads [BEq N] (g : N → Expr N) (fuel : Nat) :
    List (List (Expr N)) → List UInt8 → Option Bool
  | ks, [] => (allHeads g fuel ks).map stops
  | ks, b :: w => (allHeads g fuel ks).bind fun hs => reads g fuel (following b hs) w

/-- The heads of alternative stacks are all they can do first. -/
theorem derivesAny_iff_heads {fuel : Nat} {ks : List (List (Expr N))} {hs : List (Head N)}
    (h : allHeads g fuel ks = some hs) :
    DerivesAny g ks w ↔ ∃ d ∈ hs, d.Derives g w := by
  induction ks generalizing hs with
  | nil =>
      cases h
      simp [DerivesAny]
  | cons k ks ih =>
      have hcons : DerivesAny g (k :: ks) w ↔ DerivesAll g k w ∨ DerivesAny g ks w := by
        simp [DerivesAny]
      exact hcons.trans (iff_heads_append h derivesAll_iff_heads ih)

/-- The empty word, by whether one of the heads is the end. -/
theorem derives_nil_iff_stops {hs : List (Head N)} :
    (∃ d ∈ hs, d.Derives g []) ↔ stops hs = true := by
  induction hs with
  | nil => simp [stops]
  | cons d hs ih =>
      rw [List.exists_mem_cons_iff, ih]
      cases d with
      | stop => simp [stops, head_stop_derives]
      | read on k => simp [stops, head_read_derives_nil]

/-- A longer word, by the stacks behind its first byte. -/
theorem derives_cons_iff_following [BEq N] [LawfulBEq N] {hs : List (Head N)} {b : UInt8} :
    (∃ d ∈ hs, d.Derives g (b :: w)) ↔ DerivesAny g (following b hs) w := by
  induction hs with
  | nil => simp [following, DerivesAny]
  | cons d hs ih =>
      rw [List.exists_mem_cons_iff, ih]
      cases d with
      | stop => simp [following, head_stop_derives]
      | read on k =>
          rw [head_read_derives_cons, following]
          split
          · next hb => simp [DerivesAny, hb]
          · next hb => simp [hb]

/-- **Reading decides** which words a list of alternative stacks derives. -/
theorem derivesAny_iff_reads [BEq N] [LawfulBEq N] {fuel : Nat} {ks : List (List (Expr N))}
    {r : Bool} (h : reads g fuel ks w = some r) : DerivesAny g ks w ↔ r = true := by
  induction w generalizing ks with
  | nil =>
      obtain ⟨hs, hheads, rfl⟩ := Option.map_eq_some_iff.mp h
      rw [derivesAny_iff_heads hheads, derives_nil_iff_stops]
  | cons b w ih =>
      obtain ⟨hs, hheads, hrest⟩ := Option.bind_eq_some_iff.mp h
      rw [derivesAny_iff_heads hheads, derives_cons_iff_following]
      exact ih hrest

/-- Reading decides the words of an expression. -/
theorem derives_iff_reads [BEq N] [LawfulBEq N] {r : Bool} (fuel : Nat)
    (h : reads g fuel [[e]] w = some r) : Derives g e w ↔ r = true := by
  rw [← derivesAny_iff_reads h]
  simp [DerivesAny, derivesAll_singleton]

/-! ### Bytes and productions -/

/-- The expression reads bytes of the class only. -/
def within (g : N → Expr N) (on : List (Nat × Nat)) : Nat → Expr N → Bool
  | 0, _ => false
  | fuel + 1, e =>
      match e with
      | .chars c => Scanner.covers on c
      | .ref n => within g on fuel (g n)
      | .empty => true
      | .seq e f => within g on fuel e && within g on fuel f
      | .alt e f => within g on fuel e && within g on fuel f
      | .rep _ e => within g on fuel e
      | .upTo _ e => within g on fuel e
      | .star e => within g on fuel e

/-- The check fails without fuel. -/
theorem within_pos {on : List (Nat × Nat)} {fuel : Nat} (h : within g on fuel e = true) :
    ∃ n, fuel = n + 1 := by
  cases fuel with
  | zero => cases h
  | succ n => exact ⟨n, rfl⟩

/-- **The bytes of a word** are in the classes of its expression. -/
theorem Derives.bytes (h : Derives g e w) {on : List (Nat × Nat)} (fuel : Nat)
    (hwithin : within g on fuel e = true) : ∀ b ∈ w, inClass on b = true := by
  have happend {u v : List UInt8} (hu : ∀ b ∈ u, inClass on b = true)
      (hv : ∀ b ∈ v, inClass on b = true) : ∀ b ∈ u ++ v, inClass on b = true := by
    intro b hb
    exact (List.mem_append.mp hb).elim (hu b) (hv b)
  induction h generalizing fuel with
  | chars hb =>
      obtain ⟨fuel, rfl⟩ := within_pos hwithin
      intro b' hb'
      obtain rfl := List.mem_singleton.mp hb'
      exact Scanner.inClass_of_covers hwithin hb
  | ref _ ih =>
      obtain ⟨fuel, rfl⟩ := within_pos hwithin
      have href : within g on fuel _ = true := hwithin
      exact ih fuel href
  | empty => simp
  | seq _ _ ihe ihf =>
      obtain ⟨fuel, rfl⟩ := within_pos hwithin
      rw [within, Bool.and_eq_true] at hwithin
      exact happend (ihe fuel hwithin.1) (ihf fuel hwithin.2)
  | left _ ih =>
      obtain ⟨fuel, rfl⟩ := within_pos hwithin
      rw [within, Bool.and_eq_true] at hwithin
      exact ih fuel hwithin.1
  | right _ ih =>
      obtain ⟨fuel, rfl⟩ := within_pos hwithin
      rw [within, Bool.and_eq_true] at hwithin
      exact ih fuel hwithin.2
  | repNil => simp
  | @repCons k e _ _ _ _ ihe ihrest =>
      obtain ⟨fuel, rfl⟩ := within_pos hwithin
      have he : within g on fuel _ = true := hwithin
      have hrest : within g on (fuel + 1) (.rep k e) = true := hwithin
      exact happend (ihe fuel he) (ihrest (fuel + 1) hrest)
  | upToNil => simp
  | @upToCons k e _ _ _ _ ihe ihrest =>
      obtain ⟨fuel, rfl⟩ := within_pos hwithin
      have he : within g on fuel _ = true := hwithin
      have hrest : within g on (fuel + 1) (.upTo k e) = true := hwithin
      exact happend (ihe fuel he) (ihrest (fuel + 1) hrest)
  | starNil => simp
  | starCons _ _ ihe ihrest =>
      obtain ⟨fuel, rfl⟩ := within_pos hwithin
      have he : within g on fuel _ = true := hwithin
      exact happend (ihe fuel he) (ihrest (fuel + 1) hwithin)

/-- The expression is made of bytes of the class and of productions in `S`. -/
def madeOf (g : N → Expr N) (on : List (Nat × Nat)) (S : N → Bool) : Nat → Expr N → Bool
  | 0, _ => false
  | fuel + 1, e =>
      match e with
      | .chars c => Scanner.covers on c
      | .ref n => S n || madeOf g on S fuel (g n)
      | .empty => true
      | .seq e f => madeOf g on S fuel e && madeOf g on S fuel f
      | .alt e f => madeOf g on S fuel e && madeOf g on S fuel f
      | .rep _ e => madeOf g on S fuel e
      | .upTo _ e => madeOf g on S fuel e
      | .star e => madeOf g on S fuel e

/-- **What holds of the parts of a word** and is kept when texts are joined holds of the word. -/
theorem Derives.joined {P : List UInt8 → Prop} {on : List (Nat × Nat)} {S : N → Bool}
    (hnil : P []) (happend : ∀ u v, P u → P v → P (u ++ v))
    (hbyte : ∀ b, inClass on b = true → P [b])
    (hS : ∀ n, S n = true → ∀ w, Derives g (g n) w → P w) (h : Derives g e w) (fuel : Nat)
    (hmade : madeOf g on S fuel e = true) : P w := by
  induction h generalizing fuel with
  | chars hb =>
      cases fuel with
      | zero => cases hmade
      | succ fuel => exact hbyte _ (Scanner.inClass_of_covers hmade hb)
  | @ref n w hw ih =>
      cases fuel with
      | zero => cases hmade
      | succ fuel =>
          rw [madeOf, Bool.or_eq_true] at hmade
          exact hmade.elim (fun hn => hS n hn w hw) (ih fuel)
  | empty => exact hnil
  | seq _ _ ihe ihf =>
      cases fuel with
      | zero => cases hmade
      | succ fuel =>
          rw [madeOf, Bool.and_eq_true] at hmade
          exact happend _ _ (ihe fuel hmade.1) (ihf fuel hmade.2)
  | left _ ih =>
      cases fuel with
      | zero => cases hmade
      | succ fuel =>
          rw [madeOf, Bool.and_eq_true] at hmade
          exact ih fuel hmade.1
  | right _ ih =>
      cases fuel with
      | zero => cases hmade
      | succ fuel =>
          rw [madeOf, Bool.and_eq_true] at hmade
          exact ih fuel hmade.2
  | repNil => exact hnil
  | repCons _ _ ihe ihrest =>
      cases fuel with
      | zero => cases hmade
      | succ fuel => exact happend _ _ (ihe fuel hmade) (ihrest (fuel + 1) hmade)
  | upToNil => exact hnil
  | upToCons _ _ ihe ihrest =>
      cases fuel with
      | zero => cases hmade
      | succ fuel => exact happend _ _ (ihe fuel hmade) (ihrest (fuel + 1) hmade)
  | starNil => exact hnil
  | starCons _ _ ihe ihrest =>
      cases fuel with
      | zero => cases hmade
      | succ fuel => exact happend _ _ (ihe fuel hmade) (ihrest (fuel + 1) hmade)

/-- The productions an expression refers to are all in `S`. -/
def refsIn (S : N → Bool) : Expr N → Bool
  | .chars _ => true
  | .ref n => S n
  | .empty => true
  | .seq e f => refsIn S e && refsIn S f
  | .alt e f => refsIn S e && refsIn S f
  | .rep _ e => refsIn S e
  | .upTo _ e => refsIn S e
  | .star e => refsIn S e

/-- A word stays one in a grammar that has the same productions in `S`. -/
theorem Derives.mono {g' : N → Expr N} {S : N → Bool}
    (hS : ∀ n, S n = true → g n = g' n ∧ refsIn S (g n) = true) (h : Derives g e w)
    (he : refsIn S e = true) : Derives g' e w := by
  induction h with
  | chars hb => exact .chars hb
  | ref _ ih =>
      obtain ⟨heq, hrefs⟩ := hS _ he
      exact .ref (heq ▸ ih hrefs)
  | empty => exact .empty
  | seq _ _ ihe ihf =>
      rw [refsIn, Bool.and_eq_true] at he
      exact .seq (ihe he.1) (ihf he.2)
  | left _ ih =>
      rw [refsIn, Bool.and_eq_true] at he
      exact .left (ih he.1)
  | right _ ih =>
      rw [refsIn, Bool.and_eq_true] at he
      exact .right (ih he.2)
  | repNil => exact .repNil
  | repCons _ _ ihe ihrest => exact .repCons (ihe he) (ihrest he)
  | upToNil => exact .upToNil
  | upToCons _ _ ihe ihrest => exact .upToCons (ihe he) (ihrest he)
  | starNil => exact .starNil
  | starCons _ _ ihe ihrest => exact .starCons (ihe he) (ihrest he)

/-- **Grammars that share productions** derive the same words from them. -/
theorem Derives.congr {g' : N → Expr N} {S : N → Bool}
    (hS : ∀ n, S n = true → g n = g' n ∧ refsIn S (g n) = true) (he : refsIn S e = true) :
    Derives g e w ↔ Derives g' e w := by
  refine ⟨fun h => h.mono hS he, fun h => h.mono (S := S) ?_ he⟩
  intro n hn
  obtain ⟨heq, hrefs⟩ := hS n hn
  exact ⟨heq.symm, heq ▸ hrefs⟩

end Grammar
