import Mathlib.Data.List.Basic

/-!
# IPv6 addresses as text

Two of the textual forms of RFC 4291, section 2.2: eight groups of hexadecimal
digits between colons, and fewer groups with one `::` in the place of at least
one group of zeros.  `Denotes` says which eight numbers a text stands for;
`Denotes.unique` says that it stands for one address only.
-/

namespace Ipv6Text

/-! ### Groups -/

/-- A hexadecimal digit, in either case. -/
def isDigit (b : UInt8) : Bool :=
  decide (48 ≤ b ∧ b ≤ 57 ∨ 65 ≤ b ∧ b ≤ 70 ∨ 97 ≤ b ∧ b ≤ 102)

/-- The value of a hexadecimal digit. -/
def digit (b : UInt8) : Nat :=
  if b ≤ 57 then b.toNat - 48 else if b ≤ 70 then b.toNat - 55 else b.toNat - 87

/-- The number behind `n`, digit by digit. -/
def value (n : Nat) (ds : List UInt8) : Nat := ds.foldl (fun n b => 16 * n + digit b) n

/-- A group has one to four digits. -/
def group? (ds : List UInt8) : Option Nat :=
  if ds ≠ [] ∧ ds.length ≤ 4 ∧ ds.all isDigit = true then some (value 0 ds) else none

/-- The values of the pieces, if each of them is a group. -/
def groups? (pieces : List (List UInt8)) : Option (List Nat) := pieces.mapM group?

/-- The pieces with colons between them. -/
def joined (pieces : List (List UInt8)) : List UInt8 := [58].intercalate pieces

/-- The text stands for an address of these eight groups. -/
inductive Denotes : List UInt8 → List Nat → Prop
  | full {ps : List (List UInt8)} {vs : List Nat} (h : groups? ps = some vs)
      (hlen : vs.length = 8) : Denotes (joined ps) vs
  | compressed {ls rs : List (List UInt8)} {us vs : List Nat} (hl : groups? ls = some us)
      (hr : groups? rs = some vs) (hlen : us.length + vs.length < 8) :
      Denotes (joined ls ++ 58 :: 58 :: joined rs)
        (us ++ List.replicate (8 - (us.length + vs.length)) 0 ++ vs)

/-! ### Pieces -/

/-- No pieces, no text. -/
theorem joined_nil : joined [] = [] := rfl

/-- Behind the first piece, each has a colon in front of it. -/
theorem joined_cons (p : List UInt8) (ps : List (List UInt8)) :
    joined (p :: ps) = p ++ ps.flatMap (58 :: ·) := by
  induction ps generalizing p with
  | nil => simp [joined]
  | cons q qs ih =>
      have htail : joined (p :: q :: qs) = p ++ 58 :: joined (q :: qs) := by simp [joined]
      rw [htail, ih, List.flatMap_cons, List.cons_append]

/-- What it takes to be a group, and the value it then has. -/
theorem group?_eq_some {ds : List UInt8} {v : Nat} :
    group? ds = some v ↔ (ds ≠ [] ∧ ds.length ≤ 4 ∧ ds.all isDigit = true) ∧ value 0 ds = v := by
  rw [group?]
  split
  · next h => simp only [h, ne_eq, not_false_eq_true, and_self, true_and, Option.some.injEq]
  · next h => simp only [h, reduceCtorEq, false_and]

/-- A group in front of a valid list. -/
theorem groups?_cons {p : List UInt8} {ps : List (List UInt8)} {v : Nat} {vs : List Nat}
    (hp : group? p = some v) (hps : groups? ps = some vs) : groups? (p :: ps) = some (v :: vs) := by
  rw [groups?] at hps ⊢
  simp [List.mapM_cons, hp, hps]

/-- Every piece of a valid list is a group. -/
theorem mem_of_groups? {ps : List (List UInt8)} {vs : List Nat} (h : groups? ps = some vs) :
    ∀ p ∈ ps, p ≠ [] ∧ p.all isDigit = true := by
  induction ps generalizing vs with
  | nil => simp
  | cons p ps ih =>
      rw [groups?, List.mapM_cons] at h
      simp only [Option.bind_eq_bind, Option.bind_eq_some_iff, Option.pure_def] at h
      obtain ⟨v, hv, us, hus, -⟩ := h
      intro q hq
      rcases List.mem_cons.mp hq with rfl | hq
      · have hp := (group?_eq_some.mp hv).1
        exact ⟨hp.1, hp.2.2⟩
      · exact ih hus q hq

/-- A group has no colon in it. -/
theorem colon_not_mem {p : List UInt8} (h : p.all isDigit = true) : 58 ∉ p := by
  intro hmem
  exact absurd (List.all_eq_true.mp h 58 hmem) (by decide)

/-- The pieces that a side of the text is split into. -/
def side (ps : List (List UInt8)) : List (List UInt8) := if ps = [] then [[]] else ps

/-- An empty side is split into one empty piece. -/
theorem side_nil : side [] = [[]] := rfl

/-- Any other side is split into its groups. -/
theorem side_cons (p : List UInt8) (ps : List (List UInt8)) : side (p :: ps) = p :: ps :=
  if_neg (List.cons_ne_nil p ps)

/-- Splitting at the colons gives the groups back. -/
theorem splitOn_joined {ps : List (List UInt8)} {vs : List Nat} (h : groups? ps = some vs) :
    (joined ps).splitOn 58 = side ps := by
  rw [side]
  split
  · next hnil =>
      rw [hnil]
      rfl
  · next hne =>
      exact List.splitOn_intercalate 58 (fun p hp => colon_not_mem (mem_of_groups? h p hp).2) hne

/-- The pieces of a side determine its groups. -/
theorem side_inj {ps qs : List (List UInt8)} {us vs : List Nat} (hps : groups? ps = some us)
    (hqs : groups? qs = some vs) (h : side ps = side qs) : ps = qs := by
  rw [side, side] at h
  split at h
  · next hp =>
      split at h
      · next hq => rw [hp, hq]
      · next hq => exact absurd rfl (mem_of_groups? hqs [] (h ▸ List.mem_singleton_self _)).1
  · next hp =>
      split at h
      · next hq => exact absurd rfl (mem_of_groups? hps [] (h ▸ List.mem_singleton_self _)).1
      · next hq => exact h

/-- No group is empty. -/
theorem nil_not_mem {ps : List (List UInt8)} {vs : List Nat} (h : groups? ps = some vs) :
    [] ∉ ps :=
  fun hmem => (mem_of_groups? h [] hmem).1 rfl

/-- The groups are what stands in front of the first empty piece. -/
theorem takeWhile_pieces {ps : List (List UInt8)} {vs : List Nat} (h : groups? ps = some vs)
    (qs : List (List UInt8)) : (ps ++ [] :: qs).takeWhile (fun p => !p.isEmpty) = ps := by
  rw [List.takeWhile_append_of_pos, List.takeWhile_cons_of_neg (by decide), List.append_nil]
  intro p hp
  rw [Bool.not_eq_true', List.isEmpty_eq_false_iff]
  exact (mem_of_groups? h p hp).1

/-- The first empty piece is where the zeros are. -/
theorem sides_inj {ls ls' rs rs' : List (List UInt8)} {us us' vs vs' : List Nat}
    (hl : groups? ls = some us) (hl' : groups? ls' = some us') (hr : groups? rs = some vs)
    (hr' : groups? rs' = some vs') (h : side ls ++ [] :: side rs = side ls' ++ [] :: side rs') :
    ls = ls' ∧ rs = rs' := by
  cases ls with
  | nil =>
      cases ls' with
      | nil =>
          rw [side_nil] at h
          exact ⟨rfl, side_inj hr hr' (List.cons.inj (List.cons.inj h).2).2⟩
      | cons p ps =>
          rw [side_nil, side_cons] at h
          have hhead : [] = p := (List.cons.inj h).1
          exact absurd (hhead ▸ List.mem_cons_self) (nil_not_mem hl')
  | cons p ps =>
      cases ls' with
      | nil =>
          rw [side_nil, side_cons] at h
          have hhead : p = [] := (List.cons.inj h).1
          exact absurd (hhead.symm ▸ List.mem_cons_self) (nil_not_mem hl)
      | cons q qs =>
          rw [side_cons, side_cons] at h
          have hleft : p :: ps = q :: qs := by
            rw [← takeWhile_pieces hl (side rs), h, takeWhile_pieces hl']
          rw [hleft, List.append_cancel_left_eq] at h
          exact ⟨hleft, side_inj hr hr' (List.cons.inj h).2⟩

/-- A compressed text is split into its sides with an empty piece between them. -/
theorem splitOn_compressed {ls rs : List (List UInt8)} {us vs : List Nat}
    (hl : groups? ls = some us) (hr : groups? rs = some vs) :
    (joined ls ++ 58 :: 58 :: joined rs).splitOn 58 = side ls ++ [] :: side rs := by
  have hright : (58 :: joined rs).splitOn 58 = [] :: side rs := by
    rw [← splitOn_joined hr]
    exact List.splitOn_append_cons_self_of_not_mem (List.not_mem_nil) _
  rw [List.splitOn_append_cons_self, splitOn_joined hl, hright]

/-- A full address has no empty piece. -/
theorem full_ne_compressed {ps ls rs : List (List UInt8)} {ws us vs : List Nat}
    (hp : groups? ps = some ws) (hlen : ws.length = 8) (hl : groups? ls = some us)
    (hr : groups? rs = some vs) : joined ps ≠ joined ls ++ 58 :: 58 :: joined rs := by
  intro heq
  have hsplit := congrArg (List.splitOn 58) heq
  have hne : ps ≠ [] := by
    rintro rfl
    cases hp
    exact absurd hlen (by decide)
  rw [splitOn_joined hp, splitOn_compressed hl hr, side, if_neg hne] at hsplit
  exact nil_not_mem hp (hsplit ▸ List.mem_append_right _ List.mem_cons_self)

/-- **A text denotes one address.** -/
theorem Denotes.unique {text : List UInt8} {us vs : List Nat} (hu : Denotes text us)
    (hv : Denotes text vs) : us = vs := by
  generalize htext : text = text' at hv
  cases hu with
  | full hp hlen =>
      cases hv with
      | full hq hlen' =>
          have hsplit := congrArg (List.splitOn 58) htext
          rw [splitOn_joined hp, splitOn_joined hq] at hsplit
          rw [side_inj hp hq hsplit] at hp
          exact Option.some.inj (hp.symm.trans hq)
      | compressed hl hr _ => exact absurd htext (full_ne_compressed hp hlen hl hr)
  | compressed hl hr _ =>
      cases hv with
      | full hq hlen' => exact absurd htext.symm (full_ne_compressed hq hlen' hl hr)
      | compressed hl' hr' _ =>
          have hsplit := congrArg (List.splitOn 58) htext
          rw [splitOn_compressed hl hr, splitOn_compressed hl' hr'] at hsplit
          obtain ⟨rfl, rfl⟩ := sides_inj hl hl' hr hr' hsplit
          rw [Option.some.inj (hl.symm.trans hl'), Option.some.inj (hr.symm.trans hr')]

/-! ### Characters -/

/-- A digit or a colon. -/
def isText (b : UInt8) : Bool := isDigit b || b == 58

/-- Groups are written in digits and colons. -/
theorem all_joined {ps : List (List UInt8)} {vs : List Nat} (h : groups? ps = some vs) :
    (joined ps).all isText = true := by
  have hpieces : ∀ p ∈ ps, p.all isText = true := by
    intro p hp
    refine List.all_eq_true.mpr fun b hb => ?_
    rw [isText, List.all_eq_true.mp (mem_of_groups? h p hp).2 b hb, Bool.true_or]
  cases ps with
  | nil => rfl
  | cons p ps =>
      rw [joined_cons, List.all_append, hpieces p List.mem_cons_self, Bool.true_and,
        List.all_eq_true]
      intro b hb
      obtain ⟨q, hq, hb⟩ := List.mem_flatMap.mp hb
      rcases List.mem_cons.mp hb with rfl | hb
      · rfl
      · exact List.all_eq_true.mp (hpieces q (List.mem_cons_of_mem _ hq)) b hb

/-- An address is written in digits and colons. -/
theorem Denotes.all {text : List UInt8} {vs : List Nat} (h : Denotes text vs) :
    text.all isText = true := by
  cases h with
  | full hp _ => exact all_joined hp
  | compressed hl hr _ =>
      rw [List.all_append, List.all_cons, List.all_cons, all_joined hl, all_joined hr]
      rfl

end Ipv6Text
