import Mathlib.Data.List.Basic

/-!
# Table-driven scanners with embedded actions

A scanner generator turns a grammar with actions into a table: for each state
the rules that say on which bytes it moves, which actions it performs on the
way and where it goes.  `exec` scans a buffer with such a table; an action may
end the scan behind the current byte, and a byte without a rule ends it in the
error state `0`.  The table decides where to go, the actions only compute, so
the rules a scan takes (`walk`) do not depend on what the actions do:

* `exec_of_walk`, `walk_split` -- the scan of a message that ends at its last
  byte performs the actions of its rules, also when it comes in two pieces;
* `perform_append`, `events_append` -- and the actions of the two pieces follow
  each other;
* `of_all` -- what a check of the whole table says holds of every rule taken;
* `exec_inv`, `exec_map` -- what a scan of any bytes keeps, and actions that compute more on
  the side.
-/

namespace Scanner

variable {A σ τ : Type}

/-- On a byte in one of the ranges `on` perform `acts` and go to `next`; a
guarded rule counts only when the scanner's flag is set. -/
structure Rule (A : Type) where
  on : List (Nat × Nat)
  guarded : Bool
  acts : List A
  next : Nat
  deriving DecidableEq, Repr

/-- The rules of each state, the first that fits is taken. -/
abbrev Table (A : Type) := List (Nat × List (Rule A))

/-- A rule on a class of bytes. -/
def on (class_ : List (Nat × Nat)) (acts : List A) (next : Nat) : Rule A :=
  ⟨class_, false, acts, next⟩

/-- A rule on a single byte. -/
def byte (b : Nat) (acts : List A) (next : Nat) : Rule A :=
  ⟨[(b, b)], false, acts, next⟩

/-- A rule on a class of bytes that the flag has to allow. -/
def whenSet (class_ : List (Nat × Nat)) (acts : List A) (next : Nat) : Rule A :=
  ⟨class_, true, acts, next⟩

def digit : List (Nat × Nat) := [(48, 57)]

def xdigit : List (Nat × Nat) := [(48, 57), (65, 70), (97, 102)]

def Rule.takes (r : Rule A) (flag : Bool) (b : UInt8) : Bool :=
  (flag || !r.guarded) && r.on.any fun c => c.1 ≤ b.toNat && b.toNat ≤ c.2

end Scanner

/-- A table, its flag, and the actions that end the scan. -/
structure Scanner (A : Type) where
  table : Scanner.Table A
  flag : Bool
  halts : A → Bool

namespace Scanner

variable {A σ τ : Type}

/-- The rules of state `q`. -/
def rules (m : Scanner A) (q : Nat) : List (Rule A) := (m.table.lookup q).getD []

/-- The rule state `q` has for the byte `b`. -/
def rule (m : Scanner A) (q : Nat) (b : UInt8) : Option (Rule A) :=
  (m.rules q).find? (·.takes m.flag b)

/-- The scan ends with this rule. -/
def ends (m : Scanner A) (r : Rule A) : Bool := r.acts.any m.halts

/-- Perform actions, each at its position; `none` when one of them throws. -/
def perform (act : Nat → A → σ → Option σ) : List (Nat × A) → σ → Option σ
  | [], s => some s
  | e :: es, s => (act e.1 e.2 s).bind (perform act es)

/-- Scan `bs`, found at position `p`, from state `q`: the state and the
position reached and what the actions computed. -/
def exec (m : Scanner A) (act : Nat → A → σ → Option σ) :
    Nat → Nat → σ → List UInt8 → Option (Nat × Nat × σ)
  | q, p, s, [] => some (q, p, s)
  | q, p, s, b :: bs =>
      match m.rule q b with
      | none => some (0, p, s)
      | some r =>
          (perform act (r.acts.map (p, ·)) s).bind fun t =>
            if m.ends r then some (r.next, p + 1, t)
            else exec m act r.next (p + 1) t bs

/-- The actions of successive rules, one rule a position. -/
def events : Nat → List (Rule A) → List (Nat × A)
  | _, [] => []
  | p, r :: rs => r.acts.map (p, ·) ++ events (p + 1) rs

/-- The rules taken on a message, provided the scan ends with its last byte. -/
def walk (m : Scanner A) : Nat → List UInt8 → Option (List (Rule A))
  | _, [] => none
  | q, b :: bs =>
      match m.rule q b with
      | none => none
      | some r =>
          if m.ends r then (if bs = [] then some [r] else none)
          else (walk m r.next bs).map (r :: ·)

/-- The rules taken on successive bytes, wherever the scans in between end. -/
def follow (m : Scanner A) : Nat → List UInt8 → Option (List (Rule A))
  | _, [] => some []
  | q, b :: bs => (m.rule q b).bind fun r => (follow m r.next bs).map (r :: ·)

/-- The state a walk from `q` ends in. -/
def lastState : Nat → List (Rule A) → Nat
  | q, [] => q
  | _, r :: rs => lastState r.next rs

variable {m : Scanner A} {act : Nat → A → σ → Option σ}

theorem rule_mem {q : Nat} {b : UInt8} {r : Rule A} (h : m.rule q b = some r) :
    r ∈ m.rules q :=
  List.mem_of_find?_eq_some h

theorem rule_takes {q : Nat} {b : UInt8} {r : Rule A} (h : m.rule q b = some r) :
    r.takes m.flag b = true :=
  List.find?_some (p := fun r : Rule A => r.takes m.flag b) h

/-- **Table check**, row by row. -/
theorem of_all_rows {P : Nat → List (Rule A) → Bool}
    (h : (m.table.all fun row => P row.1 row.2) = true) {q : Nat} (hq : m.rules q ≠ []) :
    P q (m.rules q) = true := by
  cases hrow : m.table.lookup q with
  | none => simp [rules, hrow] at hq
  | some rs =>
      have hmem : (q, rs) ∈ m.table := by
        obtain ⟨l₁, l₂, htable, _⟩ := List.lookup_eq_some_iff.mp hrow
        simp [htable]
      rw [rules, hrow, Option.getD_some]
      exact List.all_eq_true.mp h (q, rs) hmem

/-- **Table check.**  What holds of every rule of the table holds of every rule
taken. -/
theorem of_all {P : Nat → Rule A → Bool}
    (h : (m.table.all fun row => row.2.all (P row.1)) = true) {q : Nat} {r : Rule A}
    (hr : r ∈ m.rules q) : P q r = true :=
  List.all_eq_true.mp
    (of_all_rows (P := fun q rs => rs.all (P q)) h (List.ne_nil_of_mem hr)) r hr

/-- A walk begins with the rule of the first byte, and either ends there or
goes on. -/
theorem walk_cons {q : Nat} {b : UInt8} {bs : List UInt8} {rs : List (Rule A)}
    (h : m.walk q (b :: bs) = some rs) :
    ∃ r, m.rule q b = some r ∧
      ((m.ends r = true ∧ bs = [] ∧ rs = [r]) ∨
        (m.ends r = false ∧ ∃ rs', m.walk r.next bs = some rs' ∧ rs = r :: rs')) := by
  cases hrule : m.rule q b with
  | none => simp [walk, hrule] at h
  | some r =>
      refine ⟨r, rfl, ?_⟩
      simp only [walk, hrule] at h
      cases hends : m.ends r with
      | true =>
          simp only [hends, if_true] at h
          split at h
          · next hnil => exact .inl ⟨rfl, hnil, (Option.some.inj h).symm⟩
          · cases h
      | false =>
          simp only [hends, Bool.false_eq_true, if_false, Option.map_eq_some_iff] at h
          obtain ⟨rs', hrest, rfl⟩ := h
          exact .inr ⟨rfl, rs', hrest, rfl⟩

theorem walk_ne_nil {q : Nat} {bs : List UInt8} {rs : List (Rule A)}
    (h : m.walk q bs = some rs) : bs ≠ [] := by
  rintro rfl
  cases h

theorem length_of_walk {q : Nat} {bs : List UInt8} {rs : List (Rule A)}
    (h : m.walk q bs = some rs) : rs.length = bs.length := by
  induction bs generalizing q rs with
  | nil => cases h
  | cons b bs ih =>
      obtain ⟨r, _, ⟨_, rfl, rfl⟩ | ⟨_, rs', hrest, rfl⟩⟩ := walk_cons h
      · rfl
      · simp [ih hrest]

/-- Each rule of a walk was taken on its byte. -/
theorem walk_getElem {q : Nat} {bs : List UInt8} {rs : List (Rule A)}
    (h : m.walk q bs = some rs) {i : Nat} {r : Rule A} (hr : rs[i]? = some r) :
    ∃ q' b, bs[i]? = some b ∧ m.rule q' b = some r := by
  induction bs generalizing q rs i with
  | nil => cases h
  | cons b bs ih =>
      obtain ⟨r', hrule, ⟨_, rfl, rfl⟩ | ⟨_, rs', hrest, rfl⟩⟩ := walk_cons h
      · cases i with
        | zero =>
            cases hr
            exact ⟨q, b, rfl, hrule⟩
        | succ i => simp at hr
      · cases i with
        | zero =>
            cases hr
            exact ⟨q, b, rfl, hrule⟩
        | succ i => exact ih hrest hr

/-- Each rule of a walk is in the table. -/
theorem mem_of_walk {q : Nat} {bs : List UInt8} {rs : List (Rule A)}
    (h : m.walk q bs = some rs) {r : Rule A} (hr : r ∈ rs) : ∃ q', r ∈ m.rules q' := by
  obtain ⟨i, hi⟩ := List.mem_iff_getElem?.mp hr
  obtain ⟨q', b, _, hrule⟩ := walk_getElem h hi
  exact ⟨q', rule_mem hrule⟩

theorem lastState_append (q : Nat) (rs rs' : List (Rule A)) :
    lastState q (rs ++ rs') = lastState (lastState q rs) rs' := by
  induction rs generalizing q with
  | nil => rfl
  | cons r rs ih => exact ih r.next

/-- Some rule leads to the state a nonempty walk ends in. -/
theorem lastState_mem {q : Nat} {rs : List (Rule A)} (h : rs ≠ []) :
    ∃ r ∈ rs, lastState q rs = r.next := by
  induction rs generalizing q with
  | nil => exact absurd rfl h
  | cons r rs ih =>
      cases rs with
      | nil => exact ⟨r, by simp, rfl⟩
      | cons r' rs =>
          obtain ⟨r'', hmem, heq⟩ := ih (q := r.next) (by simp)
          exact ⟨r'', List.mem_cons_of_mem r hmem, heq⟩

theorem perform_append (es es' : List (Nat × A)) (s : σ) :
    perform act (es ++ es') s = (perform act es s).bind (perform act es') := by
  induction es generalizing s with
  | nil => rfl
  | cons e es ih =>
      simp only [List.cons_append, perform]
      cases act e.1 e.2 s with
      | none => rfl
      | some t => simp only [Option.bind_some, ih]

theorem events_append (p : Nat) (rs rs' : List (Rule A)) :
    events p (rs ++ rs') = events p rs ++ events (p + rs.length) rs' := by
  induction rs generalizing p with
  | nil => rfl
  | cons r rs ih =>
      have hp : p + 1 + rs.length = p + (rs.length + 1) := by omega
      simp only [List.cons_append, events, ih, List.append_assoc, List.length_cons, hp]

/-- The same rules further on. -/
theorem events_add (c p : Nat) (rs : List (Rule A)) :
    events (c + p) rs = (events p rs).map fun e => (c + e.1, e.2) := by
  induction rs generalizing p with
  | nil => rfl
  | cons r rs ih =>
      simp only [events, Nat.add_assoc, ih, List.map_append, List.map_map]
      rfl

/-- An event stands at the position of its rule. -/
theorem mem_events {p : Nat} {rs : List (Rule A)} {e : Nat × A} (h : e ∈ events p rs) :
    ∃ i r, rs[i]? = some r ∧ e.1 = p + i ∧ e.2 ∈ r.acts := by
  induction rs generalizing p with
  | nil => cases h
  | cons r rs ih =>
      rcases List.mem_append.mp h with h | h
      · obtain ⟨a, ha, rfl⟩ := List.mem_map.mp h
        exact ⟨0, r, rfl, rfl, ha⟩
      · obtain ⟨i, r', hr', he, ha⟩ := ih h
        exact ⟨i + 1, r', hr', by omega, ha⟩

theorem events_bounds {p : Nat} {rs : List (Rule A)} {e : Nat × A} (h : e ∈ events p rs) :
    p ≤ e.1 ∧ e.1 < p + rs.length := by
  obtain ⟨i, r, hr, he, _⟩ := mem_events h
  have hi := (List.getElem?_eq_some_iff.mp hr).1
  omega

theorem map_snd_events (p : Nat) (rs : List (Rule A)) :
    (events p rs).map Prod.snd = rs.flatMap Rule.acts := by
  induction rs generalizing p with
  | nil => rfl
  | cons r rs ih => simp [events, ih, Function.comp_def]

/-- Events come in the order of their positions. -/
theorem events_sorted (p : Nat) (rs : List (Rule A)) :
    (events p rs).Pairwise fun e e' => e.1 ≤ e'.1 := by
  induction rs generalizing p with
  | nil => exact List.Pairwise.nil
  | cons r rs ih =>
      refine List.pairwise_append.mpr ⟨?_, ih (p + 1), ?_⟩
      · rw [List.pairwise_map]
        exact List.pairwise_of_forall fun _ _ => Nat.le_refl p
      · intro e he e' he'
        obtain ⟨a, _, rfl⟩ := List.mem_map.mp he
        have := (events_bounds he').1
        simp only
        omega

/-- **The scan of a message** that ends at its last byte performs the actions of
its rules and stops there, whatever follows in the buffer. -/
theorem exec_of_walk {q : Nat} {bs : List UInt8} {rs : List (Rule A)}
    (h : m.walk q bs = some rs) (rest : List UInt8) (p : Nat) (s : σ) :
    m.exec act q p s (bs ++ rest) =
      (perform act (events p rs) s).map fun t => (lastState q rs, p + bs.length, t) := by
  induction bs generalizing q rs p s with
  | nil => cases h
  | cons b bs ih =>
      obtain ⟨r, hrule, ⟨hends, rfl, rfl⟩ | ⟨hends, rs', hrest, rfl⟩⟩ := walk_cons h
      · simp only [List.singleton_append, exec, hrule, events, List.append_nil, hends]
        cases perform act (r.acts.map (p, ·)) s with
        | none => rfl
        | some t => rfl
      · simp only [List.cons_append, exec, hrule, events, perform_append, hends]
        cases perform act (r.acts.map (p, ·)) s with
        | none => rfl
        | some t =>
            have hp : p + 1 + bs.length = p + (b :: bs).length := by
              simp only [List.length_cons]
              omega
            simp [ih hrest, hp, lastState]

theorem follow_cons {q : Nat} {b : UInt8} {bs : List UInt8} {rs : List (Rule A)}
    (h : m.follow q (b :: bs) = some rs) :
    ∃ r rs', m.rule q b = some r ∧ m.follow r.next bs = some rs' ∧ rs = r :: rs' := by
  obtain ⟨r, hrule, hrest⟩ := Option.bind_eq_some_iff.mp h
  obtain ⟨rs', hfollow, rfl⟩ := Option.map_eq_some_iff.mp hrest
  exact ⟨r, rs', hrule, hfollow, rfl⟩

theorem follow_of_walk {q : Nat} {bs : List UInt8} {rs : List (Rule A)}
    (h : m.walk q bs = some rs) : m.follow q bs = some rs := by
  induction bs generalizing q rs with
  | nil => cases h
  | cons b bs ih =>
      obtain ⟨r, hrule, ⟨_, rfl, rfl⟩ | ⟨_, rs', hrest, rfl⟩⟩ := walk_cons h
      · simp [follow, hrule]
      · simp [follow, hrule, ih hrest]

theorem follow_append {q : Nat} {bs bs' : List UInt8} {rs : List (Rule A)}
    (h : m.follow q (bs ++ bs') = some rs) :
    ∃ rs₁ rs₂, rs = rs₁ ++ rs₂ ∧ m.follow q bs = some rs₁ ∧
      m.follow (lastState q rs₁) bs' = some rs₂ := by
  induction bs generalizing q rs with
  | nil => exact ⟨[], rs, rfl, rfl, h⟩
  | cons b bs ih =>
      obtain ⟨r, rs', hrule, hrest, rfl⟩ := follow_cons h
      obtain ⟨rs₁, rs₂, rfl, hfirst, hsecond⟩ := ih hrest
      exact ⟨r :: rs₁, rs₂, rfl, by simp [follow, hrule, hfirst], hsecond⟩

theorem follow_append_eq {q : Nat} {bs bs' : List UInt8} {rs : List (Rule A)}
    (h : m.follow q bs = some rs) :
    m.follow q (bs ++ bs') = (m.follow (lastState q rs) bs').map (rs ++ ·) := by
  induction bs generalizing q rs with
  | nil =>
      cases h
      simp [lastState]
  | cons b bs ih =>
      obtain ⟨r, rs', hrule, hrest, rfl⟩ := follow_cons h
      simp [follow, hrule, ih hrest, lastState, Function.comp_def]

/-- Each rule is in the table. -/
theorem mem_of_follow {q : Nat} {bs : List UInt8} {rs : List (Rule A)}
    (h : m.follow q bs = some rs) {r : Rule A} (hr : r ∈ rs) : ∃ q', r ∈ m.rules q' := by
  induction bs generalizing q rs with
  | nil =>
      cases h
      cases hr
  | cons b bs ih =>
      obtain ⟨r', rs', hrule, hrest, rfl⟩ := follow_cons h
      rcases List.mem_cons.mp hr with rfl | hr
      · exact ⟨q, rule_mem hrule⟩
      · exact ih hrest hr

/-- **What a scan did**, unless it ended in the error state: it took rules on the
bytes it consumed and performed their actions. -/
theorem exec_follow {q p q' p' : Nat} {s t : σ} {bs : List UInt8}
    (h : m.exec act q p s bs = some (q', p', t)) (hq : q' ≠ 0) :
    ∃ pre post rs, bs = pre ++ post ∧ p' = p + pre.length ∧ m.follow q pre = some rs ∧
      lastState q rs = q' ∧ perform act (events p rs) s = some t := by
  induction bs generalizing q p s with
  | nil =>
      cases h
      exact ⟨[], [], [], rfl, rfl, rfl, rfl, rfl⟩
  | cons b bs ih =>
      cases hrule : m.rule q b with
      | none =>
          simp only [exec, hrule, Option.some.injEq, Prod.mk.injEq] at h
          exact absurd h.1.symm hq
      | some r =>
          simp only [exec, hrule] at h
          obtain ⟨u, hu, hrest⟩ := Option.bind_eq_some_iff.mp h
          split at hrest
          · cases hrest
            exact ⟨[b], bs, [r], rfl, rfl, by simp [follow, hrule], rfl, by simp [events, hu]⟩
          · obtain ⟨pre, post, rs, rfl, hp, hfollow, hlast, hperform⟩ := ih hrest
            refine ⟨b :: pre, post, r :: rs, rfl, ?_, ?_, hlast, ?_⟩
            · simp only [List.length_cons]
              omega
            · simp [follow, hrule, hfollow]
            · simp [events, perform_append, hu, hperform]

/-- **Invariant rule.**  What every action keeps holds behind a list of them. -/
theorem perform_inv {I : Nat → σ → Prop} {es : List (Nat × A)} {n : Nat}
    (hmono : ∀ {p p' s}, p ≤ p' → I p s → I p' s)
    (hact : ∀ a {p s}, p ≤ n → I p s → ∃ t, act p a s = some t ∧ I p t)
    (hsorted : es.Pairwise fun e e' => e.1 ≤ e'.1) (hle : ∀ e ∈ es, e.1 ≤ n)
    {s : σ} (hs : I 0 s) : ∃ t, perform act es s = some t ∧ I n t := by
  suffices h : ∀ p, p ≤ n → (∀ e ∈ es, p ≤ e.1) → ∀ s, I p s →
      ∃ t, perform act es s = some t ∧ I n t from
    h 0 (Nat.zero_le n) (fun e _ => Nat.zero_le e.1) s hs
  induction es with
  | nil => exact fun p hp _ s hs => ⟨s, rfl, hmono hp hs⟩
  | cons e es ih =>
      intro p _ hfrom s hs
      obtain ⟨hfirst, hsorted⟩ := List.pairwise_cons.mp hsorted
      have hn : e.1 ≤ n := hle e (by simp)
      obtain ⟨u, hu, hIu⟩ := hact e.2 hn (hmono (hfrom e (by simp)) hs)
      obtain ⟨t, ht, hIt⟩ := ih hsorted (fun e' he' => hle e' (by simp [he'])) e.1 hn hfirst u hIu
      exact ⟨t, by simp [perform, hu, ht], hIt⟩

/-- **A scan of any bytes** gets to their end or stops in front of it, and keeps what every
action keeps that stands before the end `n` of the buffer. -/
theorem exec_inv {I : Nat → σ → Prop} {n : Nat}
    (hmono : ∀ {p p' s}, p ≤ p' → I p s → I p' s)
    (hact : ∀ a {p s}, p < n → I p s → ∃ t, act p a s = some t ∧ I p t)
    {q p k : Nat} {s : σ} {bs : List UInt8} (hs : I k s) (hk : k ≤ p) (hn : k < n)
    (hp : p + bs.length = n) :
    ∃ q' p' t k', m.exec act q p s bs = some (q', p', t) ∧ p' ≤ n ∧ k' < n ∧ I k' t := by
  induction bs generalizing q p k s with
  | nil => exact ⟨q, p, s, k, rfl, by rw [← hp, List.length_nil]; omega, hn, hs⟩
  | cons b bs ih =>
      rw [List.length_cons] at hp
      cases hrule : m.rule q b with
      | none => exact ⟨0, p, s, k, by simp [exec, hrule], by omega, hn, hs⟩
      | some r =>
          have hmany : ∀ (as : List A) (s : σ), I p s →
              ∃ t, perform act (as.map (p, ·)) s = some t ∧ I p t := by
            intro as
            induction as with
            | nil => exact fun s hs => ⟨s, rfl, hs⟩
            | cons a as iha =>
                intro s hs
                obtain ⟨u, hu, hIu⟩ := hact a (by omega) hs
                obtain ⟨t, ht, hIt⟩ := iha u hIu
                exact ⟨t, by simp [perform, hu, ht], hIt⟩
          obtain ⟨t, ht, hIt⟩ := hmany r.acts s (hmono hk hs)
          simp only [exec, hrule, ht, Option.bind_some]
          by_cases hends : m.ends r = true
          · exact ⟨r.next, p + 1, t, p, if_pos hends, by omega, by omega, hIt⟩
          · rw [if_neg hends]
            exact ih hIt (Nat.le_succ p) (by omega) (by omega)

/-- What every action keeps is kept by a list of them, and by a scan. -/
theorem perform_keeps {I : σ → Prop} (hact : ∀ {p a s t}, act p a s = some t → I s → I t)
    {es : List (Nat × A)} {s t : σ} (h : perform act es s = some t) (hs : I s) : I t := by
  induction es generalizing s with
  | nil =>
      cases h
      exact hs
  | cons e es ih =>
      obtain ⟨u, hu, hrest⟩ := Option.bind_eq_some_iff.mp h
      exact ih hrest (hact hu hs)

theorem exec_keeps {I : σ → Prop} (hact : ∀ {p a s t}, act p a s = some t → I s → I t)
    {q p q' p' : Nat} {s t : σ} {bs : List UInt8} (h : m.exec act q p s bs = some (q', p', t))
    (hs : I s) : I t := by
  induction bs generalizing q p s with
  | nil =>
      cases h
      exact hs
  | cons b bs ih =>
      cases hrule : m.rule q b with
      | none =>
          simp only [exec, hrule, Option.some.injEq, Prod.mk.injEq] at h
          exact h.2.2 ▸ hs
      | some r =>
          simp only [exec, hrule] at h
          obtain ⟨u, hu, hrest⟩ := Option.bind_eq_some_iff.mp h
          have hIu := perform_keeps hact hu hs
          split at hrest
          · cases hrest
            exact hIu
          · exact ih hrest hIu

/-- Actions that compute more on the side. -/
theorem perform_map {act' : Nat → A → τ → Option τ} {f : τ → σ}
    (hact : ∀ p a t, (act' p a t).map f = act p a (f t)) (es : List (Nat × A)) (t : τ) :
    (perform act' es t).map f = perform act es (f t) := by
  induction es generalizing t with
  | nil => rfl
  | cons e es ih =>
      simp only [perform, ← hact e.1 e.2 t]
      cases act' e.1 e.2 t with
      | none => rfl
      | some u => exact ih u

theorem exec_map {act' : Nat → A → τ → Option τ} {f : τ → σ}
    (hact : ∀ p a t, (act' p a t).map f = act p a (f t)) (q p : Nat) (t : τ) (bs : List UInt8) :
    (m.exec act' q p t bs).map (fun r => (r.1, r.2.1, f r.2.2)) = m.exec act q p (f t) bs := by
  induction bs generalizing q p t with
  | nil => rfl
  | cons b bs ih =>
      cases hrule : m.rule q b with
      | none => simp [exec, hrule]
      | some r =>
          simp only [exec, hrule, ← perform_map hact]
          cases perform act' (r.acts.map (p, ·)) t with
          | none => rfl
          | some u =>
              simp only [Option.bind_some, Option.map_some]
              split
              · rfl
              · exact ih r.next (p + 1) u

/-- **A message in two pieces.**  The scan of the first piece stops at its end,
in a state from which the walk goes on with the second. -/
theorem walk_split {q : Nat} {bs bs' : List UInt8} {rs : List (Rule A)}
    (h : m.walk q (bs ++ bs') = some rs) (hne : bs' ≠ []) :
    ∃ rs₁ rs₂, rs = rs₁ ++ rs₂ ∧ rs₁.length = bs.length ∧
      m.walk (lastState q rs₁) bs' = some rs₂ ∧ m.follow q bs = some rs₁ ∧
      (∀ r ∈ rs₁, m.ends r = false) ∧
      ∀ {σ : Type} (act : Nat → A → σ → Option σ) (p : Nat) (s : σ),
        m.exec act q p s bs =
          (perform act (events p rs₁) s).map fun t => (lastState q rs₁, p + bs.length, t) := by
  induction bs generalizing q rs with
  | nil => exact ⟨[], rs, rfl, rfl, h, rfl, by simp, fun act p s => rfl⟩
  | cons b bs ih =>
      obtain ⟨r, hrule, ⟨_, hnil, _⟩ | ⟨hends, rs', hrest, rfl⟩⟩ := walk_cons h
      · exact absurd (List.append_eq_nil_iff.mp hnil).2 hne
      · obtain ⟨rs₁, rs₂, rfl, hlen, hwalk, hfollow, hends₁, hexec⟩ := ih hrest
        refine ⟨r :: rs₁, rs₂, rfl, by simp [hlen], hwalk, by simp [follow, hrule, hfollow],
          by simpa [hends] using hends₁, ?_⟩
        intro σ act p s
        simp only [exec, hrule, hends, events, perform_append, lastState]
        cases perform act (r.acts.map (p, ·)) s with
        | none => rfl
        | some t =>
            have hp : p + 1 + bs.length = p + (b :: bs).length := by
              simp only [List.length_cons]
              omega
            simp [hexec, hp]

/-! ### Bytes without actions -/

/-- The byte is in one of the ranges. -/
def inClass (class_ : List (Nat × Nat)) (b : UInt8) : Bool :=
  class_.any fun c => c.1 ≤ b.toNat && b.toNat ≤ c.2

/-- **Byte check.**  What holds of the numbers below 256 holds of every byte. -/
theorem forall_byte {P : UInt8 → Bool}
    (h : ((List.range 256).all fun n => P (UInt8.ofNat n)) = true) (b : UInt8) : P b = true := by
  have hb := List.all_eq_true.mp h b.toNat (List.mem_range.mpr b.toNat_lt)
  rwa [UInt8.ofNat_toNat] at hb

/-- Every byte of the class is in the range lists `on`, as the ends of the ranges tell. -/
def covers (on class_ : List (Nat × Nat)) : Bool :=
  class_.all fun c => on.any fun d => Nat.ble d.1 c.1 && Nat.ble c.2 d.2

/-- No byte of the class is in the range lists `on`, as the ends of the ranges tell. -/
def apart (on class_ : List (Nat × Nat)) : Bool :=
  class_.all fun c => on.all fun d => Nat.blt d.2 c.1 || Nat.blt c.2 d.1

/-- The rule `r` is the first of the row that fits a byte of the class, whatever the flag. -/
def firstFits [DecidableEq A] (r : Rule A) (class_ : List (Nat × Nat)) : List (Rule A) → Bool
  | [] => false
  | r' :: rs =>
      if r' = r then !r.guarded && covers r.on class_
      else apart r'.on class_ && firstFits r class_ rs

theorem inClass_of_covers {on class_ : List (Nat × Nat)} {b : UInt8}
    (h : covers on class_ = true) (hb : inClass class_ b = true) : inClass on b = true := by
  obtain ⟨c, hc, hbc⟩ := List.any_eq_true.mp hb
  obtain ⟨d, hd, hcd⟩ := List.any_eq_true.mp (List.all_eq_true.mp h c hc)
  refine List.any_eq_true.mpr ⟨d, hd, ?_⟩
  simp only [Bool.and_eq_true, decide_eq_true_eq, Nat.ble_eq] at hbc hcd ⊢
  omega

theorem inClass_of_apart {on class_ : List (Nat × Nat)} {b : UInt8}
    (h : apart on class_ = true) (hb : inClass class_ b = true) : inClass on b = false := by
  obtain ⟨c, hc, hbc⟩ := List.any_eq_true.mp hb
  refine List.any_eq_false.mpr fun d hd => ?_
  have hcd := List.all_eq_true.mp (List.all_eq_true.mp h c hc) d hd
  simp only [Bool.and_eq_true, Bool.or_eq_true, decide_eq_true_eq, Nat.blt_eq] at hbc hcd ⊢
  omega

/-- **Class check.**  A rule that a look at the ranges of its row finds to be the first on a
class is the one taken. -/
theorem find_of_firstFits [DecidableEq A] {r : Rule A} {class_ : List (Nat × Nat)}
    {rs : List (Rule A)} {b : UInt8} (flag : Bool) (h : firstFits r class_ rs = true)
    (hb : inClass class_ b = true) : rs.find? (·.takes flag b) = some r := by
  induction rs with
  | nil => cases h
  | cons r' rs ih =>
      rw [firstFits] at h
      split at h
      · next heq =>
          subst heq
          rw [Bool.and_eq_true, Bool.not_eq_true'] at h
          have hon : inClass r'.on b = true := inClass_of_covers h.2 hb
          rw [inClass] at hon
          exact List.find?_cons_of_pos (by simp [Rule.takes, h.1, hon])
      · rw [Bool.and_eq_true] at h
        have hon : inClass r'.on b = false := inClass_of_apart h.1 hb
        rw [inClass] at hon
        rw [List.find?_cons_of_neg (by simp [Rule.takes, hon])]
        exact ih h.2

/-- The bytes `bs` lead from `q` to `q'`, and no action is performed on them. -/
def Silent (m : Scanner A) (q : Nat) (bs : List UInt8) (q' : Nat) : Prop :=
  ∃ rs, m.follow q bs = some rs ∧ lastState q rs = q' ∧ ∀ r ∈ rs, r.acts = []

instance [DecidableEq A] (q q' : Nat) (bs : List UInt8) : Decidable (m.Silent q bs q') :=
  decidable_of_iff
    ((m.follow q bs).any (fun rs => lastState q rs == q' && rs.all (·.acts.isEmpty)) = true)
    (by simp [Silent, Option.any_eq_true])

theorem Silent.nil (q : Nat) : m.Silent q [] q := ⟨[], rfl, rfl, by simp⟩

theorem Silent.cons {q q' : Nat} {b : UInt8} {bs : List UInt8} {r : Rule A}
    (hrule : m.rule q b = some r) (hacts : r.acts = []) (h : m.Silent r.next bs q') :
    m.Silent q (b :: bs) q' := by
  obtain ⟨rs, hfollow, hlast, hrs⟩ := h
  refine ⟨r :: rs, by simp [follow, hrule, hfollow], hlast, ?_⟩
  intro r' hr'
  rcases List.mem_cons.mp hr' with rfl | hr'
  · exact hacts
  · exact hrs r' hr'

theorem events_of_silent {rs : List (Rule A)} (h : ∀ r ∈ rs, r.acts = []) (p : Nat) :
    events p rs = [] := by
  induction rs generalizing p with
  | nil => rfl
  | cons r rs ih =>
      rw [events, h r (by simp), ih fun r' hr' => h r' (by simp [hr'])]
      rfl

theorem length_of_follow {q : Nat} {bs : List UInt8} {rs : List (Rule A)}
    (h : m.follow q bs = some rs) : rs.length = bs.length := by
  induction bs generalizing q rs with
  | nil =>
      cases h
      rfl
  | cons b bs ih =>
      obtain ⟨r, rs', _, hrest, rfl⟩ := follow_cons h
      simp [ih hrest]

/-- A scan that goes on up to a byte which ends it is a walk. -/
theorem walk_of_follow {q : Nat} {bs : List UInt8} {b : UInt8} {rs : List (Rule A)} {r : Rule A}
    (h : m.follow q bs = some rs) (hends : ∀ r ∈ rs, m.ends r = false)
    (hrule : m.rule (lastState q rs) b = some r) (hr : m.ends r = true) :
    m.walk q (bs ++ [b]) = some (rs ++ [r]) := by
  induction bs generalizing q rs with
  | nil =>
      cases h
      simp only [lastState] at hrule
      simp [walk, hrule, hr]
  | cons b' bs ih =>
      obtain ⟨r', rs', hrule', hrest, rfl⟩ := follow_cons h
      have hgo : m.ends r' = false := hends r' (by simp)
      have hwalk := ih hrest (fun r hr => hends r (by simp [hr])) hrule
      simp [walk, hrule', hgo, hwalk]

/-- **A scan goes on** behind rules that do not end it. -/
theorem exec_append {q : Nat} {bs : List UInt8} {rs : List (Rule A)}
    (h : m.follow q bs = some rs) (hends : ∀ r ∈ rs, m.ends r = false) (rest : List UInt8)
    (p : Nat) (s : σ) :
    m.exec act q p s (bs ++ rest) =
      (perform act (events p rs) s).bind fun t =>
        m.exec act (lastState q rs) (p + bs.length) t rest := by
  induction bs generalizing q rs p s with
  | nil =>
      cases h
      rfl
  | cons b bs ih =>
      obtain ⟨r, rs', hrule, hrest, rfl⟩ := follow_cons h
      have hgo : m.ends r = false := hends r (by simp)
      have hp : p + 1 + bs.length = p + (b :: bs).length := by
        rw [List.length_cons]
        omega
      simp only [List.cons_append, exec, hrule, events, perform_append, hgo, Bool.false_eq_true,
        if_false, lastState]
      cases perform act (r.acts.map (p, ·)) s with
      | none => rfl
      | some t =>
          simp only [Option.bind_some]
          rw [ih hrest fun r hr => hends r (by simp [hr]), hp]

/-- A scan that no action ends takes every byte, unless it ends in the error state. -/
theorem follow_of_exec (hhalts : ∀ a, m.halts a = false) {q p q' p' : Nat} {s t : σ}
    {bs : List UInt8} (h : m.exec act q p s bs = some (q', p', t)) (hq : q' ≠ 0) :
    ∃ rs, m.follow q bs = some rs ∧ lastState q rs = q' ∧ p' = p + bs.length ∧
      perform act (events p rs) s = some t := by
  induction bs generalizing q p s with
  | nil =>
      cases h
      exact ⟨[], rfl, rfl, rfl, rfl⟩
  | cons b bs ih =>
      cases hrule : m.rule q b with
      | none =>
          simp only [exec, hrule, Option.some.injEq, Prod.mk.injEq] at h
          exact absurd h.1.symm hq
      | some r =>
          have hends : m.ends r = false := by simp [ends, hhalts]
          simp only [exec, hrule, hends, Bool.false_eq_true, if_false] at h
          obtain ⟨u, hu, hrest⟩ := Option.bind_eq_some_iff.mp h
          obtain ⟨rs, hfollow, hlast, hp, hperform⟩ := ih hrest
          refine ⟨r :: rs, by simp [follow, hrule, hfollow], hlast, ?_, ?_⟩
          · rw [hp, List.length_cons]
            omega
          · rw [events, perform_append, hu, Option.bind_some, hperform]

end Scanner
