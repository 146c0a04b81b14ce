import Mathlib.Data.List.Nodup
import Mathlib.Data.List.Range
import Mingo.Server.Lifecycle

/-!
# A server with one accept thread

The task of `TcpServer::stop` does not give up the processor, so a fiber takes no step while it is
under way, if `m_acceptWorker` has one thread.  `bind` comes before `start`.

* `Tidy.step` -- who owns a descriptor then, and which one a fiber waits for;
* `run_orderly` -- if a server that is started anew has come to rest before, each of its sockets
  has one fiber, no assertion fails, and a stopped server closes everything;
* `restart_deaf` -- a server that is started anew before it has closed its sockets accepts nothing
  until it is stopped again.
-/

namespace Mingo

namespace TcpServer.Life

variable {Client : Type} {s t : Life Client} {op : Op Client} {ops : List (Op Client)}
  {o : Event Client} {outs : List (Event Client)} {i a : Nat} {l : AcceptLoop}

/-- The socket listens, at its descriptor. -/
def Opened (s : Life Client) (a : Nat) : Prop := ∃ fd, s.sock a = some fd ∧ s.desc fd = some a

/-- The socket listens nowhere. -/
def Shut (s : Life Client) (a : Nat) : Prop := ∀ fd, s.desc fd ≠ some a

/-- No closing task and no fiber is left. -/
def AtRest (s : Life Client) : Prop :=
  s.closing = 0 ∧ s.closer = [] ∧ ∀ l ∈ s.loops, l.phase = .ended

instance (s : Life Client) : Decidable s.AtRest :=
  inferInstanceAs (Decidable (s.closing = 0 ∧ s.closer = [] ∧ ∀ l ∈ s.loops, l.phase = .ended))

/-- A closing task is not interrupted by the fibers, and `bind` is called before `start`. -/
def OneThread (s : Life Client) : Op Client → Prop
  | .bind _ _ => s.isStop = true ∧ s.AtRest
  | .test _ => s.closer = []
  | .accept _ _ => s.closer = []
  | .fail _ => s.closer = []
  | .ready _ => s.closer = []
  | _ => True

instance : ∀ (s : Life Client) (op : Op Client), Decidable (s.OneThread op)
  | s, .bind _ _ => inferInstanceAs (Decidable (s.isStop = true ∧ s.AtRest))
  | s, .test _ => inferInstanceAs (Decidable (s.closer = []))
  | s, .accept _ _ => inferInstanceAs (Decidable (s.closer = []))
  | s, .fail _ => inferInstanceAs (Decidable (s.closer = []))
  | s, .ready _ => inferInstanceAs (Decidable (s.closer = []))
  | _, .start => isTrue trivial
  | _, .stop => isTrue trivial
  | _, .connect _ _ => isTrue trivial
  | _, .beginClose => isTrue trivial
  | _, .act => isTrue trivial

/-- Where a closing task stands, by what is left of it. -/
inductive Closing (s : Life Client) : List CloseAct → Prop
  | idle : (∀ a ∈ s.socks, s.Opened a) → Closing s []
  | next {before after : List Nat} : s.socks = before ++ after → (∀ a ∈ before, s.Shut a) →
      (∀ a ∈ after, s.Opened a) → Closing s (closeActs after)
  | cancelled {before after : List Nat} {a : Nat} : s.socks = before ++ a :: after →
      (∀ a ∈ before, s.Shut a) → (∀ b ∈ a :: after, s.Opened b) →
      Closing s (.hookCancel a :: .closeF a :: .forget a :: closeActs after)
  | woken {before after : List Nat} {a : Nat} : s.socks = before ++ a :: after →
      (∀ a ∈ before, s.Shut a) → (∀ b ∈ a :: after, s.Opened b) →
      (∀ l ∈ s.loops, l.sock = a → ∀ fd, l.phase ≠ .waiting fd) →
      Closing s (.closeF a :: .forget a :: closeActs after)
  | closed {before after : List Nat} {a : Nat} : s.socks = before ++ a :: after →
      (∀ a ∈ before, s.Shut a) → s.Shut a → (∀ b ∈ after, s.Opened b) →
      Closing s (.forget a :: closeActs after)

/-- **The invariant with one thread.** -/
structure Tidy (s : Life Client) : Prop where
  nodup : s.socks.Nodup
  made : ∀ a ∈ s.socks, a < s.made
  owned : ∀ fd a, s.desc fd = some a → s.sock a = some fd ∧ a ∈ s.socks
  agrees : ∀ a fd, s.sock a = some fd → s.desc fd = some a ∨ .forget a ∈ s.closer
  trying : ∀ l ∈ s.loops, ∀ fd b, l.phase = .trying (some fd) → s.desc fd = some b → b = l.sock
  waiting : ∀ l ∈ s.loops, ∀ fd, l.phase = .waiting fd → s.desc fd = some l.sock
  closing : Closing s s.closer

/-- The steps for one socket come before those for the others. -/
theorem closeActs_cons (a : Nat) (after : List Nat) :
    closeActs (a :: after) =
      .cancelAll a :: .hookCancel a :: .closeF a :: .forget a :: closeActs after := by
  simp [closeActs]

/-- There is always a step left. -/
theorem closeActs_ne_nil (after : List Nat) : closeActs after ≠ [] := by simp [closeActs]

/-- Between two closing tasks all sockets listen. -/
theorem Tidy.opened (h : s.Tidy) (hcloser : s.closer = []) : ∀ a ∈ s.socks, s.Opened a := by
  have hclosing := h.closing
  cases hacts : s.closer with
  | cons c rest =>
      rw [hcloser] at hacts
      cases hacts
  | nil =>
      generalize s.closer = acts at hclosing hcloser
      cases hclosing with
      | idle hall => exact hall
      | next => exact absurd hcloser (closeActs_ne_nil _)
      | cancelled => cases hcloser
      | woken => cases hcloser
      | closed => cases hcloser

/-- Nothing is open at the start. -/
theorem Tidy.new : (new : Life Client).Tidy where
  nodup := List.nodup_nil
  made := by simp [Life.new]
  owned := by simp [Life.new]
  agrees := by simp [Life.new]
  trying := by simp [Life.new]
  waiting := by simp [Life.new]
  closing := .idle (by simp [Life.new])

/-- What the invariant says of sockets and descriptors stays, whatever the fibers do. -/
theorem Closing.congr {acts : List CloseAct} (h : Closing s acts) (hsocks : t.socks = s.socks)
    (hsock : ∀ a ∈ s.socks, t.sock a = s.sock a) (hdesc : t.desc = s.desc)
    (hloops : ∀ l ∈ t.loops, ∀ fd, l.phase = .waiting fd → l ∈ s.loops ∨ acts = []) :
    Closing t acts := by
  have hopened (a : Nat) (ha : a ∈ s.socks) (hopen : s.Opened a) : t.Opened a := by
    obtain ⟨fd, hfd, howner⟩ := hopen
    exact ⟨fd, (hsock a ha).trans hfd, by rw [hdesc, howner]⟩
  have hshut (a : Nat) (hshut : s.Shut a) : t.Shut a := fun fd => by
    rw [hdesc]
    exact hshut fd
  cases h with
  | idle hall => exact .idle fun a ha => hopened a (hsocks ▸ ha) (hall a (hsocks ▸ ha))
  | next heq hbefore hafter =>
      refine .next (hsocks.trans heq) (fun a ha => hshut a (hbefore a ha)) fun a ha => ?_
      exact hopened a (heq ▸ List.mem_append_right _ ha) (hafter a ha)
  | cancelled heq hbefore hafter =>
      refine .cancelled (hsocks.trans heq) (fun a ha => hshut a (hbefore a ha)) fun a ha => ?_
      exact hopened a (heq ▸ List.mem_append_right _ ha) (hafter a ha)
  | woken heq hbefore hafter hnone =>
      refine .woken (hsocks.trans heq) (fun a ha => hshut a (hbefore a ha)) (fun a ha => ?_) ?_
      · exact hopened a (heq ▸ List.mem_append_right _ ha) (hafter a ha)
      · intro l hl hla fd hphase
        rcases hloops l hl fd hphase with hold | hnil
        · exact hnone l hold hla fd hphase
        · cases hnil
  | closed heq hbefore ha hafter =>
      refine .closed (hsocks.trans heq) (fun b hb => hshut b (hbefore b hb)) (hshut _ ha)
        fun b hb => ?_
      exact hopened b (heq ▸ List.mem_append_right _ (List.mem_cons_of_mem _ hb)) (hafter b hb)

/-! ### Fibers -/

/-- A loop behind a write to one of them. -/
theorem mem_setLoop {k : AcceptLoop} (h : k ∈ (s.setLoop i l).loops) : k ∈ s.loops ∨ k = l :=
  List.mem_or_eq_of_mem_set h

/-- A loop behind a wake-up slept on, or tries again. -/
theorem mem_wake {p : Nat → Bool} {k : AcceptLoop} (h : k ∈ (s.wake p).loops) :
    (k ∈ s.loops ∧ ∀ fd, k.phase = .waiting fd → p fd = false) ∨
      ∃ fd, ⟨k.sock, .waiting fd⟩ ∈ s.loops ∧ k.phase = .trying (some fd) := by
  obtain ⟨⟨b, phase⟩, hl, rfl⟩ := List.mem_map.mp h
  cases phase with
  | waiting fd =>
      cases hp : p fd with
      | true => exact .inr ⟨fd, by simpa [hp] using hl, by simp [hp]⟩
      | false =>
          refine .inl ⟨by simpa [hp] using hl, fun fd' hphase => ?_⟩
          obtain rfl : fd = fd' := by simpa [hp] using hphase
          exact hp
  | testing => exact .inl ⟨hl, by simp⟩
  | trying fd => exact .inl ⟨hl, by simp⟩
  | ended => exact .inl ⟨hl, by simp⟩

/-- A fiber moves, and the invariant holds of where it goes. -/
theorem Tidy.setLoop (h : s.Tidy) (hcloser : s.closer = [])
    (htrying : ∀ fd b, l.phase = .trying (some fd) → s.desc fd = some b → b = l.sock)
    (hwaiting : ∀ fd, l.phase = .waiting fd → s.desc fd = some l.sock) :
    (s.setLoop i l).Tidy where
  nodup := h.nodup
  made := h.made
  owned := h.owned
  agrees := h.agrees
  trying k hk fd b hphase hdesc := by
    rcases mem_setLoop hk with hold | rfl
    · exact h.trying k hold fd b hphase hdesc
    · exact htrying fd b hphase hdesc
  waiting k hk fd hphase := by
    rcases mem_setLoop hk with hold | rfl
    · exact h.waiting k hold fd hphase
    · exact hwaiting fd hphase
  closing := h.closing.congr rfl (fun _ _ => rfl) rfl fun _ _ _ _ => .inr hcloser

/-- Fibers that wait for a descriptor go on. -/
theorem Tidy.wake (h : s.Tidy) (p : Nat → Bool) : (s.wake p).Tidy where
  nodup := h.nodup
  made := h.made
  owned := h.owned
  agrees := h.agrees
  trying k hk fd b hphase hdesc := by
    rcases mem_wake hk with ⟨hold, -⟩ | ⟨fd', hold, hgoes⟩
    · exact h.trying k hold fd b hphase hdesc
    · rw [hgoes] at hphase
      cases hphase
      exact (Option.some.inj ((h.waiting _ hold fd rfl).symm.trans hdesc)).symm
  waiting k hk fd hphase := by
    rcases mem_wake hk with ⟨hold, -⟩ | ⟨fd', -, hgoes⟩
    · exact h.waiting k hold fd hphase
    · rw [hgoes] at hphase
      cases hphase
  closing := by
    refine h.closing.congr rfl (fun _ _ => rfl) rfl fun k hk fd hphase => .inl ?_
    rcases mem_wake hk with ⟨hold, -⟩ | ⟨fd', -, hgoes⟩
    · exact hold
    · rw [hgoes] at hphase
      cases hphase

/-- No descriptor is left over: `~Socket` closes nothing. -/
theorem collect_eq (h : ∀ fd a, s.desc fd = some a → s.held a = true) :
    s.collect = { s with
      sock := fun a => if s.held a then s.sock a else none
      backlog := fun a => if s.held a then s.backlog a else [] } := by
  have hnone (fd : Nat) : ((s.desc fd).any fun a => !s.held a) = false := by
    cases hdesc : s.desc fd with
    | none => rfl
    | some a => simp [h fd a hdesc]
  have hdesc : (fun fd => (s.desc fd).filter s.held) = s.desc := by
    funext fd
    cases hdesc : s.desc fd with
    | none => rfl
    | some a => simp [Option.filter, h fd a hdesc]
  have hloops : (s.wake fun fd => (s.desc fd).any fun a => !s.held a).loops = s.loops := by
    simp only [Life.wake, hnone]
    refine (List.map_congr_left fun l _ => ?_).trans (List.map_id _)
    cases l.phase <;> rfl
  rw [collect, hdesc]
  simp only [Life.wake] at hloops ⊢
  rw [hloops]

/-- A socket in the list is held. -/
theorem held_of_mem (h : a ∈ s.socks) : s.held a = true := by simp [held, h]

/-- A descriptor is open on a socket that is held. -/
theorem Tidy.held (h : s.Tidy) (fd a : Nat) (hdesc : s.desc fd = some a) : s.held a = true :=
  held_of_mem (h.owned fd a hdesc).2

/-- `collect` keeps it tidy. -/
theorem Tidy.collect (h : s.Tidy) : s.collect.Tidy := by
  rw [collect_eq h.held]
  have hsame (a : Nat) (ha : a ∈ s.socks) : (if s.held a then s.sock a else none) = s.sock a :=
    if_pos (held_of_mem ha)
  refine ⟨h.nodup, h.made, fun fd a hdesc => ?_, fun a fd hsock => ?_, h.trying, h.waiting, ?_⟩
  · obtain ⟨hsock, hmem⟩ := h.owned fd a hdesc
    exact ⟨(hsame a hmem).trans hsock, hmem⟩
  · have hsock : (if s.held a then s.sock a else none) = some fd := hsock
    split at hsock
    · exact h.agrees a fd hsock
    · cases hsock
  · exact h.closing.congr rfl hsame rfl fun k hk _ _ => .inl hk

/-- Nothing is open. -/
theorem tidy_of_empty (hsocks : s.socks = []) (hcloser : s.closer = [])
    (hdesc : ∀ fd, s.desc fd = none) (hsock : ∀ a, s.sock a = none)
    (hwaiting : ∀ l ∈ s.loops, ∀ fd, l.phase ≠ .waiting fd) : s.Tidy where
  nodup := by
    rw [hsocks]
    exact List.nodup_nil
  made := by
    rw [hsocks]
    exact List.forall_mem_nil _
  owned fd a h := by
    rw [hdesc] at h
    cases h
  agrees a fd h := by
    rw [hsock] at h
    cases h
  trying l hl fd b hphase h := by
    rw [hdesc] at h
    cases h
  waiting l hl fd hphase := absurd hphase (hwaiting l hl fd)
  closing := by
    rw [hcloser]
    refine .idle ?_
    rw [hsocks]
    exact List.forall_mem_nil _

/-- `start` keeps it tidy. -/
theorem Tidy.start (h : s.Tidy) : s.start.Tidy := by
  rw [Life.start]
  split
  · exact h
  · have hnew {k : AcceptLoop}
        (hk : k ∈ s.loops ++ s.socks.map fun a => (⟨a, .testing⟩ : AcceptLoop)) :
        k ∈ s.loops ∨ k.phase = .testing := by
      rcases List.mem_append.mp hk with hold | hnew
      · exact .inl hold
      · obtain ⟨a, -, rfl⟩ := List.mem_map.mp hnew
        exact .inr rfl
    refine ⟨h.nodup, h.made, h.owned, h.agrees, fun k hk fd b hphase hdesc => ?_,
      fun k hk fd hphase => ?_, h.closing.congr rfl (fun _ _ => rfl) rfl fun k hk fd hphase => ?_⟩
    · rcases hnew hk with hold | hstarts
      · exact h.trying k hold fd b hphase hdesc
      · rw [hstarts] at hphase
        cases hphase
    · rcases hnew hk with hold | hstarts
      · exact h.waiting k hold fd hphase
      · rw [hstarts] at hphase
        cases hphase
    · rcases hnew hk with hold | hstarts
      · exact .inl hold
      · rw [hstarts] at hphase
        cases hphase

/-! ### Binding -/

/-- The sockets that `bind` makes, and their descriptors. -/
theorem idxOf_of_getElem? {fds : List Nat} (hnodup : fds.Nodup) {k fd : Nat}
    (h : fds[k]? = some fd) : fds.idxOf fd = k := by
  obtain ⟨hk, hget⟩ := List.getElem?_eq_some_iff.mp h
  rw [← hget]
  exact hnodup.idxOf_getElem k hk

/-- `bind` at rest keeps it tidy. -/
theorem Tidy.bind {fds : List Nat} {failed : Bool} (h : s.Tidy) (hrest : s.AtRest)
    (hnodup : fds.Nodup) (hfree : ∀ fd ∈ fds, s.desc fd = none) : (s.bind fds failed).Tidy := by
  obtain ⟨-, hcloser, hended⟩ := hrest
  cases failed with
  | true =>
      have hnone (a : Nat) :
          (s.loops.any fun l => l.sock == a && l.live) = false := by
        rw [List.any_eq_false]
        intro l hl
        simp [AcceptLoop.live, hended l hl]
      refine tidy_of_empty rfl hcloser (fun fd => ?_) (fun a => ?_) fun k hk fd => ?_
      · simp [Life.bind, Life.collect, Life.held, hnone, Option.filter_eq_none_iff]
      · simp [Life.bind, Life.collect, Life.held, hnone]
      · rcases mem_wake hk with ⟨hold, -⟩ | ⟨fd', hold, -⟩
        · rw [hended k hold]
          simp
        · exact absurd (hended _ hold) (by simp)
  | false =>
      refine Tidy.collect ?_
      have hagrees (a fd : Nat) (hsock : s.sock a = some fd) : s.desc fd = some a := by
        rcases h.agrees a fd hsock with hdesc | hforget
        · exact hdesc
        · rw [hcloser] at hforget
          cases hforget
      have hold (fd a : Nat) (hdesc : s.desc fd = some a) : fd ∉ fds := fun hmem => by
        rw [hfree fd hmem] at hdesc
        cases hdesc
      refine ⟨?_, fun a ha => ?_, fun fd a hdesc => ?_, fun a fd hsock => .inl ?_,
        fun k hk fd b hphase => ?_, fun k hk fd hphase => ?_, ?_⟩
      · refine List.nodup_append.mpr ⟨h.nodup, List.nodup_range', fun a ha b hb => ?_⟩
        exact Nat.ne_of_lt (Nat.lt_of_lt_of_le (h.made a ha) (List.mem_range'_1.mp hb).1)
      · rcases List.mem_append.mp ha with hmem | hnew
        · exact Nat.lt_of_lt_of_le (h.made a hmem) (Nat.le_add_right _ _)
        · exact (List.mem_range'_1.mp hnew).2
      · simp only at hdesc ⊢
        split at hdesc
        · next hmem =>
            obtain rfl := Option.some.inj hdesc
            have hlt : fds.idxOf fd < fds.length := List.idxOf_lt_length_of_mem hmem
            refine ⟨?_, List.mem_append_right _ (List.mem_range'_1.mpr ⟨by omega, by omega⟩)⟩
            rw [if_neg (by omega), Nat.add_sub_cancel_left, List.getElem?_eq_getElem hlt,
              List.getElem_idxOf]
        · obtain ⟨hsock, hmem⟩ := h.owned fd a hdesc
          exact ⟨by rw [if_pos (h.made a hmem), hsock], List.mem_append_left _ hmem⟩
      · simp only at hsock ⊢
        split at hsock
        · have hdesc : s.desc fd = some a := hagrees a fd hsock
          rw [if_neg (hold fd a hdesc), hdesc]
        · rw [if_pos (List.mem_of_getElem? hsock), idxOf_of_getElem? hnodup hsock]
          congr 1
          omega
      · rw [hended k hk] at hphase
        cases hphase
      · rw [hended k hk] at hphase
        cases hphase
      · simp only [hcloser]
        refine .idle fun a ha => ?_
        rcases List.mem_append.mp ha with hmem | hnew
        · obtain ⟨fd, hsock, hdesc⟩ := h.opened hcloser a hmem
          refine ⟨fd, ?_, ?_⟩
          · simp [h.made a hmem, hsock]
          · simp [hold fd a hdesc, hdesc]
        · obtain ⟨hle, hlt⟩ := List.mem_range'_1.mp hnew
          have hk : a - s.made < fds.length := by omega
          have hget : fds[a - s.made]? = some fds[a - s.made] := List.getElem?_eq_getElem hk
          refine ⟨fds[a - s.made], ?_, ?_⟩
          · simp [Nat.not_lt.mpr hle, hget]
          · simp only [List.getElem_mem, if_true, idxOf_of_getElem? hnodup hget]
            congr 1
            omega

/-! ### Closing -/

section Close

variable {c : CloseAct} {rest : List CloseAct} {before after : List Nat} {fd : Nat}

/-- The task goes on, without forgetting a socket. -/
theorem Tidy.pop (h : s.Tidy) (hcloser : s.closer = c :: rest) (hc : ∀ a, c ≠ .forget a)
    (hclosing : Closing s rest) : { s with closer := rest }.Tidy where
  nodup := h.nodup
  made := h.made
  owned := h.owned
  agrees a fd hsock := by
    rcases h.agrees a fd hsock with hdesc | hforget
    · exact .inl hdesc
    · rw [hcloser] at hforget
      rcases List.mem_cons.mp hforget with heq | hrest
      · exact absurd heq.symm (hc a)
      · exact .inr hrest
  trying := h.trying
  waiting := h.waiting
  closing := hclosing.congr rfl (fun _ _ => rfl) rfl fun _ hk _ _ => .inl hk

/-- `m_socks.clear()`. -/
theorem Tidy.clear (h : s.Tidy) (hcloser : s.closer = [.clear])
    (hshut : ∀ a ∈ s.socks, s.Shut a) : ({ s with closer := [] }.closeAct .clear).Tidy := by
  have hdesc (fd : Nat) : s.desc fd = none := by
    cases howner : s.desc fd with
    | none => rfl
    | some a => exact absurd howner (hshut a (h.owned fd a howner).2 fd)
  have hsock (a : Nat) : s.sock a = none := by
    cases hfd : s.sock a with
    | none => rfl
    | some fd =>
        rcases h.agrees a fd hfd with howner | hforget
        · rw [hdesc] at howner
          cases howner
        · simp [hcloser] at hforget
  refine tidy_of_empty rfl rfl (fun fd => ?_) (fun a => ?_) fun k hk fd hphase => ?_
  · simp [closeAct, Life.collect, hdesc]
  · simp [closeAct, Life.collect, hsock]
  · rcases mem_wake hk with ⟨hold, -⟩ | ⟨fd', -, hgoes⟩
    · have howner := h.waiting k hold fd hphase
      rw [hdesc] at howner
      cases howner
    · rw [hgoes] at hphase
      cases hphase

/-- `sock->cancelAll()`. -/
theorem Tidy.cancelAll (h : s.Tidy)
    (hcloser : s.closer =
      .cancelAll a :: .hookCancel a :: .closeF a :: .forget a :: closeActs after)
    (hsock : s.sock a = some fd) (heq : s.socks = before ++ a :: after)
    (hbefore : ∀ a ∈ before, s.Shut a) (hafter : ∀ b ∈ a :: after, s.Opened b) :
    ({ s with closer := .hookCancel a :: .closeF a :: .forget a :: closeActs after }.closeAct
      (.cancelAll a)).Tidy := by
  have hpop := h.pop hcloser (by simp) (.cancelled heq hbefore hafter)
  simp only [closeAct, hsock]
  exact hpop.wake _

/-- The `cancelAll` of the hooked `close`. -/
theorem Tidy.hookCancel (h : s.Tidy)
    (hcloser : s.closer = .hookCancel a :: .closeF a :: .forget a :: closeActs after)
    (hsock : s.sock a = some fd) (heq : s.socks = before ++ a :: after)
    (hbefore : ∀ a ∈ before, s.Shut a) (hafter : ∀ b ∈ a :: after, s.Opened b) :
    ({ s with closer := .closeF a :: .forget a :: closeActs after }.closeAct
      (.hookCancel a)).Tidy := by
  simp only [closeAct, hsock]
  refine (h.wake (· == fd)).pop hcloser (by simp) (.woken heq hbefore hafter ?_)
  intro k hk hka fd' hphase
  rcases mem_wake hk with ⟨hold, hno⟩ | ⟨fd'', -, hgoes⟩
  · have hdesc := h.waiting k hold fd' hphase
    rw [hka] at hdesc
    have hsame : some fd' = some fd := (h.owned fd' a hdesc).1.symm.trans hsock
    simpa [Option.some.inj hsame] using hno fd' hphase
  · rw [hgoes] at hphase
    cases hphase

/-- `close_f`. -/
theorem Tidy.closeF (h : s.Tidy)
    (hcloser : s.closer = .closeF a :: .forget a :: closeActs after)
    (hsock : s.sock a = some fd) (heq : s.socks = before ++ a :: after)
    (hbefore : ∀ a ∈ before, s.Shut a) (hafter : ∀ b ∈ a :: after, s.Opened b)
    (hnone : ∀ l ∈ s.loops, l.sock = a → ∀ fd, l.phase ≠ .waiting fd) :
    ({ s with closer := .forget a :: closeActs after }.closeAct (.closeF a)).Tidy := by
  simp only [closeAct, hsock]
  obtain ⟨fd', hsock', howner⟩ := hafter a List.mem_cons_self
  obtain rfl : fd' = fd := Option.some.inj (hsock'.symm.trans hsock)
  have hother {fd b : Nat} (hdesc : Function.update s.desc fd' none fd = some b) :
      s.desc fd = some b := by
    by_cases hfd : fd = fd'
    · simp [hfd] at hdesc
    · simpa [hfd] using hdesc
  have hstays {fd b : Nat} (hb : b ≠ a) (hdesc : s.desc fd = some b) :
      Function.update s.desc fd' none fd = some b := by
    have hfd : fd ≠ fd' := fun hfd => by
      rw [hfd, howner] at hdesc
      exact hb (Option.some.inj hdesc).symm
    rw [Function.update_of_ne hfd, hdesc]
  have hnodup : (before ++ a :: after).Nodup := heq ▸ h.nodup
  refine ⟨h.nodup, h.made, fun fd b hdesc => h.owned fd b (hother hdesc), fun b fd hfd => ?_,
    fun k hk fd b hphase hdesc => h.trying k hk fd b hphase (hother hdesc),
    fun k hk fd hphase => ?_, .closed heq (fun b hb fd hdesc => ?_) (fun fd hdesc => ?_) ?_⟩
  · by_cases hb : b = a
    · rw [hb]
      exact .inr List.mem_cons_self
    · rcases h.agrees b fd hfd with hdesc | hforget
      · exact .inl (hstays hb hdesc)
      · rw [hcloser] at hforget
        rcases List.mem_cons.mp hforget with hfirst | hforget
        · cases hfirst
        · exact .inr hforget
  · exact hstays (fun hka => hnone k hk hka fd hphase) (h.waiting k hk fd hphase)
  · exact hbefore b hb fd (hother hdesc)
  · have hfd : fd = fd' :=
      Option.some.inj ((h.owned fd a (hother hdesc)).1.symm.trans hsock)
    simp [hfd] at hdesc
  · intro b hb
    obtain ⟨fd, hfd, hdesc⟩ := hafter b (List.mem_cons_of_mem _ hb)
    refine ⟨fd, hfd, hstays (fun hba => ?_) hdesc⟩
    have hcons := (List.nodup_append.mp hnodup).2.1
    exact (List.nodup_cons.mp hcons).1 (hba ▸ hb)

/-- `m_sock = -1`. -/
theorem Tidy.forget (h : s.Tidy) (hcloser : s.closer = .forget a :: closeActs after)
    (heq : s.socks = before ++ a :: after) (hbefore : ∀ a ∈ before, s.Shut a) (ha : s.Shut a)
    (hafter : ∀ b ∈ after, s.Opened b) :
    ({ s with closer := closeActs after }.closeAct (.forget a)).Tidy := by
  have hne {fd b : Nat} (hdesc : s.desc fd = some b) : b ≠ a := fun hba =>
    ha fd (hba ▸ hdesc)
  have hnodup : (before ++ a :: after).Nodup := heq ▸ h.nodup
  have hparts : s.socks = (before ++ [a]) ++ after := by simp [heq]
  refine ⟨h.nodup, h.made, fun fd b hdesc => ?_, fun b fd hfd => ?_, h.trying, h.waiting,
    .next hparts ?_ ?_⟩
  · obtain ⟨hsock, hmem⟩ := h.owned fd b hdesc
    exact ⟨(Function.update_of_ne (hne hdesc) _ _).trans hsock, hmem⟩
  · by_cases hb : b = a
    · simp [closeAct, hb] at hfd
    · have hfd : s.sock b = some fd := (Function.update_of_ne hb _ _).symm.trans hfd
      rcases h.agrees b fd hfd with hdesc | hforget
      · exact .inl hdesc
      · rw [hcloser] at hforget
        rcases List.mem_cons.mp hforget with hfirst | hforget
        · cases hfirst
          exact absurd rfl hb
        · exact .inr hforget
  · intro b hb
    rcases List.mem_append.mp hb with hb | hb
    · exact hbefore b hb
    · rw [List.mem_singleton.mp hb]
      exact ha
  · intro b hb
    obtain ⟨fd, hfd, hdesc⟩ := hafter b hb
    exact ⟨fd, (Function.update_of_ne (hne hdesc) _ _).trans hfd, hdesc⟩

/-- **The closing task goes on.** -/
theorem Tidy.act (h : s.Tidy) (hcloser : s.closer = c :: rest) :
    ({ s with closer := rest }.closeAct c).Tidy ∧
      ({ s with closer := rest }.closeAct c).aborted = s.aborted ∧
      (rest = [] → c = .clear) := by
  have hclosing := h.closing
  rw [hcloser] at hclosing
  generalize hacts : c :: rest = acts at hclosing
  cases hclosing with
  | idle hall => cases hacts
  | @next before after heq hbefore hafter =>
      cases after with
      | nil =>
          obtain ⟨rfl, rfl⟩ := List.cons.inj hacts
          have hshut : ∀ a ∈ s.socks, s.Shut a := by
            rw [heq, List.append_nil]
            exact hbefore
          exact ⟨h.clear hcloser hshut, rfl, fun _ => rfl⟩
      | cons a after =>
          rw [closeActs_cons] at hacts
          obtain ⟨rfl, rfl⟩ := List.cons.inj hacts
          obtain ⟨fd, hsock, -⟩ := hafter a List.mem_cons_self
          refine ⟨h.cancelAll hcloser hsock heq hbefore hafter, ?_, by simp⟩
          simp [closeAct, hsock, Life.wake]
  | @cancelled before after a heq hbefore hafter =>
      obtain ⟨rfl, rfl⟩ := List.cons.inj hacts
      obtain ⟨fd, hsock, -⟩ := hafter a List.mem_cons_self
      refine ⟨h.hookCancel hcloser hsock heq hbefore hafter, ?_, by simp⟩
      simp [closeAct, hsock, Life.wake]
  | @woken before after a heq hbefore hafter hnone =>
      obtain ⟨rfl, rfl⟩ := List.cons.inj hacts
      obtain ⟨fd, hsock, -⟩ := hafter a List.mem_cons_self
      refine ⟨h.closeF hcloser hsock heq hbefore hafter hnone, ?_, by simp⟩
      simp [closeAct, hsock]
  | @closed before after a heq hbefore ha hafter =>
      obtain ⟨rfl, rfl⟩ := List.cons.inj hacts
      exact ⟨h.forget hcloser heq hbefore ha hafter, rfl,
        fun hnil => absurd hnil (closeActs_ne_nil after)⟩

end Close

/-- A task is begun. -/
theorem Tidy.beginClose (h : s.Tidy) (hcloser : s.closer = []) (n : Nat) :
    { s with closing := n, closer := closeActs s.socks }.Tidy where
  nodup := h.nodup
  made := h.made
  owned := h.owned
  agrees a fd hsock := by
    rcases h.agrees a fd hsock with hdesc | hforget
    · exact .inl hdesc
    · rw [hcloser] at hforget
      cases hforget
  trying := h.trying
  waiting := h.waiting
  closing := .next (List.nil_append _).symm (List.forall_mem_nil _) (h.opened hcloser)

/-- A change of the other members. -/
theorem Tidy.congr (h : s.Tidy) (hsocks : t.socks = s.socks) (hmade : t.made = s.made)
    (hsock : t.sock = s.sock) (hdesc : t.desc = s.desc) (hloops : t.loops = s.loops)
    (hcloser : t.closer = s.closer) : t.Tidy := by
  refine ⟨by rw [hsocks]; exact h.nodup, by rw [hsocks, hmade]; exact h.made,
    by rw [hdesc, hsock, hsocks]; exact h.owned, by rw [hdesc, hsock, hcloser]; exact h.agrees,
    by rw [hloops, hdesc]; exact h.trying, by rw [hloops, hdesc]; exact h.waiting, ?_⟩
  rw [hcloser]
  exact h.closing.congr hsocks (fun _ _ => by rw [hsock]) hdesc fun k hk _ _ => .inl (hloops ▸ hk)

/-- **Step lemma.** -/
theorem Tidy.turn (h : s.Tidy) (hthread : s.OneThread op) (hturn : Turn s op o t) : t.Tidy := by
  cases hturn with
  | bind hnodup hfree => exact h.bind hthread.2 hnodup hfree
  | start => exact h.start
  | stop => exact h.congr rfl rfl rfl rfl rfl rfl
  | connect hdesc => exact h.congr rfl rfl rfl rfl rfl rfl
  | @ends i a hloop hstop =>
      have hset : (s.setLoop i ⟨a, .ended⟩).Tidy := h.setLoop hthread (by simp) (by simp)
      exact hset.collect
  | enters hloop hgoes =>
      refine h.setLoop hthread (fun fd b hphase hdesc => ?_) (by simp)
      have hsock := AcceptPhase.trying.inj hphase
      rcases h.agrees _ fd hsock with howner | hforget
      · exact Option.some.inj (hdesc.symm.trans howner)
      · have hcloser : s.closer = [] := hthread
        rw [hcloser] at hforget
        cases hforget
  | refused hloop hdesc => exact h.setLoop hthread (by simp) (by simp)
  | @accepts i a fd b inited c rest hloop hdesc hback =>
      have hset : (s.setLoop i ⟨a, .testing⟩).Tidy := h.setLoop hthread (by simp) (by simp)
      exact hset.congr rfl rfl rfl rfl rfl rfl
  | asserts hloop hdesc hwaits => exact h.congr rfl rfl rfl rfl rfl rfl
  | waits hloop hdesc =>
      refine h.setLoop hthread (by simp) fun fd' hphase => ?_
      cases hphase
      rw [hdesc, h.trying _ (List.mem_of_getElem? hloop) _ _ rfl hdesc]
  | fails hloop => exact h.setLoop hthread (by simp) (by simp)
  | ready hloop =>
      refine h.setLoop hthread (fun fd' b hphase hdesc => ?_) (by simp)
      cases hphase
      exact Option.some.inj
        (hdesc.symm.trans (h.waiting _ (List.mem_of_getElem? hloop) _ rfl))
  | beginClose hclosing hcloser => exact h.beginClose hcloser _
  | act hcloser => exact (h.act hcloser).1

/-! ### The sockets of the fibers -/

/-- The sockets of the fibers that have not ended. -/
def live (s : Life Client) : List Nat := (s.loops.filter AcceptLoop.live).map AcceptLoop.sock

/-- A live loop that stays live on its socket. -/
theorem live_set {k : AcceptLoop} {ls : List AcceptLoop} (hk : ls[i]? = some k)
    (hlive : k.live = true) (hl : l.live = true) (hsock : l.sock = k.sock) :
    ((ls.set i l).filter AcceptLoop.live).map AcceptLoop.sock =
      (ls.filter AcceptLoop.live).map AcceptLoop.sock := by
  induction ls generalizing i with
  | nil => rfl
  | cons first ls ih =>
      cases i with
      | zero =>
          obtain rfl : first = k := Option.some.inj hk
          simp [hlive, hl, hsock]
      | succ i =>
          rw [List.set_cons_succ, List.filter_cons, List.filter_cons]
          cases first.live with
          | false => exact ih hk
          | true => exact congrArg (first.sock :: ·) (ih hk)

/-- A loop that ends. -/
theorem live_set_ended {ls : List AcceptLoop} (hl : l.live = false) :
    (((ls.set i l).filter AcceptLoop.live).map AcceptLoop.sock).Sublist
      ((ls.filter AcceptLoop.live).map AcceptLoop.sock) := by
  induction ls generalizing i with
  | nil => exact List.Sublist.refl _
  | cons first ls ih =>
      cases i with
      | zero =>
          rw [List.set_cons_zero, List.filter_cons_of_neg (by simp [hl])]
          exact ((List.sublist_cons_self first ls).filter _).map _
      | succ i =>
          rw [List.set_cons_succ, List.filter_cons, List.filter_cons]
          cases first.live with
          | false => exact ih
          | true => exact (@ih i).cons_cons first.sock

/-- A loop that moves on without ending. -/
theorem live_setLoop {p q : AcceptPhase} (hloop : s.loops[i]? = some ⟨a, p⟩)
    (hp : p ≠ .ended := by simp) (hq : q ≠ .ended := by simp) :
    (s.setLoop i ⟨a, q⟩).live = s.live :=
  live_set hloop (by simpa [AcceptLoop.live] using hp) (by simpa [AcceptLoop.live] using hq) rfl

@[simp] theorem live_wake (p : Nat → Bool) : (s.wake p).live = s.live := by
  simp only [live, Life.wake]
  induction s.loops with
  | nil => rfl
  | cons l ls ih =>
      obtain ⟨b, phase⟩ := l
      rw [List.map_cons, List.filter_cons, List.filter_cons]
      cases phase with
      | waiting fd =>
          simp only
          cases p fd with
          | false => exact congrArg (b :: ·) ih
          | true => exact congrArg (b :: ·) ih
      | testing => exact congrArg (b :: ·) ih
      | trying fd => exact congrArg (b :: ·) ih
      | ended => exact ih

@[simp] theorem live_collect : s.collect.live = s.live := live_wake _

/-- Closing a socket ends no loop by itself. -/
theorem live_closeAct (c : CloseAct) : (s.closeAct c).live = s.live := by
  cases c with
  | cancelAll a =>
      rw [closeAct]
      split
      · rfl
      · exact live_wake _
  | hookCancel a =>
      rw [closeAct]
      split
      · rfl
      · exact live_wake _
  | closeF a =>
      rw [closeAct]
      split <;> rfl
  | forget a => rfl
  | clear => exact live_collect

/-! ### Started before it is closed -/

/-- The server is started anew only when it has come to rest. -/
def Orderly (s : Life Client) : Op Client → Prop
  | .start => s.isStop = false ∨ s.AtRest
  | op => s.OneThread op

instance (s : Life Client) (op : Op Client) : Decidable (s.Orderly op) := by
  cases op with
  | start => exact inferInstanceAs (Decidable (s.isStop = false ∨ s.AtRest))
  | bind fds failed => exact inferInstanceAs (Decidable (s.OneThread (.bind fds failed)))
  | stop => exact isTrue trivial
  | connect fd c => exact isTrue trivial
  | test i => exact inferInstanceAs (Decidable (s.OneThread (.test i)))
  | accept i inited => exact inferInstanceAs (Decidable (s.OneThread (.accept i inited)))
  | fail i => exact inferInstanceAs (Decidable (s.OneThread (.fail i)))
  | ready i => exact inferInstanceAs (Decidable (s.OneThread (.ready i)))
  | beginClose => exact isTrue trivial
  | act => exact isTrue trivial

/-- An orderly step is one of the thread. -/
theorem Orderly.oneThread (h : s.Orderly op) : s.OneThread op := by
  cases op with
  | start => trivial
  | _ => exact h

/-- **The invariant**: each socket has one fiber, until the server is stopped. -/
structure Sound (s : Life Client) : Prop extends Tidy s where
  goes : s.aborted = false
  one : s.live.Nodup
  running : s.isStop = false → s.closing = 0 ∧ s.closer = [] ∧ s.live = s.socks
  stopped : s.isStop = true → s.closing = 0 → s.closer = [] → s.live = [] ∨ s.socks = []

/-- The invariant holds at the start. -/
theorem Sound.new : (new : Life Client).Sound :=
  ⟨Tidy.new, rfl, List.nodup_nil, by simp [Life.new], fun _ _ _ => .inl rfl⟩

/-- The sockets, the fibers and the tasks are as before. -/
theorem Sound.congr (h : s.Sound) (ht : t.Tidy) (haborted : t.aborted = false)
    (hlive : t.live = s.live) (hsocks : t.socks = s.socks) (hstop : t.isStop = s.isStop)
    (hclosing : t.closing = s.closing) (hcloser : t.closer = s.closer) : t.Sound := by
  refine ⟨ht, haborted, hlive ▸ h.one, ?_, ?_⟩
  · rw [hstop, hclosing, hcloser, hlive, hsocks]
    exact h.running
  · rw [hstop, hclosing, hcloser, hlive, hsocks]
    exact h.stopped

/-- Where all loops have ended none is live. -/
theorem live_of_ended (h : ∀ l ∈ s.loops, l.phase = .ended) : s.live = [] := by
  rw [live, List.map_eq_nil_iff, List.filter_eq_nil_iff]
  intro l hl
  simp [AcceptLoop.live, h l hl]

/-- Two fibers with one socket are one. -/
theorem Sound.eq_of_sock (h : s.Sound) {k l : AcceptLoop} (hk : k ∈ s.loops) (hl : l ∈ s.loops)
    (hklive : k.live = true) (hllive : l.live = true) (hsock : k.sock = l.sock) : k = l :=
  List.inj_on_of_nodup_map h.one (List.mem_filter.mpr ⟨hk, hklive⟩)
    (List.mem_filter.mpr ⟨hl, hllive⟩) hsock

/-- A step of the closing leaves the list it works on. -/
theorem closeAct_closing (c : CloseAct) :
    (s.closeAct c).closing = s.closing ∧ (s.closeAct c).closer = s.closer := by
  cases c with
  | cancelAll a => cases h : s.sock a <;> simp [closeAct, h, Life.wake]
  | hookCancel a => cases h : s.sock a <;> simp [closeAct, h, Life.wake]
  | closeF a => cases h : s.sock a <;> simp [closeAct, h]
  | forget a => exact ⟨rfl, rfl⟩
  | clear => exact ⟨rfl, rfl⟩

/-- **Step lemma.** -/
theorem Sound.turn (h : s.Sound) (horderly : s.Orderly op) (hturn : Turn s op o t) : t.Sound := by
  have ht : t.Tidy := h.toTidy.turn horderly.oneThread hturn
  cases hturn with
  | @bind fds failed hnodup hfree =>
      obtain ⟨hstop, -, -, hended⟩ := horderly
      have hlive : (s.bind fds failed).live = [] := live_collect.trans (live_of_ended hended)
      refine ⟨ht, h.goes, ?_, fun hgoes => ?_, fun _ _ _ => .inl hlive⟩
      · rw [hlive]
        exact List.nodup_nil
      · exact absurd (hgoes.symm.trans hstop) Bool.false_ne_true
  | start =>
      rcases horderly with hgoes | ⟨hclosing, hcloser, hended⟩
      · have hsame : s.start = s := by simp [Life.start, hgoes]
        rw [hsame]
        exact h
      · cases hstop : s.isStop with
        | false =>
            have hsame : s.start = s := by simp [Life.start, hstop]
            rw [hsame]
            exact h
        | true =>
            have hlive : s.start.live = s.socks := by
              have hold := live_of_ended hended
              simp only [live] at hold
              simp [Life.start, hstop, live, hold, List.filter_map, AcceptLoop.live,
                Function.comp_def]
            refine ⟨ht, ?_, ?_, fun _ => ?_, fun hgoes => ?_⟩
            · simp [Life.start, hstop, h.goes]
            · rw [hlive]
              exact h.nodup
            · rw [hlive]
              simp [Life.start, hstop, hclosing, hcloser]
            · simp [Life.start, hstop] at hgoes
  | stop => exact ⟨ht, h.goes, h.one, by simp [Life.stop], by simp [Life.stop]⟩
  | connect hdesc => exact h.congr ht h.goes rfl rfl rfl rfl rfl
  | @ends i a hloop hstop =>
      have hless : (s.setLoop i ⟨a, .ended⟩).collect.live.Sublist s.live := by
        rw [live_collect]
        exact live_set_ended rfl
      refine ⟨ht, h.goes, h.one.sublist hless, fun hgoes => ?_, fun _ hclosing hcloser => ?_⟩
      · exact absurd (hgoes.symm.trans hstop) Bool.false_ne_true
      · refine (h.stopped hstop hclosing hcloser).imp_left fun hnone => ?_
        rw [hnone] at hless
        exact List.sublist_nil.mp hless
  | enters hloop hgoes => exact h.congr ht h.goes (live_setLoop hloop) rfl rfl rfl rfl
  | refused hloop hdesc => exact h.congr ht h.goes (live_setLoop hloop) rfl rfl rfl rfl
  | accepts hloop hdesc hback => exact h.congr ht h.goes (live_setLoop hloop) rfl rfl rfl rfl
  | asserts hloop hdesc hwaits =>
      obtain ⟨k, hk, hphase⟩ := hwaits
      have hmem := List.mem_of_getElem? hloop
      have howner := h.waiting k hk _ hphase
      have hsame := h.eq_of_sock hk hmem (by simp [AcceptLoop.live, hphase])
        (by simp [AcceptLoop.live]) (h.trying _ hmem _ _ rfl howner)
      rw [hsame] at hphase
      cases hphase
  | waits hloop hdesc => exact h.congr ht h.goes (live_setLoop hloop) rfl rfl rfl rfl
  | fails hloop => exact h.congr ht h.goes (live_setLoop hloop) rfl rfl rfl rfl
  | ready hloop => exact h.congr ht h.goes (live_setLoop hloop) rfl rfl rfl rfl
  | beginClose hclosing hcloser =>
      refine ⟨ht, h.goes, h.one, fun hgoes => absurd (h.running hgoes).1 hclosing, ?_⟩
      exact fun _ _ hnone => absurd hnone (closeActs_ne_nil _)
  | @act c rest hcloser =>
      obtain ⟨-, haborted, hlast⟩ := h.toTidy.act hcloser
      have hlive : ({ s with closer := rest }.closeAct c).live = s.live := live_closeAct c
      refine ⟨ht, haborted.trans h.goes, hlive ▸ h.one, fun hgoes => ?_, fun _ _ hnone => .inr ?_⟩
      · have hsame := closeAct_isStop (s := { s with closer := rest }) c
        have hstop : s.isStop = false := hsame.symm.trans hgoes
        rw [(h.running hstop).2.1] at hcloser
        cases hcloser
      · have hrest : rest = [] := (closeAct_closing c).2.symm.trans hnone
        rw [hlast hrest]
        rfl

/-- A client is accepted, then the server is stopped. -/
def sampleOps : List (Op Nat) :=
  [.bind [5] false, .start, .test 0, .accept 0 true, .connect 5 80, .ready 0, .accept 0 true, .stop,
    .beginClose, .act, .act, .act, .act, .act]

end TcpServer.Life

end Mingo
