import Mingo.Uri.Parts

/-!
# What the actions do on a text

The scan of an accepted text is cut at the delimiters of its parts.  Inside a part only its
first byte has an action, which sets the mark; what has to be saved is saved at the delimiter
or at the end.  Each lemma below takes the scan over one part, `Runs` for a part with more
text behind it and `Finishes` for the rest of the text.
-/

namespace Mingo.Uri

open Grammar (Derives)
open Grammar.Expr (ref)
open Scanner (Rule events inClass inRanges lastState perform)
open Parsing (act)
open UriTable (eofActions)

variable {buf pre post rest v w : List UInt8} {q q' p p' : Nat} {s s' t : Parsing}

/-- From state `q` at position `p` the bytes `w` lead to `q'`, and their actions turn `s` into
`s'`. -/
def Runs (buf : List UInt8) (q p : Nat) (s : Parsing) (w : List UInt8) (q' : Nat)
    (s' : Parsing) : Prop :=
  ∃ rs, scanner.follow q w = some rs ∧ lastState q rs = q' ∧
    perform (act buf) (events p rs) s = some s'

/-- From state `q` at position `p` the text ends with `w`, in a final state, and all actions
that are left turn `s` into `o`. -/
def Finishes (buf : List UInt8) (q p : Nat) (s : Parsing) (w : List UInt8)
    (o : Option Parsing) : Prop :=
  ∃ rs, scanner.follow q w = some rs ∧ isFinal (lastState q rs) = true ∧
    perform (act buf) (events p rs ++ (eofActions (lastState q rs)).map (p + w.length, ·)) s = o

/-- The rest of the text is accepted. -/
abbrev Accepts (q : Nat) (w : List UInt8) : Prop := scanner.Accepts isFinal q w

/-- A scan without actions leaves `s` as it is. -/
theorem Runs.of_silent (h : scanner.Silent q w q') : Runs buf q p s w q' s := by
  obtain ⟨rs, hfollow, hlast, hacts⟩ := h
  exact ⟨rs, hfollow, hlast, by rw [Scanner.events_of_silent hacts]; rfl⟩

/-- One run behind the other. -/
theorem Runs.append (h : Runs buf q p s w q' s') {q'' : Nat} {s'' : Parsing}
    (h' : Runs buf q' (p + w.length) s' v q'' s'') : Runs buf q p s (w ++ v) q'' s'' := by
  obtain ⟨rs, hfollow, rfl, hperform⟩ := h
  obtain ⟨rs', hfollow', rfl, hperform'⟩ := h'
  refine ⟨rs ++ rs', ?_, Scanner.lastState_append q rs rs', ?_⟩
  · rw [Scanner.follow_append_eq hfollow, hfollow']
    rfl
  · rw [Scanner.events_append, Scanner.perform_append, hperform, Option.bind_some,
      Scanner.length_of_follow hfollow, hperform']

/-- A run, and then the end of the text. -/
theorem Runs.finishes (h : Runs buf q p s w q' s') {o : Option Parsing}
    (h' : Finishes buf q' (p + w.length) s' v o) : Finishes buf q p s (w ++ v) o := by
  obtain ⟨rs, hfollow, rfl, hperform⟩ := h
  obtain ⟨rs', hfollow', hfinal, hperform'⟩ := h'
  refine ⟨rs ++ rs', ?_, by rwa [Scanner.lastState_append], ?_⟩
  · rw [Scanner.follow_append_eq hfollow, hfollow']
    rfl
  · rw [Scanner.events_append, List.append_assoc, Scanner.perform_append, hperform,
      Option.bind_some, Scanner.length_of_follow hfollow, Scanner.lastState_append,
      List.length_append, ← Nat.add_assoc, hperform']

/-- The end of the text. -/
theorem finishes_nil (buf : List UInt8) (p : Nat) (s : Parsing) (hfinal : isFinal q = true) :
    Finishes buf q p s [] (perform (act buf) ((eofActions q).map (p, ·)) s) :=
  ⟨[], rfl, hfinal, rfl⟩

/-- No rule of the table ends the scan. -/
theorem scanner_ends (r : Rule UriAction) : scanner.ends r = false := by
  simp [Scanner.ends, scanner]

/-- `create` on a text whose scan was traced to its end. -/
theorem create_of_finishes {text : List UInt8} {o : Option Parsing}
    (h : Finishes text 451 0 ⟨new, none⟩ text o) : create text = o.map fun t => some t.uri := by
  obtain ⟨rs, hfollow, hfinal, rfl⟩ := h
  have hexec : scanner.exec (act text) 451 0 ⟨new, none⟩ text =
      (perform (act text) (events 0 rs) ⟨new, none⟩).bind fun t =>
        some (lastState 451 rs, 0 + text.length, t) := by
    have hgo (s : Parsing) : scanner.exec (act text) 451 0 s (text ++ []) = _ :=
      Scanner.exec_append hfollow (fun r _ => scanner_ends r) [] 0 s
    simpa [Scanner.exec] using hgo ⟨new, none⟩
  rw [create, hexec, Scanner.perform_append]
  cases perform (act text) (events 0 rs) ⟨new, none⟩ with
  | none => rfl
  | some t => simp only [Option.bind_some, hfinal, if_true]

/-! ### One byte and one word -/

/-- The next byte, on which the rules of the region have the actions `acts`. -/
theorem runs_byte {R κ R' : List (Nat × Nat)} {acts : List UriAction} {b : UInt8}
    (h : scanner.leads R κ (Rule.goes acts R') = true) (hq : inRanges R q = true)
    (hb : inClass κ b = true) (haccepts : Accepts q (b :: rest))
    (hperform : perform (act buf) (acts.map (p, ·)) s = some s') :
    ∃ q', inRanges R' q' = true ∧ Runs buf q p s [b] q' s' ∧ Accepts q' rest := by
  obtain ⟨r, hrule, hrest⟩ := Scanner.accepts_cons.mp haccepts
  have hgoes := Scanner.rule_of_leads h hq hb hrule
  rw [Rule.goes, Bool.and_eq_true, decide_eq_true_eq] at hgoes
  refine ⟨r.next, hgoes.2, ⟨[r], by simp [Scanner.follow, hrule], rfl, ?_⟩, hrest⟩
  simpa [events, hgoes.1] using hperform

/-- An action that sets the mark. -/
def marks (a : UriAction) : Prop := a = .markU ∨ a = .markH

/-- No actions. -/
theorem perform_none (buf : List UInt8) (p : Nat) (s : Parsing) :
    perform (act buf) (([] : List UriAction).map (p, ·)) s = some s :=
  rfl

/-- A marking action puts the mark at its position. -/
theorem perform_mark (buf : List UInt8) (p : Nat) (s : Parsing) {a : UriAction} (ha : marks a) :
    perform (act buf) [(p, a)] s = some { s with mark := some p } := by
  rcases ha with rfl | rfl
  · rfl
  · rfl

/-- **A word that is marked** at its first byte and keeps the scan in a region. -/
theorem runs_marked (buf : List UInt8) (p : Nat) (s : Parsing) {R R' κ : List (Nat × Nat)}
    {a : UriAction} (ha : marks a)
    (hfirst : scanner.leads R κ (Rule.goes [a] R') = true)
    (hstays : scanner.leads R' κ (Rule.stays R') = true) (hq : inRanges R q = true)
    (hne : w ≠ []) (hw : ∀ b ∈ w, inClass κ b = true) (haccepts : Accepts q (w ++ rest)) :
    ∃ q', inRanges R' q' = true ∧ Runs buf q p s w q' { s with mark := some p } ∧
      Accepts q' rest := by
  cases w with
  | nil => exact absurd rfl hne
  | cons b w =>
      obtain ⟨q₁, hq₁, hrun, hrest⟩ := runs_byte hfirst hq (hw b List.mem_cons_self)
        haccepts (perform_mark buf p s ha)
      obtain ⟨q₂, hq₂, hsilent, hrest₂⟩ := Scanner.accepts_append_of_stays hstays hq₁
        (fun c hc => hw c (List.mem_cons_of_mem b hc)) hrest
      exact ⟨q₂, hq₂, hrun.append (.of_silent hsilent), hrest₂⟩

/-- The actions at the end of a part, where the mark is still to be set if the part is empty. -/
def atEnd (a : UriAction) (w : List UInt8) (acts : List UriAction) : List UriAction :=
  if w = [] then a :: acts else acts

/-- **A part**, empty or not: at its end the mark is at its start. -/
theorem runs_part (buf : List UInt8) (p : Nat) (s : Parsing) {R R' κ : List (Nat × Nat)}
    {a : UriAction} (ha : marks a)
    (hfirst : scanner.leads R κ (Rule.goes [a] R') = true)
    (hstays : scanner.leads R' κ (Rule.stays R') = true) (hq : inRanges R q = true)
    (hw : ∀ b ∈ w, inClass κ b = true) (haccepts : Accepts q (w ++ rest)) :
    ∃ q' s₁, inRanges (if w = [] then R else R') q' = true ∧ Runs buf q p s w q' s₁ ∧
      Accepts q' rest ∧ ∀ acts : List UriAction,
        perform (act buf) ((atEnd a w acts).map (p + w.length, ·)) s₁ =
          perform (act buf) (acts.map (p + w.length, ·)) { s with mark := some p } := by
  by_cases hne : w = []
  · subst hne
    refine ⟨q, s, by simpa using hq, .of_silent (Scanner.Silent.nil q), haccepts, fun acts => ?_⟩
    have hcons : (atEnd a [] acts).map (p + [].length, ·) =
        [(p, a)] ++ acts.map (p + ([] : List UInt8).length, ·) := rfl
    rw [hcons, Scanner.perform_append, perform_mark buf p s ha, Option.bind_some]
  · obtain ⟨q', hq', hrun, hrest⟩ := runs_marked buf p s ha hfirst hstays hq
      hne hw haccepts
    refine ⟨q', _, by simpa [hne] using hq', hrun, hrest, fun acts => ?_⟩
    rw [atEnd, if_neg hne]

/-- A rule at the end of a part, by whether the part is empty. -/
theorem leads_atEnd {R R' κ T : List (Nat × Nat)} {a : UriAction} {acts : List UriAction}
    (hempty : scanner.leads R κ (Rule.goes (a :: acts) T) = true)
    (hpart : scanner.leads R' κ (Rule.goes acts T) = true) (w : List UInt8) :
    scanner.leads (if w = [] then R else R') κ (Rule.goes (atEnd a w acts) T) = true := by
  rw [atEnd]
  split
  · exact hempty
  · exact hpart

/-- The next byte, and all that follows it: nothing when the actions on it throw. -/
theorem finishes_byte (buf : List UInt8) (p : Nat) (s : Parsing) {R κ R' : List (Nat × Nat)}
    {acts : List UriAction} {b : UInt8} {f : Parsing → Option Parsing}
    (h : scanner.leads R κ (Rule.goes acts R') = true) (hq : inRanges R q = true)
    (hb : inClass κ b = true) (haccepts : Accepts q (b :: w))
    (hrest : ∀ t q', perform (act buf) (acts.map (p, ·)) s = some t → inRanges R' q' = true →
      Accepts q' w → Finishes buf q' (p + 1) t w (f t)) :
    Finishes buf q p s (b :: w) ((perform (act buf) (acts.map (p, ·)) s).bind f) := by
  cases hperform : perform (act buf) (acts.map (p, ·)) s with
  | some t =>
      obtain ⟨q', hq', hrun, haccepts'⟩ := runs_byte h hq hb haccepts hperform
      exact hrun.finishes (hrest t q' hperform hq' haccepts')
  | none =>
      obtain ⟨r, hrule, rs, hfollow, hfinal⟩ := Scanner.accepts_cons.mp haccepts
      have hgoes := Scanner.rule_of_leads h hq hb hrule
      rw [Rule.goes, Bool.and_eq_true, decide_eq_true_eq] at hgoes
      refine ⟨r :: rs, by simp [Scanner.follow, hrule, hfollow], hfinal, ?_⟩
      rw [events, hgoes.1, List.append_assoc, Scanner.perform_append, hperform]
      rfl

/-- The final states of the region end the text with the actions `acts`. -/
def endsWith (R : List (Nat × Nat)) (acts : List UriAction) : Bool :=
  R.all fun c => (List.range' c.1 (c.2 + 1 - c.1)).all fun q =>
    !isFinal q || decide (eofActions q = acts)

/-- The actions at the end of the text, in a final state of the region. -/
theorem eofActions_of_endsWith {R : List (Nat × Nat)} {acts : List UriAction}
    (h : endsWith R acts = true) (hq : inRanges R q = true) (hfinal : isFinal q = true) :
    eofActions q = acts := by
  obtain ⟨c, hc, hrange⟩ := List.any_eq_true.mp hq
  rw [Bool.and_eq_true, Nat.ble_eq, Nat.ble_eq] at hrange
  have hmem : q ∈ List.range' c.1 (c.2 + 1 - c.1) := by
    rw [List.mem_range'_1]
    omega
  have hends := List.all_eq_true.mp (List.all_eq_true.mp h c hc) q hmem
  simpa [hfinal] using hends

/-- The end of the text behind a part, by whether the part is empty. -/
theorem endsWith_atEnd {R R' : List (Nat × Nat)} {a : UriAction} {acts : List UriAction}
    (hempty : endsWith R (a :: acts) = true) (hpart : endsWith R' acts = true) (w : List UInt8) :
    endsWith (if w = [] then R else R') (atEnd a w acts) = true := by
  rw [atEnd]
  split
  · exact hempty
  · exact hpart

/-- The end of the text, in a region. -/
theorem finishes_end (buf : List UInt8) (p : Nat) (s : Parsing) {R : List (Nat × Nat)}
    {acts : List UriAction} (h : endsWith R acts = true) (hq : inRanges R q = true)
    (haccepts : Accepts q []) :
    Finishes buf q p s [] (perform (act buf) (acts.map (p, ·)) s) := by
  have hfinal := Scanner.accepts_nil.mp haccepts
  have hend := finishes_nil buf p s hfinal
  rwa [eofActions_of_endsWith h hq hfinal] at hend

/-- `std::string(mark, fpc - mark)` behind a marked part. -/
theorem token_part (pre v post : List UInt8) :
    Http.token (pre ++ (v ++ post)) pre.length (pre.length + v.length) = some v := by
  simp [Http.token]

/-- A token that ends where it begins is empty. -/
theorem token_self (buf : List UInt8) (n : Nat) : Http.token buf n n = some [] := by
  simp [Http.token]

/-- A region of one state. -/
theorem inRanges_single {n : Nat} : inRanges [(n, n)] q = true ↔ q = n := by
  simp [inRanges]
  omega

/-! ### The query and the fragment -/

/-- `queryChar` and the percent sign. -/
def queryByte : List (Nat × Nat) :=
  [(33, 33), (36, 59), (61, 61), (63, 90), (95, 95), (97, 122), (126, 126), (128, 255)]

/-- The bytes of a query. -/
theorem bytes_query (h : Derives uriRl (ref .query) v) : ∀ b ∈ v, inClass queryByte b = true :=
  h.bytes 20 (by decide)

/-- The bytes of a fragment. -/
theorem bytes_fragment (h : Derives uriRl (ref .fragment) v) :
    ∀ b ∈ v, inClass queryByte b = true :=
  h.bytes 20 (by decide)

/-- The states of a fragment that has begun. -/
def fragmentStates : List (Nat × Nat) := [(1, 2), (454, 454)]

/-- What the rows say in the region of a fragment. -/
theorem fragment_rules :
    scanner.leads [(453, 453)] queryByte (Rule.goes [.markU] fragmentStates) = true ∧
    scanner.leads fragmentStates queryByte (Rule.stays fragmentStates) = true ∧
    endsWith [(453, 453)] [.markU, .saveFragment] = true ∧
    endsWith fragmentStates [.saveFragment] = true := by
  decide +kernel

/-- The fragment. -/
theorem finishes_fragment (hv : Derives uriRl (ref .fragment) v) (hbuf : buf = pre ++ v)
    (haccepts : Accepts 453 v) :
    Finishes buf 453 pre.length s v (some ⟨{ s.uri with fragment := v }, none⟩) := by
  have htoken : Http.token buf pre.length (pre.length + v.length) = some v := by
    have h := token_part pre v []
    rwa [List.append_nil, ← hbuf] at h
  have haccepts' : Accepts 453 (v ++ []) := by simpa using haccepts
  obtain ⟨hfirst, hstays, hempty, heof⟩ := fragment_rules
  obtain ⟨q, s₁, hq, hrun, hrest, hperform⟩ := runs_part buf pre.length s (.inl rfl)
    hfirst hstays (inRanges_single.mpr rfl) (bytes_fragment hv) haccepts'
  have hend := finishes_end buf (pre.length + v.length) s₁
    (endsWith_atEnd hempty heof v) hq hrest
  rw [hperform] at hend
  have hall := hrun.finishes hend
  rw [List.append_nil] at hall
  simpa [perform, act, Parsing.save, htoken] using hall

/-- The states of a query that has begun. -/
def queryStates : List (Nat × Nat) := [(7, 8), (457, 457)]

/-- What the rows say in the region of a query. -/
theorem query_rules :
    scanner.leads [(456, 456)] queryByte (Rule.goes [.markU] queryStates) = true ∧
    scanner.leads queryStates queryByte (Rule.stays queryStates) = true ∧
    scanner.leads [(456, 456)] [(35, 35)] (Rule.goes [.markU, .saveQuery] [(453, 453)]) = true ∧
    scanner.leads queryStates [(35, 35)] (Rule.goes [.saveQuery] [(453, 453)]) = true ∧
    endsWith [(456, 456)] [.markU, .saveQuery] = true ∧
    endsWith queryStates [.saveQuery] = true := by
  decide +kernel

/-- The query, and the fragment if there is one. -/
theorem finishes_query (hv : Derives uriRl (ref .query) v) {fragment : Option (List UInt8)}
    (hf : Matches fragment .fragment) (hbuf : buf = pre ++ (v ++ marked 35 fragment))
    (haccepts : Accepts 456 (v ++ marked 35 fragment)) :
    Finishes buf 456 pre.length s (v ++ marked 35 fragment)
      (some ⟨{ s.uri with query := v, fragment := fragment.getD s.uri.fragment }, none⟩) := by
  have htoken : Http.token buf pre.length (pre.length + v.length) = some v := by
    rw [hbuf]
    exact token_part pre v (marked 35 fragment)
  obtain ⟨hfirst, hstays, hempty_hash, hhash, hempty_eof, heof⟩ := query_rules
  obtain ⟨q, s₁, hq, hrun, hrest, hperform⟩ := runs_part buf pre.length s (.inl rfl)
    hfirst hstays (inRanges_single.mpr rfl) (bytes_query hv) haccepts
  have hsave : perform (act buf)
      ((atEnd .markU v [.saveQuery]).map (pre.length + v.length, ·)) s₁ =
        some ⟨{ s.uri with query := v }, none⟩ := by
    rw [hperform]
    simp [perform, act, Parsing.save, htoken]
  refine hrun.finishes ?_
  cases fragment with
  | none =>
      have hend := finishes_end buf (pre.length + v.length) s₁
        (endsWith_atEnd hempty_eof heof v) hq hrest
      rwa [hsave] at hend
  | some f =>
      have hbuf' : buf = pre ++ v ++ [35] ++ f := by
        rw [hbuf]
        simp [marked]
      have hall := finishes_byte buf (pre.length + v.length) s₁
        (f := fun t => some ⟨{ t.uri with fragment := f }, none⟩)
        (leads_atEnd hempty_hash hhash v) hq (b := 35) rfl hrest ?_
      · rwa [hsave] at hall
      · intro t q' _ hq' haccepts'
        obtain rfl := inRanges_single.mp hq'
        have hf' := finishes_fragment (s := t) (hf f rfl) hbuf' haccepts'
        simpa [Nat.add_assoc] using hf'

/-- `s` with the query and the fragment, where there are any. -/
def Parsing.withTail (s : Parsing) (query fragment : Option (List UInt8)) : Parsing :=
  ⟨{ s.uri with
    query := query.getD s.uri.query
    fragment := fragment.getD s.uri.fragment }, none⟩

/-- The query and the fragment, behind a part at whose end the actions `acts` are performed. -/
theorem finishes_tail {acts : List UriAction} {R : List (Nat × Nat)} {o : Option Parsing}
    {query fragment : Option (List UInt8)} (hq : inRanges R q = true)
    (hquery : scanner.leads R [(63, 63)] (Rule.goes acts [(456, 456)]) = true)
    (hfragment : scanner.leads R [(35, 35)] (Rule.goes acts [(453, 453)]) = true)
    (heof : isFinal q = true → eofActions q = acts)
    (hperform : perform (act buf) (acts.map (pre.length, ·)) s = o)
    (hmark : ∀ t, o = some t → t.mark = none)
    (hmq : Matches query .query) (hmf : Matches fragment .fragment)
    (hbuf : buf = pre ++ (marked 63 query ++ marked 35 fragment))
    (haccepts : Accepts q (marked 63 query ++ marked 35 fragment)) :
    Finishes buf q pre.length s (marked 63 query ++ marked 35 fragment)
      (o.map (·.withTail query fragment)) := by
  subst hperform
  rw [Option.map_eq_bind]
  cases query with
  | some v =>
      refine finishes_byte _ _ _ (f := some ∘ (·.withTail (some v) fragment)) hquery hq (b := 63)
        rfl haccepts ?_
      intro t q' _ hq' haccepts'
      obtain rfl := inRanges_single.mp hq'
      have hbuf' : buf = pre ++ [63] ++ (v ++ marked 35 fragment) := by
        rw [hbuf]
        simp [marked]
      have hrest := finishes_query (s := t) (hmq v rfl) hmf hbuf' haccepts'
      simpa [Parsing.withTail] using hrest
  | none =>
      cases fragment with
      | some f =>
          refine finishes_byte _ _ _ (f := some ∘ (·.withTail none (some f))) hfragment hq
            (b := 35) rfl haccepts ?_
          intro t q' _ hq' haccepts'
          obtain rfl := inRanges_single.mp hq'
          have hbuf' : buf = pre ++ [35] ++ f := by
            rw [hbuf]
            simp [marked]
          have hrest := finishes_fragment (s := t) (hmf f rfl) hbuf' haccepts'
          simpa [Parsing.withTail] using hrest
      | none =>
          have hfinal := Scanner.accepts_nil.mp haccepts
          have hend := finishes_nil buf pre.length s hfinal
          rw [heof hfinal] at hend
          cases ho : perform (act buf) (acts.map (pre.length, ·)) s with
          | none => simpa [ho, marked] using hend
          | some t =>
              have ht : t.withTail none none = t := by
                rw [Parsing.withTail, ← hmark t ho]
                rfl
              simpa [ho, marked, ht] using hend

/-! ### The userinfo -/

/-- `userinfo` and the percent sign. -/
def userinfoByte : List (Nat × Nat) :=
  [(33, 33), (36, 46), (48, 59), (61, 61), (65, 90), (95, 95), (97, 122), (126, 126)]

/-- The bytes of a userinfo that are no digits. -/
def userinfoNoDigit : List (Nat × Nat) :=
  [(33, 33), (36, 46), (58, 59), (61, 61), (65, 90), (95, 95), (97, 122), (126, 126)]

/-- `regName` and the percent sign. -/
def nameByte : List (Nat × Nat) :=
  [(33, 33), (36, 46), (48, 57), (59, 59), (61, 61), (65, 90), (95, 95), (97, 122), (126, 126)]

/-- The bytes of a userinfo. -/
theorem bytes_userinfo (h : Derives uriRl (ref .userinfo) v) :
    ∀ b ∈ v, inClass userinfoByte b = true :=
  h.bytes 20 (by decide)

/-- The states of a registered name that may turn out to be userinfo. -/
def nameStates : List (Nat × Nat) := [(253, 254), (520, 520), (543, 560)]

/-- The states behind the colon of a userinfo, which may turn out to be a port. -/
def secretStates : List (Nat × Nat) := [(255, 257), (542, 542)]

/-- What the rows say in the region of a name. -/
theorem name_rules :
    scanner.leads [(511, 511)] nameByte (Rule.goes [.markH] nameStates) = true ∧
    scanner.leads nameStates nameByte (Rule.stays nameStates) = true ∧
    scanner.leads [(511, 511)] [(58, 58)] (Rule.goes [.markH, .saveHost] [(521, 521)]) = true ∧
    scanner.leads nameStates [(58, 58)] (Rule.goes [.saveHost] [(521, 521)]) = true ∧
    scanner.leads [(511, 511)] [(64, 64)]
      (Rule.goes [.markH, .saveUserinfo] [(522, 522)]) = true ∧
    scanner.leads nameStates [(64, 64)] (Rule.goes [.saveUserinfo] [(522, 522)]) = true := by
  decide +kernel

/-- What the rows say behind the colon of a userinfo. -/
theorem secret_rules :
    scanner.leads [(521, 521)] Scanner.digit (Rule.goes [.markH] secretStates) = true ∧
    scanner.leads [(521, 521)] userinfoNoDigit (Rule.goes [] secretStates) = true ∧
    scanner.leads secretStates userinfoByte (Rule.stays secretStates) = true ∧
    scanner.leads ((521, 521) :: secretStates) [(64, 64)]
      (Rule.goes [.saveUserinfo] [(522, 522)]) = true := by
  decide +kernel

/-- What is saved of a userinfo: a digit behind its first colon is taken for the beginning of
a port, and the mark moves there. -/
def kept (u : List UInt8) : List UInt8 :=
  match u.dropWhile (· != 58) with
  | _ :: d :: c => if inClass Scanner.digit d then d :: c else u
  | _ => u

/-- A userinfo without a colon is saved whole. -/
theorem kept_of_not_mem {u : List UInt8} (h : 58 ∉ u) : kept u = u := by
  have hnone : u.dropWhile (· != 58) = [] := by
    rw [List.dropWhile_eq_nil_iff]
    intro b hb
    simpa using ne_of_mem_of_not_mem hb h
  rw [kept, hnone]

/-- A userinfo by its first colon: a digit behind it drops what is in front. -/
theorem kept_append_colon {a c : List UInt8} (h : 58 ∉ a) :
    kept (a ++ 58 :: c) =
      if c.head?.any (inClass Scanner.digit) = true then c else a ++ 58 :: c := by
  have hdrop : (a ++ 58 :: c).dropWhile (· != 58) = 58 :: c := by
    rw [List.dropWhile_append_of_pos]
    · rfl
    · intro b hb
      simpa using ne_of_mem_of_not_mem hb h
  rw [kept, hdrop]
  cases c with
  | nil => rfl
  | cons d c => rfl

/-- A byte of a userinfo that is no colon may be in a name. -/
theorem inClass_nameByte {b : UInt8} (h : inClass userinfoByte b = true) (hne : b ≠ 58) :
    inClass nameByte b = true := by
  have hall := Scanner.forall_byte
    (P := fun b => !inClass userinfoByte b || b == 58 || inClass nameByte b) (by decide +kernel) b
  simpa [h, hne] using hall

/-- A byte of a userinfo that is no digit. -/
theorem inClass_noDigit {b : UInt8} (h : inClass userinfoByte b = true)
    (hdigit : inClass Scanner.digit b = false) : inClass userinfoNoDigit b = true := by
  have hall := Scanner.forall_byte
    (P := fun b => !inClass userinfoByte b || inClass Scanner.digit b || inClass userinfoNoDigit b)
    (by decide +kernel) b
  simpa [h, hdigit] using hall

/-- A name that is over: its text is saved as the host or as the userinfo. -/
theorem runs_name (hv : ∀ b ∈ v, inClass nameByte b = true) (hbuf : buf = pre ++ (v ++ rest))
    (haccepts : Accepts 511 (v ++ rest)) :
    ∃ q s₁, inRanges (if v = [] then [(511, 511)] else nameStates) q = true ∧
      Runs buf 511 pre.length s v q s₁ ∧ Accepts q rest ∧
      (perform (act buf) ((atEnd .markH v [.saveHost]).map (pre.length + v.length, ·)) s₁ =
        some ⟨{ s.uri with host := v }, some pre.length⟩) ∧
      perform (act buf) ((atEnd .markH v [.saveUserinfo]).map (pre.length + v.length, ·)) s₁ =
        some ⟨{ s.uri with userinfo := v }, none⟩ := by
  obtain ⟨hfirst, hstays, -⟩ := name_rules
  obtain ⟨q, s₁, hq, hrun, hrest, hperform⟩ := runs_part buf pre.length s (.inr rfl)
    hfirst hstays (inRanges_single.mpr rfl) hv haccepts
  have htoken : Http.token buf pre.length (pre.length + v.length) = some v := by
    rw [hbuf]
    exact token_part pre v rest
  refine ⟨q, s₁, hq, hrun, hrest, ?_, ?_⟩
  · rw [hperform]
    simp [perform, act, htoken]
  · rw [hperform]
    simp [perform, act, Parsing.save, htoken]

/-- Behind the first colon of a userinfo: the mark moves to a digit there. -/
theorem runs_secret (uri : Uri) {a c : List UInt8} (hc : ∀ b ∈ c, inClass userinfoByte b = true)
    (ha : 58 ∉ a) (hbuf : buf = pre ++ ((a ++ 58 :: c) ++ rest))
    (haccepts : Accepts 521 (c ++ rest)) :
    ∃ q m, inRanges ((521, 521) :: secretStates) q = true ∧
      Runs buf 521 (pre.length + a.length + 1) ⟨uri, some pre.length⟩ c q ⟨uri, some m⟩ ∧
      Accepts q rest ∧
      Http.token buf m (pre.length + (a ++ 58 :: c).length) = some (kept (a ++ 58 :: c)) := by
  obtain ⟨hdigit, hother, hstays, -⟩ := secret_rules
  have hwhole : Http.token buf pre.length (pre.length + (a ++ 58 :: c).length) =
      some (a ++ 58 :: c) := by
    rw [hbuf]
    exact token_part pre _ rest
  have hmem {q : Nat} (hq : inRanges secretStates q = true) :
      inRanges ((521, 521) :: secretStates) q = true := by
    rw [inRanges, List.any_cons]
    exact Bool.or_eq_true_iff.mpr (.inr hq)
  rw [kept_append_colon ha]
  cases hcases : c with
  | nil =>
      subst hcases
      exact ⟨521, pre.length, rfl, .of_silent (Scanner.Silent.nil 521), haccepts, hwhole⟩
  | cons d c' =>
      subst hcases
      have hd := hc d List.mem_cons_self
      have hc' : ∀ b ∈ c', inClass userinfoByte b = true := fun b hb =>
        hc b (List.mem_cons_of_mem d hb)
      cases hdd : inClass Scanner.digit d with
      | true =>
          obtain ⟨q₁, hq₁, hrun, hrest⟩ := runs_byte hdigit (inRanges_single.mpr rfl) hdd haccepts
            (perform_mark buf (pre.length + a.length + 1) ⟨uri, some pre.length⟩ (.inr rfl))
          obtain ⟨q, hq, hsilent, hrest'⟩ :=
            Scanner.accepts_append_of_stays hstays hq₁ hc' hrest
          refine ⟨q, _, hmem hq, hrun.append (.of_silent hsilent), hrest', ?_⟩
          have hpart := token_part (pre ++ a ++ [58]) (d :: c') rest
          have hbuf' : buf = pre ++ a ++ [58] ++ (d :: c' ++ rest) := by simp [hbuf]
          have hstart : (pre ++ a ++ [58]).length = pre.length + a.length + 1 := by simp; omega
          have hend : pre.length + a.length + 1 + (d :: c').length =
              pre.length + (a ++ 58 :: d :: c').length := by simp; omega
          rw [← hbuf', hstart, hend] at hpart
          rw [List.head?_cons, Option.any_some, hdd, if_pos rfl]
          exact hpart
      | false =>
          obtain ⟨q₁, hq₁, hrun, hrest⟩ := runs_byte hother (inRanges_single.mpr rfl)
            (inClass_noDigit hd hdd) haccepts
            (perform_none buf (pre.length + a.length + 1) ⟨uri, some pre.length⟩)
          obtain ⟨q, hq, hsilent, hrest'⟩ :=
            Scanner.accepts_append_of_stays hstays hq₁ hc' hrest
          refine ⟨q, _, hmem hq, hrun.append (.of_silent hsilent), hrest', ?_⟩
          rw [List.head?_cons, Option.any_some, hdd, if_neg Bool.false_ne_true]
          exact hwhole

/-- **The userinfo.**  What is saved is `kept` of it; the host is overwritten later. -/
theorem runs_userinfo {u : List UInt8} (hu : Derives uriRl (ref .userinfo) u)
    (hbuf : buf = pre ++ (u ++ 64 :: rest)) (haccepts : Accepts 511 (u ++ 64 :: rest)) :
    ∃ host, Runs buf 511 pre.length s (u ++ [64]) 522
        ⟨{ s.uri with host := host, userinfo := kept u }, none⟩ ∧
      Accepts 522 rest := by
  obtain ⟨-, -, hempty_colon, hcolon, hempty_at, hat⟩ := name_rules
  have hname {a : List UInt8} (hsub : ∀ b ∈ a, b ∈ u) (ha : 58 ∉ a) :
      ∀ b ∈ a, inClass nameByte b = true := fun b hb =>
    inClass_nameByte (bytes_userinfo hu b (hsub b hb)) (ne_of_mem_of_not_mem hb ha)
  by_cases hmem : 58 ∈ u
  · obtain ⟨a, c, rfl, ha⟩ := List.eq_append_cons_of_mem hmem
    have hbuf' : buf = pre ++ (a ++ 58 :: (c ++ 64 :: rest)) := by simpa using hbuf
    have haccepts' : Accepts 511 (a ++ 58 :: (c ++ 64 :: rest)) := by simpa using haccepts
    obtain ⟨q, s₁, hq, hrun, hrest, hsave, -⟩ :=
      runs_name (s := s) (hname (fun b hb => List.mem_append_left _ hb) ha) hbuf' haccepts'
    obtain ⟨q₁, hq₁, hrun₁, hrest₁⟩ :=
      runs_byte (leads_atEnd hempty_colon hcolon a) hq (b := 58) rfl hrest hsave
    obtain rfl := inRanges_single.mp hq₁
    obtain ⟨q₂, m, hq₂, hrun₂, hrest₂, htoken⟩ := runs_secret { s.uri with host := a }
      (fun b hb => bytes_userinfo hu b (by simp [hb])) ha hbuf hrest₁
    obtain ⟨-, -, -, hat'⟩ := secret_rules
    have hsave₂ : perform (act buf)
        ([.saveUserinfo].map (pre.length + (a ++ 58 :: c).length, ·))
        ⟨{ s.uri with host := a }, some m⟩ =
          some ⟨{ s.uri with host := a, userinfo := kept (a ++ 58 :: c) }, none⟩ := by
      simp only [List.map_cons, List.map_nil, perform, act, Parsing.save, htoken,
        Option.bind_some, Option.map_some]
    obtain ⟨q₃, hq₃, hrun₃, hrest₃⟩ := runs_byte hat' hq₂ (b := 64) rfl hrest₂ hsave₂
    obtain rfl := inRanges_single.mp hq₃
    refine ⟨a, ?_, hrest₃⟩
    have hall := (hrun.append hrun₁).append (v := c) (by simpa [Nat.add_assoc] using hrun₂)
    have hall' := hall.append (v := [64]) (by simpa [Nat.add_assoc] using hrun₃)
    simpa using hall'
  · obtain ⟨q, s₁, hq, hrun, hrest, -, hsave⟩ :=
      runs_name (s := s) (hname (fun _ => id) hmem) hbuf haccepts
    obtain ⟨q', hq', hrun', hrest'⟩ :=
      runs_byte (leads_atEnd hempty_at hat u) hq (b := 64) rfl hrest hsave
    obtain rfl := inRanges_single.mp hq'
    refine ⟨s.uri.host, ?_, hrest'⟩
    rw [kept_of_not_mem hmem]
    exact hrun.append hrun'

/-! ### The path -/

/-- `pathChar` and the percent sign. -/
def pathByte : List (Nat × Nat) :=
  [(33, 33), (36, 59), (61, 61), (64, 90), (95, 95), (97, 122), (126, 126), (128, 255)]

/-- The bytes of a path. -/
theorem bytes_path (h : Derives uriRl (ref .pathAbempty) v) :
    ∀ b ∈ v, inClass pathByte b = true :=
  h.bytes 20 (by decide)

/-- A path behind an authority is empty or begins with a slash. -/
theorem path_cases (h : Derives uriRl (ref .pathAbempty) v) : v = [] ∨ ∃ v', v = 47 :: v' := by
  have hslash {u : List UInt8} (hu : Derives uriRl slashSegment u) : ∃ u', u = 47 :: u' := by
    obtain ⟨_, u', rfl, hbyte, -⟩ := Grammar.derives_seq.mp hu
    obtain rfl := (Grammar.derives_byte (by decide)).mp hbyte
    exact ⟨u', rfl⟩
  obtain ⟨u, w, rfl, hu, hw⟩ := Grammar.derives_seq.mp (Grammar.derives_ref.mp h)
  rcases Grammar.derives_opt.mp hu with rfl | hu
  · rcases Grammar.derives_star.mp hw with rfl | ⟨u, w, rfl, hu, -⟩
    · exact .inl rfl
    · obtain ⟨u', rfl⟩ := hslash hu
      exact .inr ⟨u' ++ w, rfl⟩
  · obtain ⟨u', rfl⟩ := hslash hu
    exact .inr ⟨u' ++ w, rfl⟩

/-- The states of a path that has begun. -/
def pathStates : List (Nat × Nat) := [(243, 244), (513, 513)]

/-- What the rows say in the region of a path. -/
theorem path_rules :
    scanner.leads pathStates pathByte (Rule.stays pathStates) = true ∧
    scanner.leads pathStates [(63, 63)] (Rule.goes [.savePath] [(456, 456)]) = true ∧
    scanner.leads pathStates [(35, 35)] (Rule.goes [.savePath] [(453, 453)]) = true ∧
    endsWith pathStates [.savePath] = true := by
  decide +kernel

/-- The rules of a region for the bytes behind an authority: `slash` at the first byte of a
path, `tail` where the path is empty. -/
structure Exits (R : List (Nat × Nat)) (slash tail : List UriAction) : Prop where
  slash : scanner.leads R [(47, 47)] (Rule.goes slash [(513, 513)]) = true
  query : scanner.leads R [(63, 63)] (Rule.goes tail [(456, 456)]) = true
  fragment : scanner.leads R [(35, 35)] (Rule.goes tail [(453, 453)]) = true
  eof : endsWith R tail = true

/-- **The path**, and all behind it.  The mark is at the first byte of the path, or it is null
and saving the path throws. -/
theorem finishes_path {R : List (Nat × Nat)} {slash tail : List UriAction} {path : List UInt8}
    {query fragment : Option (List UInt8)} (uri : Uri) (mark : Option Nat)
    (hexits : Exits R slash tail) (hq : inRanges R q = true)
    (hslash : perform (act buf) (slash.map (pre.length, ·)) s = some ⟨uri, mark⟩)
    (htail : perform (act buf) (tail.map (pre.length, ·)) s =
      mark.map fun _ => ⟨{ uri with path := [] }, none⟩)
    (hmark : ∀ m, mark = some m → m = pre.length)
    (hpath : Derives uriRl (ref .pathAbempty) path) (hmq : Matches query .query)
    (hmf : Matches fragment .fragment)
    (hbuf : buf = pre ++ (path ++ (marked 63 query ++ marked 35 fragment)))
    (haccepts : Accepts q (path ++ (marked 63 query ++ marked 35 fragment))) :
    Finishes buf q pre.length s (path ++ (marked 63 query ++ marked 35 fragment))
      (mark.map fun _ => Parsing.withTail ⟨{ uri with path := path }, none⟩ query fragment) := by
  rcases path_cases hpath with rfl | ⟨v, rfl⟩
  · have hnull (t : Parsing)
        (ht : (mark.map fun _ => (⟨{ uri with path := [] }, none⟩ : Parsing)) = some t) :
        t.mark = none := by
      obtain ⟨_, _, rfl⟩ := Option.map_eq_some_iff.mp ht
      rfl
    have hall := finishes_tail hq hexits.query hexits.fragment
      (eofActions_of_endsWith hexits.eof hq) htail hnull hmq hmf hbuf haccepts
    simpa [Function.comp_def] using hall
  · obtain ⟨hstays, hquery, hfragment, heof⟩ := path_rules
    obtain ⟨q₁, hq₁, hrun, hrest⟩ := runs_byte hexits.slash hq (b := 47) rfl haccepts hslash
    obtain rfl := inRanges_single.mp hq₁
    obtain ⟨q₂, hq₂, hsilent, hrest₂⟩ := Scanner.accepts_append_of_stays hstays
      (q := 513) rfl (fun b hb => bytes_path hpath b (List.mem_cons_of_mem _ hb)) hrest
    have hsave : perform (act buf) ([.savePath].map ((pre ++ 47 :: v).length, ·)) ⟨uri, mark⟩ =
        mark.map fun _ => ⟨{ uri with path := 47 :: v }, none⟩ := by
      cases mark with
      | none => rfl
      | some m =>
          have htoken := token_part pre (47 :: v) (marked 63 query ++ marked 35 fragment)
          rw [← hbuf, ← hmark m rfl] at htoken
          rw [List.length_append, ← hmark m rfl]
          simp only [List.map_cons, List.map_nil, perform, act, Parsing.save, htoken,
            Option.bind_some, Option.map_some]
    have hnull (t : Parsing)
        (ht : (mark.map fun _ => (⟨{ uri with path := 47 :: v }, none⟩ : Parsing)) = some t) :
        t.mark = none := by
      obtain ⟨_, _, rfl⟩ := Option.map_eq_some_iff.mp ht
      rfl
    have hbuf' : buf = pre ++ 47 :: v ++ (marked 63 query ++ marked 35 fragment) := by
      simpa using hbuf
    have htail := finishes_tail hq₂ hquery hfragment (eofActions_of_endsWith heof hq₂) hsave hnull
      hmq hmf hbuf' hrest₂
    have hall := (hrun.append (.of_silent hsilent)).finishes
      (v := marked 63 query ++ marked 35 fragment) (by simpa [Nat.add_assoc] using htail)
    simpa [Function.comp_def] using hall

/-! ### The port -/

/-- A port is written in digits. -/
theorem bytes_port (h : Derives uriRl (ref .port) v) :
    ∀ b ∈ v, inClass Scanner.digit b = true :=
  h.bytes 20 (by decide)

/-- The states behind the colon of a port. -/
def portFirst : List (Nat × Nat) := [(514, 514), (521, 521)]

/-- The states of a port that has begun. -/
def portStates : List (Nat × Nat) := [(515, 515), (542, 542)]

/-- What the rows say in the region of a port. -/
theorem port_rules :
    scanner.leads portFirst Scanner.digit (Rule.goes [.markH] portStates) = true ∧
    scanner.leads portStates Scanner.digit (Rule.stays portStates) = true := by
  decide +kernel

/-- The exits behind a port. -/
theorem port_exits : Exits portStates [.savePort, .markH] [.savePort, .markH, .savePath] := by
  have h : scanner.leads portStates [(47, 47)] (Rule.goes [.savePort, .markH] [(513, 513)]) ∧
      scanner.leads portStates [(63, 63)]
        (Rule.goes [.savePort, .markH, .savePath] [(456, 456)]) = true ∧
      scanner.leads portStates [(35, 35)]
        (Rule.goes [.savePort, .markH, .savePath] [(453, 453)]) = true ∧
      endsWith portStates [.savePort, .markH, .savePath] = true := by
    decide +kernel
  exact ⟨h.1, h.2.1, h.2.2.1, h.2.2.2⟩

/-- The exits behind an empty port. -/
theorem portFirst_exits : Exits portFirst [.markH, .savePort] [.markH, .savePort, .savePath] := by
  have h : scanner.leads portFirst [(47, 47)] (Rule.goes [.markH, .savePort] [(513, 513)]) ∧
      scanner.leads portFirst [(63, 63)]
        (Rule.goes [.markH, .savePort, .savePath] [(456, 456)]) = true ∧
      scanner.leads portFirst [(35, 35)]
        (Rule.goes [.markH, .savePort, .savePath] [(453, 453)]) = true ∧
      endsWith portFirst [.markH, .savePort, .savePath] = true := by
    decide +kernel
  exact ⟨h.1, h.2.1, h.2.2.1, h.2.2.2⟩

/-- `b` ends a number. -/
def endsNumber (w : List UInt8) : Prop := ∀ b, w.head? = some b → ¬ Http.digitValue b < 10

/-- The value of digits, before it becomes an `int`. -/
theorem atoi_digits {d : List UInt8} (hne : d ≠ []) (hd : ∀ b ∈ d, inClass Scanner.digit b = true)
    (hrest : endsNumber rest) :
    Http.atoi (d ++ rest) =
      Http.longToInt (min (2 ^ 63 - 1) (Http.digitsValue 10 0 d : Int)) := by
  have hskip : Http.skipMark 10 (d ++ rest) = d ++ rest := by
    rw [Http.skipMark.eq_def]
    split
    · next x bs heq => simp [heq]
    · rfl
  have hhead : ∀ b, (d ++ rest).head? = some b → Http.digitValue b < 36 := by
    intro b hb
    rw [List.head?_append_of_ne_nil d hne] at hb
    have hall := Scanner.forall_byte
      (P := fun b => !inClass Scanner.digit b || decide (Http.digitValue b < 36))
      (by decide +kernel) b
    simpa [hd b (List.mem_of_mem_head? hb)] using hall
  rw [Http.atoi, Http.strtol_of_digit hhead, hskip, Http.digitsValue_append hrest]

/-- The end of the text ends a number. -/
theorem endsNumber_nil : endsNumber [] := by simp [endsNumber]

/-- `atoi` reads no further than the digits. -/
theorem atoi_append {d : List UInt8} (hne : d ≠ []) (hd : ∀ b ∈ d, inClass Scanner.digit b = true)
    (hrest : endsNumber rest) : Http.atoi (d ++ rest) = Http.atoi d := by
  have hself := atoi_digits hne hd endsNumber_nil
  rw [List.append_nil] at hself
  rw [atoi_digits hne hd hrest, hself]

/-- What follows an authority ends a number. -/
theorem endsNumber_tail {path : List UInt8} (hpath : Derives uriRl (ref .pathAbempty) path)
    (query fragment : Option (List UInt8)) :
    endsNumber (path ++ (marked 63 query ++ marked 35 fragment)) := by
  intro b hb
  rcases path_cases hpath with rfl | ⟨v, rfl⟩
  · cases query with
    | some q =>
        cases hb
        decide
    | none =>
        cases fragment with
        | some f =>
            cases hb
            decide
        | none => cases hb
  · cases hb
    decide

/-- **The port**, and all behind it: an empty port leaves no mark for the path. -/
theorem finishes_port {d path : List UInt8} {query fragment : Option (List UInt8)}
    (hq : inRanges portFirst q = true) (hd : Derives uriRl (ref .port) d)
    (hpath : Derives uriRl (ref .pathAbempty) path) (hmq : Matches query .query)
    (hmf : Matches fragment .fragment)
    (hbuf : buf = pre ++ (d ++ (path ++ (marked 63 query ++ marked 35 fragment))))
    (haccepts : Accepts q (d ++ (path ++ (marked 63 query ++ marked 35 fragment)))) :
    Finishes buf q pre.length s (d ++ (path ++ (marked 63 query ++ marked 35 fragment)))
      (if d = [] then none
        else some (Parsing.withTail ⟨{ s.uri with port := Http.atoi d, path := path }, none⟩
          query fragment)) := by
  obtain ⟨hfirst, hstays⟩ := port_rules
  by_cases hne : d = []
  · subst hne
    have hall := finishes_path (s := s) s.uri none portFirst_exits hq
      (by simp [perform, act]) (by simp [perform, act, Parsing.save]) (by simp) hpath hmq hmf hbuf
      haccepts
    simpa using hall
  · obtain ⟨q₁, hq₁, hrun, hrest⟩ := runs_marked buf pre.length s (.inr rfl) hfirst hstays hq hne
      (bytes_port hd) haccepts
    have hbuf' : buf = pre ++ d ++ (path ++ (marked 63 query ++ marked 35 fragment)) := by
      simpa using hbuf
    have hport : Http.atoi (buf.drop pre.length) = Http.atoi d := by
      rw [hbuf, List.drop_left]
      exact atoi_append hne (bytes_port hd) (endsNumber_tail hpath query fragment)
    have hpos : (pre ++ d).length ≠ pre.length := by
      rw [List.length_append]
      have := List.length_pos_iff.mpr hne
      omega
    have hall := finishes_path (s := ⟨s.uri, some pre.length⟩)
      { s.uri with port := Http.atoi d } (some (pre ++ d).length) port_exits hq₁
      (by simp only [List.map_cons, List.map_nil, perform, act, if_neg hpos, hport,
            Option.bind_some])
      (by simp only [List.map_cons, List.map_nil, perform, act, if_neg hpos, hport,
            Option.bind_some, Parsing.save, token_self, Option.map_some])
      (by simp) hpath hmq hmf hbuf' hrest
    rw [if_neg hne]
    exact hrun.finishes (by simpa using hall)

/-! ### The host -/

/-- `nameByte`, and the byte that uri.rl has in `dec_octet`. -/
def hostByte : List (Nat × Nat) :=
  [(2, 2), (33, 33), (36, 46), (48, 57), (59, 59), (61, 61), (65, 90), (95, 95), (97, 122),
    (126, 126)]

/-- The bytes between the brackets of an `IP_literal`. -/
def literalByte : List (Nat × Nat) :=
  [(2, 2), (33, 33), (36, 36), (38, 46), (48, 59), (61, 61), (65, 90), (95, 95), (97, 122),
    (126, 126)]

/-- The form of a host: in brackets, or without a colon. -/
inductive HostForm : List UInt8 → Prop
  | literal {x : List UInt8} : (∀ b ∈ x, inClass literalByte b = true) → HostForm (91 :: x ++ [93])
  | name {h : List UInt8} : (∀ b ∈ h, inClass hostByte b = true) → HostForm h

/-- The bytes of a host, by its form, in both grammars. -/
theorem host_bytes {g : Production → Rhs} (hg : g = uriRl ∨ g = rfc3986) :
    Grammar.within g literalByte 30 (.alt (ref .ipv6Address) (ref .ipvFuture)) = true ∧
    Grammar.within g hostByte 30 (.alt (ref .ipv4Address) (ref .regName)) = true := by
  rcases hg with rfl | rfl
  · decide +kernel
  · decide +kernel

/-- A host of either grammar has the form of one. -/
theorem hostForm_of_derives {g : Production → Rhs} (hg : g = uriRl ∨ g = rfc3986)
    {h : List UInt8} (hh : Derives g (ref .host) h) : HostForm h := by
  have hshares : Shares g := by
    rcases hg with rfl | rfl
    · exact shares_uriRl
    · exact shares_rfc3986
  have hhost : g .host = uriRl .host := hshares _ (by decide) (by decide) (by decide)
  have hliteral : g .ipLiteral = uriRl .ipLiteral := hshares _ (by decide) (by decide) (by decide)
  rw [Grammar.derives_ref, hhost] at hh
  rcases Grammar.derives_alt.mp hh with hh | hh
  · rw [Grammar.derives_ref, hliteral] at hh
    obtain ⟨_, _, rfl, hopen, hh⟩ := Grammar.derives_seq.mp hh
    obtain ⟨x, _, rfl, hx, hclose⟩ := Grammar.derives_seq.mp hh
    obtain rfl := (Grammar.derives_byte (by decide)).mp hopen
    obtain rfl := (Grammar.derives_byte (by decide)).mp hclose
    exact .literal (hx.bytes 30 (host_bytes hg).1)
  · exact .name (hh.bytes 30 (host_bytes hg).2)

/-- The states in front of a host. -/
def hostFirst : List (Nat × Nat) := [(511, 511), (522, 522)]

/-- The states of a host that has begun. -/
def hostStates : List (Nat × Nat) :=
  [(229, 242), (245, 254), (258, 259), (512, 512), (516, 520), (523, 541), (543, 560)]

/-- The states between the brackets. -/
def literalStates : List (Nat × Nat) := [(260, 450)]

/-- What the rows say in the regions of a host. -/
theorem host_rules :
    scanner.leads hostFirst hostByte (Rule.goes [.markH] hostStates) = true ∧
    scanner.leads hostStates hostByte (Rule.stays hostStates) = true ∧
    scanner.leads hostFirst [(91, 91)] (Rule.goes [.markH] literalStates) = true ∧
    scanner.leads literalStates literalByte (Rule.stays literalStates) = true ∧
    scanner.leads literalStates [(93, 93)] (Rule.goes [] hostStates) = true := by
  decide +kernel

/-- A colon behind a host. -/
theorem host_colon :
    scanner.leads hostFirst [(58, 58)] (Rule.goes [.markH, .saveHost] portFirst) = true ∧
    scanner.leads hostStates [(58, 58)] (Rule.goes [.saveHost] portFirst) = true := by
  decide +kernel

/-- The exits behind an empty host. -/
theorem hostFirst_exits : Exits hostFirst [.markH, .saveHost] [.markH, .saveHost, .savePath] := by
  have h : scanner.leads hostFirst [(47, 47)] (Rule.goes [.markH, .saveHost] [(513, 513)]) ∧
      scanner.leads hostFirst [(63, 63)]
        (Rule.goes [.markH, .saveHost, .savePath] [(456, 456)]) = true ∧
      scanner.leads hostFirst [(35, 35)]
        (Rule.goes [.markH, .saveHost, .savePath] [(453, 453)]) = true ∧
      endsWith hostFirst [.markH, .saveHost, .savePath] = true := by
    decide +kernel
  exact ⟨h.1, h.2.1, h.2.2.1, h.2.2.2⟩

/-- The exits behind a host. -/
theorem host_exits : Exits hostStates [.saveHost, .markH] [.saveHost, .markH, .savePath] := by
  have h : scanner.leads hostStates [(47, 47)] (Rule.goes [.saveHost, .markH] [(513, 513)]) ∧
      scanner.leads hostStates [(63, 63)]
        (Rule.goes [.saveHost, .markH, .savePath] [(456, 456)]) = true ∧
      scanner.leads hostStates [(35, 35)]
        (Rule.goes [.saveHost, .markH, .savePath] [(453, 453)]) = true ∧
      endsWith hostStates [.saveHost, .markH, .savePath] = true := by
    decide +kernel
  exact ⟨h.1, h.2.1, h.2.2.1, h.2.2.2⟩

/-- The scan of a host that is not empty. -/
theorem runs_host (buf : List UInt8) (p : Nat) (s : Parsing) {h : List UInt8}
    (hform : HostForm h) (hne : h ≠ []) (hq : inRanges hostFirst q = true)
    (haccepts : Accepts q (h ++ rest)) :
    ∃ q', inRanges hostStates q' = true ∧ Runs buf q p s h q' { s with mark := some p } ∧
      Accepts q' rest := by
  obtain ⟨hfirst, hstays, hbracket, hliteral, hclose⟩ := host_rules
  cases hform with
  | name hh => exact runs_marked buf p s (.inr rfl) hfirst hstays hq hne hh haccepts
  | @literal x hx =>
      have haccepts' : Accepts q (91 :: (x ++ 93 :: rest)) := by simpa using haccepts
      obtain ⟨q₁, hq₁, hrun, hrest⟩ := runs_byte hbracket hq (b := 91) rfl haccepts'
        (perform_mark buf p s (.inr rfl))
      obtain ⟨q₂, hq₂, hsilent, hrest₂⟩ := Scanner.accepts_append_of_stays hliteral hq₁ hx hrest
      obtain ⟨q₃, hq₃, hrun₃, hrest₃⟩ := runs_byte hclose hq₂ (b := 93) rfl hrest₂
        (perform_none buf (p + (91 :: x).length) { s with mark := some p })
      exact ⟨q₃, hq₃, (hrun.append (.of_silent hsilent)).append hrun₃, hrest₃⟩

/-- The object with the parts of a reference behind its userinfo. -/
def withAuthority (uri : Uri) (host : List UInt8) (port : Option (List UInt8))
    (path : List UInt8) : Uri :=
  { uri with host := host, port := port.elim uri.port Http.atoi, path := path }

/-- **The host**, and all behind it. -/
theorem finishes_host {h path : List UInt8} {port query fragment : Option (List UInt8)}
    (hform : HostForm h) (hq : inRanges hostFirst q = true) (hport : Matches port .port)
    (hpath : Derives uriRl (ref .pathAbempty) path) (hmq : Matches query .query)
    (hmf : Matches fragment .fragment)
    (hbuf : buf = pre ++ (h ++ (marked 58 port ++
      (path ++ (marked 63 query ++ marked 35 fragment)))))
    (haccepts : Accepts q (h ++ (marked 58 port ++
      (path ++ (marked 63 query ++ marked 35 fragment))))) :
    Finishes buf q pre.length s
      (h ++ (marked 58 port ++ (path ++ (marked 63 query ++ marked 35 fragment))))
      (if port = some [] then none
        else some (Parsing.withTail ⟨withAuthority s.uri h port path, none⟩ query fragment)) := by
  obtain ⟨hcolon_empty, hcolon⟩ := host_colon
  -- the end of the host, empty or not
  obtain ⟨R, slash, tail, colon, q', s₁, s₂, hexits, hleads, hq', hrun, hrest, hslash, htail,
      hsave, huri⟩ :
      ∃ R slash tail colon q' s₁ s₂, Exits R slash tail ∧
        scanner.leads R [(58, 58)] (Rule.goes colon portFirst) = true ∧ inRanges R q' = true ∧
        Runs buf q pre.length s h q' s₁ ∧
        Accepts q' (marked 58 port ++ (path ++ (marked 63 query ++ marked 35 fragment))) ∧
        perform (act buf) (slash.map ((pre ++ h).length, ·)) s₁ =
          some ⟨{ s.uri with host := h }, some (pre ++ h).length⟩ ∧
        perform (act buf) (tail.map ((pre ++ h).length, ·)) s₁ =
          some ⟨{ s.uri with host := h, path := [] }, none⟩ ∧
        perform (act buf) (colon.map ((pre ++ h).length, ·)) s₁ = some s₂ ∧
        s₂.uri = { s.uri with host := h } := by
    by_cases hne : h = []
    · subst hne
      exact ⟨_, _, _, _, q, s, ⟨{ s.uri with host := [] }, some pre.length⟩, hostFirst_exits,
        hcolon_empty, hq, .of_silent (Scanner.Silent.nil q), haccepts,
        by simp [perform, act, token_self], by simp [perform, act, Parsing.save, token_self],
        by simp [perform, act, token_self], rfl⟩
    · obtain ⟨q', hq', hrun, hrest⟩ := runs_host buf pre.length s hform hne hq haccepts
      have htoken : Http.token buf pre.length (pre ++ h).length = some h := by
        rw [hbuf, List.length_append]
        exact token_part pre h _
      refine ⟨_, _, _, _, q', _, ⟨{ s.uri with host := h }, some pre.length⟩, host_exits, hcolon,
        hq', hrun, hrest, ?_, ?_, ?_, rfl⟩
      · simp only [List.map_cons, List.map_nil, perform, act, Option.elim_some, htoken,
          Option.map_some, Option.bind_some]
      · simp only [List.map_cons, List.map_nil, perform, act, Option.elim_some, htoken,
          Option.map_some, Option.bind_some, Parsing.save, token_self]
      · simp only [List.map_cons, List.map_nil, perform, act, Option.elim_some, htoken,
          Option.map_some, Option.bind_some]
  refine hrun.finishes ?_
  rw [← List.length_append]
  cases port with
  | none =>
      have hbuf' : buf = pre ++ h ++ (path ++ (marked 63 query ++ marked 35 fragment)) := by
        simpa [marked] using hbuf
      exact finishes_path { s.uri with host := h } (some (pre ++ h).length) hexits hq' hslash htail
        (by simp) hpath hmq hmf hbuf' hrest
  | some d =>
      have hbuf' : buf = pre ++ h ++ [58] ++
          (d ++ (path ++ (marked 63 query ++ marked 35 fragment))) := by
        simpa [marked] using hbuf
      obtain ⟨q₃, hq₃, hrun₃, hrest₃⟩ := runs_byte hleads hq' (b := 58) rfl hrest hsave
      have hall := finishes_port (s := s₂) hq₃ (hport d rfl) hpath hmq hmf hbuf' hrest₃
      have hfinish := hrun₃.finishes (by simpa [Nat.add_assoc] using hall)
      simpa [huri, withAuthority, marked] using hfinish

end Mingo.Uri
