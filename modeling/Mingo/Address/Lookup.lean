import Mathlib.Data.List.TakeWhile
import Mingo.Http.Message

/-!
# The host string of address.cpp

`Address::Lookup` splits its host string into the node and the service that it
passes to `getaddrinfo`: first as `[node]:service`, then at the only colon.
The variable `service` is a pointer into the string; here it is a position.

* `nodeService_unbracketed` -- what becomes of a string without brackets;
* `nodeService_splits_iff` -- the split is the expected one, but for strings
  without brackets that have two colons.
-/

namespace Mingo.Address

open Http (bytes)

/-- `memchr(s.c_str() + start, c, n)`, as a position in `s`. -/
def memchr (s : List UInt8) (start : Nat) (c : UInt8) (n : Nat) : Option Nat :=
  (((s.drop start).take n).findIdx? (· == c)).map (start + ·)

/-- What a function that takes a C string reads of `s`. -/
def cString (s : List UInt8) : List UInt8 := s.takeWhile (· ≠ 0)

def leftBracket : UInt8 := 91
def rightBracket : UInt8 := 93
def colon : UInt8 := 58

/-- The variables `node` and `service` behind the part for IPv6 addresses.  The
byte behind the string is a NUL. -/
def bracketPart (host : List UInt8) : List UInt8 × Option Nat :=
  if host.head? = some leftBracket then
    match memchr host 1 rightBracket (host.length - 1) with
    | some endipv6 =>
        ((host.drop 1).take (endipv6 - 1),
          if (host ++ [0])[endipv6 + 1]? = some colon then some (endipv6 + 2) else none)
    | none => ([], none)
  else ([], none)

/-- The variables behind the part for other nodes. -/
def colonPart (host node : List UInt8) (service : Option Nat) : List UInt8 × Option Nat :=
  if node = [] then
    match memchr host 0 colon host.length with
    | some service =>
        if memchr host (service + 1) colon (host.length - service - 1) = none then
          (host.take service, some (service + 1))
        else (node, some service)
    | none => (node, none)
  else (node, service)

/-- The node and the service that `Address::Lookup` passes to `getaddrinfo`. -/
def nodeService (host : List UInt8) : List UInt8 × Option (List UInt8) :=
  let (node, service) := bracketPart host
  let (node, service) := colonPart host node service
  (cString (if node = [] then host else node), service.map fun i => cString (host.drop i))

/-- The string begins with a pair of brackets. -/
def Bracketed (host : List UInt8) : Prop :=
  ∃ n rest, host = leftBracket :: n ++ rightBracket :: rest

/-- The node and the service that a host string stands for. -/
inductive Splits : List UInt8 → List UInt8 → Option (List UInt8) → Prop
  | bracketsColon (n s : List UInt8) (hn : n ≠ []) (hfree : rightBracket ∉ n) :
      Splits (leftBracket :: n ++ rightBracket :: colon :: s) n (some s)
  | brackets (n : List UInt8) (hn : n ≠ []) (hfree : rightBracket ∉ n) :
      Splits (leftBracket :: n ++ [rightBracket]) n none
  | oneColon (n s : List UInt8) (hn : n ≠ []) (hfree : colon ∉ n) (hrest : colon ∉ s)
      (hplain : ¬ Bracketed (n ++ colon :: s)) : Splits (n ++ colon :: s) n (some s)
  | noService (host : List UInt8) (hplain : ¬ Bracketed host) (hcolon : host.count colon ≠ 1) :
      Splits host host none

/-! ### Searching -/

theorem cString_eq {s : List UInt8} (h : 0 ∉ s) : cString s = s := by
  refine List.takeWhile_eq_self_iff.mpr ?_
  intro b hb
  have hne : b ≠ 0 := by
    rintro rfl
    exact h hb
  simpa using hne

/-- `memchr` over all that is left finds the first byte. -/
theorem memchr_append {s l r : List UInt8} {start n : Nat} {c : UInt8}
    (hdrop : s.drop start = l ++ c :: r) (hn : (s.drop start).length ≤ n) (hfree : c ∉ l) :
    memchr s start c n = some (start + l.length) := by
  have hnone : l.findIdx? (· == c) = none := by
    rw [List.findIdx?_eq_none_iff]
    intro b hb
    have hne : b ≠ c := by
      rintro rfl
      exact hfree hb
    simpa using hne
  rw [memchr, List.take_of_length_le hn, hdrop, List.findIdx?_append, hnone]
  simp [List.findIdx?_cons]

theorem memchr_eq_none_iff {s : List UInt8} {start n : Nat} {c : UInt8}
    (hn : (s.drop start).length ≤ n) : memchr s start c n = none ↔ c ∉ s.drop start := by
  rw [memchr, List.take_of_length_le hn, Option.map_eq_none_iff, List.findIdx?_eq_none_iff]
  constructor
  · intro h hc
    simpa using h c hc
  · intro h b hb
    have hne : b ≠ c := by
      rintro rfl
      exact h hb
    simpa using hne

/-! ### The two parts -/

theorem bracketPart_of_not_bracketed {host : List UInt8} (h : ¬ Bracketed host) :
    bracketPart host = ([], none) := by
  rw [bracketPart]
  split
  · next hhead =>
      obtain ⟨t, rfl⟩ : ∃ t, host = leftBracket :: t := by
        cases host with
        | nil => cases hhead
        | cons b t => exact ⟨t, by simpa using hhead⟩
      have hmissing : rightBracket ∉ t := by
        intro hmem
        obtain ⟨l, r, rfl⟩ := List.append_of_mem hmem
        exact h ⟨l, r, rfl⟩
      have hnone :
          memchr (leftBracket :: t) 1 rightBracket ((leftBracket :: t).length - 1) = none :=
        (memchr_eq_none_iff (by simp)).mpr (by simpa using hmissing)
      rw [hnone]
  · rfl

theorem bracketPart_brackets {n : List UInt8} (rest : List UInt8) (hfree : rightBracket ∉ n) :
    bracketPart (leftBracket :: n ++ rightBracket :: rest) =
      (n, if rest.head? = some colon then some (n.length + 3) else none) := by
  have hfound : memchr (leftBracket :: n ++ rightBracket :: rest) 1 rightBracket
      ((leftBracket :: n ++ rightBracket :: rest).length - 1) = some (1 + n.length) :=
    memchr_append (r := rest) (by simp) (by simp) hfree
  have hnext : (leftBracket :: n ++ rightBracket :: rest ++ [0])[1 + n.length + 1]? = some colon ↔
      rest.head? = some colon := by
    have hdrop : (leftBracket :: n ++ rightBracket :: rest ++ [0])[1 + n.length + 1]? =
        (rest ++ [0])[0]? := by
      have hle : (leftBracket :: n ++ [rightBracket]).length ≤ 1 + n.length + 1 := by
        rw [List.length_append, List.length_cons, List.length_singleton]
        omega
      rw [show leftBracket :: n ++ rightBracket :: rest ++ [0] =
        (leftBracket :: n ++ [rightBracket]) ++ (rest ++ [0]) by simp,
        List.getElem?_append_right hle]
      congr 1
      simp
      omega
    rw [hdrop]
    cases rest with
    | nil => decide
    | cons b t => simp
  rw [bracketPart, if_pos (by simp), hfound]
  simp only [hnext]
  rw [show 1 + n.length - 1 = n.length by omega, show 1 + n.length + 2 = n.length + 3 by omega]
  simp

theorem colonPart_of_not_mem {host : List UInt8} (service : Option Nat) (h : colon ∉ host) :
    colonPart host [] service = ([], none) := by
  have hnone : memchr host 0 colon host.length = none :=
    (memchr_eq_none_iff (by simp)).mpr (by simpa using h)
  rw [colonPart, if_pos rfl, hnone]

/-- At the first colon: it splits the string if no second one follows. -/
theorem colonPart_append {n s : List UInt8} (service : Option Nat) (hfree : colon ∉ n) :
    colonPart (n ++ colon :: s) [] service =
      if colon ∉ s then (n, some (n.length + 1)) else ([], some n.length) := by
  have hfound : memchr (n ++ colon :: s) 0 colon (n ++ colon :: s).length =
      some (0 + n.length) := memchr_append (r := s) (by simp) (by simp) hfree
  have hdrop : (n ++ colon :: s).drop (0 + n.length + 1) = s := by
    rw [List.append_cons, show 0 + n.length + 1 = (n ++ [colon]).length by simp, List.drop_left]
  have hsecond : memchr (n ++ colon :: s) (0 + n.length + 1) colon
      ((n ++ colon :: s).length - (0 + n.length) - 1) = none ↔ colon ∉ s := by
    rw [memchr_eq_none_iff (by rw [hdrop]; simp), hdrop]
  rw [colonPart, if_pos rfl, hfound]
  simp only [hsecond]
  simp

/-! ### The split -/

/-- A string without brackets. -/
theorem nodeService_unbracketed {n s : List UInt8} (hnul : 0 ∉ n ++ colon :: s)
    (hplain : ¬ Bracketed (n ++ colon :: s)) (hfree : colon ∉ n) :
    nodeService (n ++ colon :: s) =
      if colon ∉ s then (if n = [] then n ++ colon :: s else n, some s)
      else (n ++ colon :: s, some (colon :: s)) := by
  obtain ⟨hn, hs⟩ : 0 ∉ n ∧ 0 ∉ colon :: s := by simpa [not_or] using hnul
  have hs' : 0 ∉ s := fun h => hs (List.mem_cons_of_mem _ h)
  have hdrop : (n ++ colon :: s).drop (n.length + 1) = s := by
    rw [List.append_cons, show n.length + 1 = (n ++ [colon]).length by simp, List.drop_left]
  simp only [nodeService, bracketPart_of_not_bracketed hplain, colonPart_append none hfree]
  by_cases hone : colon ∈ s
  · simp only [hone, not_true_eq_false, if_false, if_true, Option.map_some, List.drop_left,
      cString_eq hnul, cString_eq hs]
  · simp only [hone, not_false_eq_true, if_true, Option.map_some, hdrop, cString_eq hs']
    split
    · rw [cString_eq hnul]
    · rw [cString_eq hn]

theorem nodeService_of_no_colon {host : List UInt8} (hnul : 0 ∉ host) (hplain : ¬ Bracketed host)
    (hcolon : colon ∉ host) : nodeService host = (host, none) := by
  simp only [nodeService, bracketPart_of_not_bracketed hplain, colonPart_of_not_mem none hcolon,
    if_true, cString_eq hnul, Option.map_none]

/-- A node in brackets. -/
theorem nodeService_bracketed {n rest : List UInt8}
    (hnul : 0 ∉ leftBracket :: n ++ rightBracket :: rest) (hn : n ≠ []) (hfree : rightBracket ∉ n) :
    nodeService (leftBracket :: n ++ rightBracket :: rest) =
      (n, if rest.head? = some colon then some rest.tail else none) := by
  obtain ⟨hnode, hrest⟩ : 0 ∉ n ∧ 0 ∉ rest := by
    constructor <;> intro h <;> exact hnul (by simp [h])
  have hparts : colonPart (leftBracket :: n ++ rightBracket :: rest) n
      (if rest.head? = some colon then some (n.length + 3) else none) =
        (n, if rest.head? = some colon then some (n.length + 3) else none) := by
    rw [colonPart, if_neg hn]
  simp only [nodeService, bracketPart_brackets rest hfree, hparts, if_neg hn, cString_eq hnode]
  congr 1
  cases rest with
  | nil => rfl
  | cons b t =>
      have hdrop : (leftBracket :: n ++ rightBracket :: b :: t).drop (n.length + 3) = t := by
        rw [show leftBracket :: n ++ rightBracket :: b :: t =
          (leftBracket :: n ++ [rightBracket, b]) ++ t by simp,
          show n.length + 3 = (leftBracket :: n ++ [rightBracket, b]).length by simp,
          List.drop_left]
      have ht : 0 ∉ t := fun h => hrest (List.mem_cons_of_mem _ h)
      split
      · rw [Option.map_some, hdrop, cString_eq ht, List.tail_cons]
      · rfl

/-- **The split of a host string** is the expected one, except that a string without brackets
must not have two colons. -/
theorem nodeService_splits_iff {host : List UInt8} (hnul : 0 ∉ host) :
    (∀ node service, Splits host node service → nodeService host = (node, service)) ↔
      (Bracketed host ∨ host.count colon < 2) := by
  constructor
  · intro h
    by_contra hnot
    obtain ⟨hplain, hcolon⟩ := not_or.mp hnot
    have hsplit := h host none (.noService host hplain (by omega))
    have hmem : colon ∈ host := List.count_pos_iff.mp (by omega)
    obtain ⟨n, s, rfl, hfree⟩ := List.eq_append_cons_of_mem hmem
    rw [nodeService_unbracketed hnul hplain hfree] at hsplit
    have hnone := congrArg Prod.snd hsplit
    split at hnone <;> cases hnone
  · intro hwhen node service hsplits
    cases hsplits with
    | bracketsColon _ s hn hfree => rw [nodeService_bracketed hnul hn hfree]; rfl
    | brackets _ hn hfree => rw [nodeService_bracketed hnul hn hfree]; rfl
    | oneColon n s hn hfree hrest hplain =>
        rw [nodeService_unbracketed hnul hplain hfree, if_pos hrest, if_neg hn]
    | noService _ hplain hcolon =>
        have hfew : host.count colon < 2 := hwhen.resolve_left hplain
        have hnone : colon ∉ host := List.count_eq_zero.mp (by omega)
        exact nodeService_of_no_colon hnul hplain hnone

/-- `[::1]:80` is split behind its brackets. -/
theorem nodeService_splits_loopback :
    (∀ node service, Splits (bytes "[::1]:80") node service →
      nodeService (bytes "[::1]:80") = (node, service)) ↔
        (Bracketed (bytes "[::1]:80") ∨ (bytes "[::1]:80").count colon < 2) :=
  nodeService_splits_iff (by decide)

/-- **An IPv6 address without brackets** is looked up with a service. -/
theorem nodeService_fe80 :
    Splits (bytes "fe80::1") (bytes "fe80::1") none ∧
      nodeService (bytes "fe80::1") = (bytes "fe80::1", some (bytes "::1")) ∧
      ¬ ∀ node service, Splits (bytes "fe80::1") node service →
        nodeService (bytes "fe80::1") = (node, service) := by
  have hplain : ¬ Bracketed (bytes "fe80::1") := by
    rintro ⟨n, rest, h⟩
    have hhead : (bytes "fe80::1").head? = some leftBracket := congrArg List.head? h
    exact absurd hhead (by decide)
  have hsplits : Splits (bytes "fe80::1") (bytes "fe80::1") none :=
    .noService _ hplain (by decide)
  have hcode : nodeService (bytes "fe80::1") = (bytes "fe80::1", some (bytes "::1")) := by decide
  refine ⟨hsplits, hcode, fun h => ?_⟩
  exact absurd (hcode.symm.trans (h _ _ hsplits)) (by decide)

end Mingo.Address
