import Mingo.Lib.Splice
import Mingo.Stream.Basic

/-!
# Transfers of a fixed size

`Stream::readFixSize` and `Stream::writeFixSize` call the virtual `read` or `write` until
`length` bytes are through or a call returns no positive result.  The length is a `size_t`,
the loop counts it down as an `int64_t`, and the function returns it as an `int`.

The results of the calls are a sequence, the buffer a list of bytes.

* `fixSizeLoop_spec` -- what the loop does, for every sequence of results;
* `store_eq`, `sent_eq` -- which bytes a list of consecutive calls transfers;
* `reportsCompletion_iff` -- when the result tells whether all bytes are through;
* `fixSize_results` -- a `SocketStream` is a case of it.
-/

namespace Mingo

namespace Stream

/-- A call of `read` or `write`: where in the buffer, how much was asked for, the result. -/
structure Call where
  offset : Nat
  asked : Nat
  result : Int
  deriving DecidableEq, Repr

/-- The loop, before the call number `k`.  Every turn but the last transfers a byte, so as
many turns as there are bytes are enough. -/
def fixSizeLoop (results : Nat → Int) (length : UInt64) :
    Nat → Nat → Nat → Int → Option (List Call × Int)
  | 0, _, _, left => if left ≤ 0 then some ([], toInt32 length.toNat) else none
  | turns + 1, k, offset, left =>
      if left ≤ 0 then some ([], toInt32 length.toNat)
      else
        let len := results k
        let call : Call := ⟨offset, left.toNat, len⟩
        if len ≤ 0 then some ([call], len)
        else
          (fixSizeLoop results length turns (k + 1) (offset + len.toNat) (left - len)).map
            fun r => (call :: r.1, r.2)

/-- The calls and the result of a transfer of `length` bytes. -/
def fixSize (length : UInt64) (results : Nat → Int) : Option (List Call × Int) :=
  fixSizeLoop results length length.toNat 0 0 (toInt64 length.toNat)

/-- The calls of `read` store the bytes `incoming`, each from its offset on. -/
def store (buffer incoming : List UInt8) : List Call → List UInt8
  | [] => buffer
  | call :: calls =>
      store (buffer.splice call.offset (incoming.take call.result.toNat))
        (incoming.drop call.result.toNat) calls

/-- The bytes that the calls of `write` take from the buffer. -/
def sent (buffer : List UInt8) (calls : List Call) : List UInt8 :=
  calls.flatMap fun call => (buffer.drop call.offset).take call.result.toNat

/-- `Stream::readFixSize` of a stream that delivers `incoming`: the calls, the result and the
buffer. -/
def readFixSize (buffer incoming : List UInt8) (length : UInt64) (results : Nat → Int) :
    Option (List Call × Int × List UInt8) :=
  (fixSize length results).map fun r => (r.1, r.2, store buffer incoming r.1)

/-- `Stream::writeFixSize`: the calls, the result and the bytes that were sent. -/
def writeFixSize (buffer : List UInt8) (length : UInt64) (results : Nat → Int) :
    Option (List Call × Int × List UInt8) :=
  (fixSize length results).map fun r => (r.1, r.2, sent buffer r.1)

/-- How many bytes the first calls transfer. -/
def moved (results : Nat → Int) : Nat → Nat
  | 0 => 0
  | k + 1 => moved results k + (results k).toNat

/-- The call number `k` behind those before it. -/
def callAt (length : UInt64) (results : Nat → Int) (k : Nat) : Call where
  offset := moved results k
  asked := length.toNat - moved results k
  result := results k

/-- No call transfers more than it is asked for. -/
def Bounded (length : UInt64) (results : Nat → Int) : Prop :=
  ∀ k, (∀ i < k, 0 < results i) → moved results k < length.toNat →
    (results k).toNat ≤ length.toNat - moved results k

/-- The calls bring all bytes before one of them fails. -/
def Delivers (length : UInt64) (results : Nat → Int) : Prop :=
  ∃ k, (∀ i < k, 0 < results i) ∧ moved results k = length.toNat

/-- The calls follow each other in the buffer, the result is positive exactly when all bytes
are through, and is otherwise the first that is not positive. -/
structure ReportsCompletion (length : UInt64) (results : Nat → Int) (calls : List Call)
    (result : Int) : Prop where
  consecutive : calls = (List.range calls.length).map (callAt length results)
  positive_iff : 0 < result ↔ moved results calls.length = length.toNat
  failed : moved results calls.length ≠ length.toNat → ∃ k, calls.length = k + 1 ∧
    (∀ i < k, 0 < results i) ∧ results k ≤ 0 ∧ result = results k

variable {length : UInt64} {results : Nat → Int} {calls : List Call} {result : Int}

theorem moved_mono (results : Nat → Int) {k k' : Nat} (h : k ≤ k') :
    moved results k ≤ moved results k' := by
  induction h with
  | refl => exact Nat.le_refl _
  | step _ ih => exact Nat.le_trans ih (Nat.le_add_right _ _)

/-! ### The loop -/

/-- How the loop can end, with the calls it made from the call number `k` on. -/
inductive Ended (length : UInt64) (results : Nat → Int) (k : Nat) (calls : List Call) :
    Int → Prop
  | complete (hpos : ∀ i, k ≤ i → i < k + calls.length → 0 < results i)
      (hall : moved results (k + calls.length) = length.toNat) :
      Ended length results k calls (toInt32 length.toNat)
  | failed (j : Nat) (hcalls : calls.length = j + 1)
      (hpos : ∀ i, k ≤ i → i < k + j → 0 < results i) (hneg : results (k + j) ≤ 0)
      (hless : moved results (k + j) < length.toNat) :
      Ended length results k calls (results (k + j))

/-- **The loop** ends, makes consecutive calls, and ends in one of the two ways. -/
theorem fixSizeLoop_spec (hbound : Bounded length results) {turns : Nat} (k left : Nat)
    (hturns : left ≤ turns) (hpos : ∀ i < k, 0 < results i)
    (hleft : moved results k + left = length.toNat) :
    ∃ calls result,
      fixSizeLoop results length turns k (moved results k) left = some (calls, result) ∧
        calls = (List.range' k calls.length).map (callAt length results) ∧
        Ended length results k calls result := by
  induction turns generalizing k left with
  | zero =>
      obtain rfl : left = 0 := by omega
      exact ⟨[], _, rfl, rfl, .complete (by simp; omega) hleft⟩
  | succ turns ih =>
      rcases Nat.eq_zero_or_pos left with rfl | hsome
      · exact ⟨[], _, rfl, rfl, .complete (by simp; omega) hleft⟩
      · have hgo : ¬ (left : Int) ≤ 0 := by omega
        have hcall : (⟨moved results k, (left : Int).toNat, results k⟩ : Call) =
            callAt length results k := by
          rw [Int.toNat_natCast, callAt, ← hleft, Nat.add_sub_cancel_left]
        simp only [fixSizeLoop, if_neg hgo, hcall]
        by_cases hfail : results k ≤ 0
        · rw [if_pos hfail]
          exact ⟨_, _, rfl, rfl,
            .failed 0 rfl (by omega) hfail (by simp only [Nat.add_zero]; omega)⟩
        · have hle := hbound k hpos (by omega)
          have hcast : (left : Int) - results k = ((left - (results k).toNat : Nat) : Int) := by
            omega
          have hmore : ∀ i < k + 1, 0 < results i := by
            intro i hi
            by_cases heq : i = k
            · rw [heq]
              omega
            · exact hpos i (by omega)
          have hnext : moved results (k + 1) = moved results k + (results k).toNat := rfl
          obtain ⟨calls, result, hloop, hcalls, hended⟩ :=
            ih (k + 1) (left - (results k).toNat) (by omega) hmore (by omega)
          rw [if_neg hfail, hcast, ← hnext, hloop]
          refine ⟨_, _, rfl, congrArg (callAt length results k :: ·) hcalls, ?_⟩
          cases hended with
          | complete hpos' hall =>
              refine .complete ?_ ?_
              · intro i hki hi
                have hlast : i < k + (calls.length + 1) := hi
                rcases Nat.eq_or_lt_of_le hki with rfl | hki
                · exact hmore k (Nat.lt_succ_self k)
                · exact hpos' i hki (by omega)
              · rw [List.length_cons, Nat.add_comm calls.length, ← Nat.add_assoc]
                exact hall
          | failed j hlen hpos' hneg hless =>
              have hsame : k + 1 + j = k + (j + 1) := by omega
              rw [hsame] at hneg hless ⊢
              refine .failed (j + 1) (by rw [List.length_cons, hlen]) ?_ hneg hless
              intro i hki hi
              rcases Nat.eq_or_lt_of_le hki with rfl | hki
              · exact hmore k (Nat.lt_succ_self k)
              · exact hpos' i hki (by omega)

/-- A length of `2 ^ 63` and more is negative, and nothing is transferred. -/
theorem fixSize_of_ge (h : 2 ^ 63 ≤ length.toNat) :
    fixSize length results = some ([], toInt32 length.toNat) := by
  have hlt := length.toNat_lt
  have hmod : length.toNat % 2 ^ 64 = length.toNat := Nat.mod_eq_of_lt hlt
  have hneg : toInt64 length.toNat ≤ 0 := by
    rw [toInt64, toSigned, hmod, if_neg (by omega)]
    omega
  cases hturns : length.toNat with
  | zero => omega
  | succ turns => rw [fixSize, hturns, fixSizeLoop, ← hturns, if_pos hneg]

theorem fixSize_spec (hbound : Bounded length results) (h : length.toNat < 2 ^ 63) :
    ∃ calls result, fixSize length results = some (calls, result) ∧
      calls = (List.range calls.length).map (callAt length results) ∧
      Ended length results 0 calls result := by
  obtain ⟨calls, result, hloop, hcalls, hended⟩ := fixSizeLoop_spec hbound 0 length.toNat
    (Nat.le_refl length.toNat) (by omega) (Nat.zero_add _)
  refine ⟨calls, result, ?_, ?_, hended⟩
  · rw [fixSize, toInt64_of_lt h]
    exact hloop
  · rw [List.range_eq_range']
    exact hcalls

/-! ### The bytes -/

theorem moved_succ_sub (results : Nat → Int) (k n : Nat) :
    moved results (k + (n + 1)) - moved results k =
      (results k).toNat + (moved results (k + 1 + n) - moved results (k + 1)) := by
  have hsame : k + (n + 1) = k + 1 + n := by omega
  have hmono := moved_mono results (Nat.le_add_right (k + 1) n)
  have hnext : moved results (k + 1) = moved results k + (results k).toNat := rfl
  rw [hsame]
  omega

/-- Consecutive calls of `read` store one stretch of the incoming bytes. -/
theorem store_range (length : UInt64) (buffer incoming : List UInt8) (k n : Nat)
    (hbuffer : moved results (k + n) ≤ buffer.length)
    (hincoming : moved results (k + n) - moved results k ≤ incoming.length) :
    store buffer incoming ((List.range' k n).map (callAt length results)) =
      buffer.splice (moved results k)
        (incoming.take (moved results (k + n) - moved results k)) := by
  induction n generalizing k buffer incoming with
  | zero => simp [store]
  | succ n ih =>
      have hsub := moved_succ_sub results k n
      have hsame : k + (n + 1) = k + 1 + n := by omega
      have hmono := moved_mono results (Nat.le_add_right (k + 1) n)
      have hnext : moved results (k + 1) = moved results k + (results k).toNat := rfl
      rw [hsame] at hbuffer hincoming
      have htaken : (incoming.take (results k).toNat).length = (results k).toNat := by
        rw [List.length_take]
        omega
      have hsplice : (buffer.splice (moved results k)
          (incoming.take (results k).toNat)).length = buffer.length :=
        List.length_splice (by omega)
      have hmore := ih (buffer.splice (moved results k) (incoming.take (results k).toNat))
        (incoming.drop (results k).toNat) (k + 1) (by omega) (by rw [List.length_drop]; omega)
      have hcat := List.splice_splice (incoming.take (results k).toNat)
        ((incoming.drop (results k).toNat).take
          (moved results (k + 1 + n) - moved results (k + 1)))
        (show moved results k ≤ buffer.length by omega)
      rw [htaken, ← hnext, ← List.take_add] at hcat
      rw [hsub, ← hcat, ← hmore]
      rfl

/-- Consecutive calls of `write` send one stretch of the buffer. -/
theorem sent_range (length : UInt64) (results : Nat → Int) (buffer : List UInt8) (k n : Nat) :
    sent buffer ((List.range' k n).map (callAt length results)) =
      (buffer.drop (moved results k)).take (moved results (k + n) - moved results k) := by
  induction n generalizing k with
  | zero => simp [sent]
  | succ n ih =>
      have hnext : moved results (k + 1) = moved results k + (results k).toNat := rfl
      rw [moved_succ_sub, List.take_add, List.drop_drop, ← hnext, ← ih]
      rfl

theorem store_eq {buffer incoming : List UInt8} {n : Nat}
    (hbuffer : moved results n ≤ buffer.length) (hincoming : moved results n ≤ incoming.length) :
    store buffer incoming ((List.range n).map (callAt length results)) =
      incoming.take (moved results n) ++ buffer.drop (moved results n) := by
  have hstore := store_range length buffer incoming 0 n (by rwa [Nat.zero_add])
    (by rwa [Nat.zero_add, moved, Nat.sub_zero])
  rw [Nat.zero_add, ← List.range_eq_range', moved, Nat.sub_zero] at hstore
  rw [hstore, List.splice, List.length_take, Nat.min_eq_left hincoming, Nat.zero_add,
    List.take_zero, List.nil_append]

theorem sent_eq {buffer : List UInt8} {n : Nat} :
    sent buffer ((List.range n).map (callAt length results)) =
      buffer.take (moved results n) := by
  have hsent := sent_range length results buffer 0 n
  rwa [Nat.zero_add, ← List.range_eq_range', moved, Nat.sub_zero, List.drop_zero] at hsent

/-! ### The result -/

/-- `readFixSize` stores the incoming bytes in order, and its result tells whether they are all
there. -/
def ReadCompletes (length : UInt64) (results : Nat → Int) : Prop :=
  ∀ buffer incoming : List UInt8, length.toNat ≤ buffer.length → length.toNat ≤ incoming.length →
    ∃ calls result, readFixSize buffer incoming length results =
        some (calls, result, incoming.take (moved results calls.length) ++
          buffer.drop (moved results calls.length)) ∧
      ReportsCompletion length results calls result

/-- `writeFixSize` sends the bytes of the buffer in order, and its result tells whether they
are all sent. -/
def WriteCompletes (length : UInt64) (results : Nat → Int) : Prop :=
  ∀ buffer : List UInt8, length.toNat ≤ buffer.length →
    ∃ calls result, writeFixSize buffer length results =
        some (calls, result, buffer.take (moved results calls.length)) ∧
      ReportsCompletion length results calls result

theorem moved_le_of_ended (h : Ended length results 0 calls result) :
    moved results calls.length ≤ length.toNat := by
  cases h with
  | complete hpos hall =>
      rw [Nat.zero_add] at hall
      exact Nat.le_of_eq hall
  | failed j hcalls hpos hneg hless =>
      rw [Nat.zero_add] at hneg hless
      have hlast : moved results (j + 1) = moved results j + (results j).toNat := rfl
      rw [hcalls]
      omega

/-- Both functions do what the loop does. -/
theorem completes_of_reports (hsize : length.toNat < 2 ^ 63)
    (hbound : Bounded length results)
    (hreports : ∀ calls result, fixSize length results = some (calls, result) →
      ReportsCompletion length results calls result) :
    ReadCompletes length results ∧ WriteCompletes length results := by
  obtain ⟨calls, result, hfix, hcalls, hended⟩ := fixSize_spec hbound hsize
  have hle := moved_le_of_ended hended
  constructor
  · intro buffer incoming hbuffer hincoming
    refine ⟨calls, result, ?_, hreports calls result hfix⟩
    rw [readFixSize, hfix, Option.map_some, hcalls, List.length_map, List.length_range,
      store_eq (by omega) (by omega)]
  · intro buffer hbuffer
    refine ⟨calls, result, ?_, hreports calls result hfix⟩
    rw [writeFixSize, hfix, Option.map_some, hcalls, List.length_map, List.length_range, sent_eq]

theorem reports_of_reads (h : ReadCompletes length results) :
    ∃ calls result, fixSize length results = some (calls, result) ∧
      ReportsCompletion length results calls result := by
  obtain ⟨calls, result, hread, hreports⟩ := h (List.replicate length.toNat 0)
    (List.replicate length.toNat 0) (by simp) (by simp)
  obtain ⟨⟨calls', result'⟩, hfix, heq⟩ := Option.map_eq_some_iff.mp hread
  obtain ⟨rfl, hrest⟩ := Prod.mk.inj heq
  obtain ⟨rfl, -⟩ := Prod.mk.inj hrest
  exact ⟨calls', result', hfix, hreports⟩

/-- A call that fails in front of the last byte keeps the bytes from being delivered. -/
theorem not_delivers {k : Nat} (hneg : results k ≤ 0) (hless : moved results k < length.toNat) :
    ¬ Delivers length results := by
  rintro ⟨k', hpos, hall⟩
  have hle : k' ≤ k := by
    by_contra hgt
    have hk := hpos k (by omega)
    omega
  have hmono := moved_mono results hle
  omega

/-- **Completion.**  For every length and every sequence of results, both functions transfer
the bytes in order and tell by a positive result that all are through, exactly when the length
is no negative `int64_t` and, where all bytes come through, a positive `int`. -/
theorem reportsCompletion_iff (hbound : Bounded length results) :
    ReadCompletes length results ∧ WriteCompletes length results ↔
      length.toNat < 2 ^ 63 ∧ (Delivers length results → 0 < toInt32 length.toNat) := by
  by_cases hsize : length.toNat < 2 ^ 63
  · obtain ⟨calls, result, hfix, hcalls, hended⟩ := fixSize_spec hbound hsize
    constructor
    · rintro ⟨hread, -⟩
      obtain ⟨calls', result', hfix', hreports⟩ := reports_of_reads hread
      rw [hfix] at hfix'
      cases hfix'
      refine ⟨hsize, fun hdelivers => ?_⟩
      cases hended with
      | complete hpos hall =>
          rw [Nat.zero_add] at hall
          exact hreports.positive_iff.mpr hall
      | failed j hlen hpos hneg hless =>
          rw [Nat.zero_add] at hneg hless
          exact absurd hdelivers (not_delivers hneg hless)
    · rintro ⟨-, hpositive⟩
      refine completes_of_reports hsize hbound fun calls' result' hfix' => ?_
      rw [hfix] at hfix'
      cases hfix'
      cases hended with
      | complete hpos hall =>
          rw [Nat.zero_add] at hall hpos
          have hresult := hpositive ⟨_, fun i hi => hpos i (Nat.zero_le i) hi, hall⟩
          exact ⟨hcalls, ⟨fun _ => hall, fun _ => hresult⟩, fun hne => absurd hall hne⟩
      | failed j hlen hpos hneg hless =>
          rw [Nat.zero_add] at hneg hless hpos ⊢
          have hlast : moved results (j + 1) = moved results j + (results j).toNat := rfl
          have hmoved : moved results calls.length ≠ length.toNat := by
            rw [hlen]
            omega
          refine ⟨hcalls, ⟨fun h => by omega, fun h => absurd h hmoved⟩, fun _ => ?_⟩
          exact ⟨j, hlen, fun i hi => hpos i (Nat.zero_le i) hi, hneg, rfl⟩
  · constructor
    · rintro ⟨hread, -⟩
      obtain ⟨calls, result, hfix, hreports⟩ := reports_of_reads hread
      rw [fixSize_of_ge (by omega)] at hfix
      cases hfix
      -- no call was made
      obtain ⟨k, hlen, -⟩ := hreports.failed (by simp only [List.length_nil, moved]; omega)
      cases hlen
    · rintro ⟨hlt, -⟩
      exact absurd hlt hsize

/-- Two calls that bring all bytes. -/
theorem bounded_two {a b : Int} (h : a.toNat + b.toNat = length.toNat) :
    Bounded length fun k => if k = 0 then a else b := by
  intro k _ hless
  have htwo : moved (fun k => if k = 0 then a else b) 2 = length.toNat := by
    rw [← h]
    simp [moved]
  cases k with
  | zero =>
      simp only [moved, if_true]
      omega
  | succ k =>
      cases k with
      | zero =>
          simp only [moved, if_true, Nat.zero_add, if_neg Nat.one_ne_zero]
          omega
      | succ k =>
          have hmono := moved_mono (fun k => if k = 0 then a else b) (show 2 ≤ k + 1 + 1 by omega)
          omega

/-- Five bytes in two calls. -/
theorem reportsCompletion_iff_five :
    (ReadCompletes 5 (fun k => if k = 0 then 2 else 3) ∧
      WriteCompletes 5 (fun k => if k = 0 then 2 else 3)) ∧
      fixSize 5 (fun k => if k = 0 then 2 else 3) = some ([⟨0, 5, 2⟩, ⟨2, 3, 3⟩], 5) :=
  ⟨(reportsCompletion_iff (bounded_two rfl)).mpr ⟨by decide, fun _ => by decide⟩, by decide⟩

/-- `2 ^ 31` bytes in two calls, reported by a negative number, and a length above `2 ^ 63`,
reported by 1 though no call was made. -/
theorem not_reportsCompletion :
    (Bounded 0x80000000 (fun k => if k = 0 then 0x7fffffff else 1) ∧
      fixSize 0x80000000 (fun k => if k = 0 then 0x7fffffff else 1) =
        some ([⟨0, 0x80000000, 0x7fffffff⟩, ⟨0x7fffffff, 1, 1⟩], -0x80000000) ∧
      ¬ ReadCompletes 0x80000000 (fun k => if k = 0 then 0x7fffffff else 1)) ∧
    Bounded 0x8000000000000001 (fun _ => 0) ∧
      fixSize 0x8000000000000001 (fun _ => 0) = some ([], 1) ∧
      ¬ ReadCompletes 0x8000000000000001 fun _ => 0 := by
  have hlong : fixSize 0x80000000 (fun k => if k = 0 then 0x7fffffff else 1) =
      some ([⟨0, 0x80000000, 0x7fffffff⟩, ⟨0x7fffffff, 1, 1⟩], -0x80000000) := by decide
  have hnone : fixSize 0x8000000000000001 (fun _ => 0) = some ([], 1) := by decide
  refine ⟨⟨bounded_two rfl, hlong, fun hread => ?_⟩, fun k _ _ => Nat.zero_le _, hnone,
    fun hread => ?_⟩
  · obtain ⟨calls, result, hfix, hreports⟩ := reports_of_reads hread
    rw [hlong] at hfix
    cases hfix
    exact absurd (hreports.positive_iff.mpr rfl) (by decide)
  · obtain ⟨calls, result, hfix, hreports⟩ := reports_of_reads hread
    rw [hnone] at hfix
    cases hfix
    exact absurd (hreports.positive_iff.mp (by decide)) (by decide)

/-! ### The socket stream -/

/-- The results of the calls of `read` on a socket stream, 0 for a failed one. -/
def socketResults : SocketStream → Nat → Nat → Int
  | s, left, 0 => (s.read left).1.length
  | s, left, k + 1 => socketResults (s.read left).2 (left - (s.read left).1.length) k

theorem fixSizeLoop_socket (length : UInt64) {turns left : Nat} {s : SocketStream}
    (k offset : Nat)
    (hturns : left ≤ turns) (hresults : ∀ i, results (k + i) = socketResults s left i) :
    (fixSizeLoop results length turns k offset left).map Prod.snd =
      some ((SocketStream.readLoop turns left s).1.elim 0 fun _ => toInt32 length.toNat) := by
  induction turns generalizing k offset left s with
  | zero =>
      obtain rfl : left = 0 := by omega
      rfl
  | succ turns ih =>
      cases left with
      | zero => rfl
      | succ left =>
          have hgo : ¬ ((left + 1 : Nat) : Int) ≤ 0 := by omega
          have hfirst : results k = (s.read (left + 1)).1.length := hresults 0
          have hle := s.length_read_le (left + 1)
          simp only [fixSizeLoop, if_neg hgo, SocketStream.readLoop, hfirst]
          by_cases hnil : (s.read (left + 1)).1 = []
          · simp [hnil]
          · have hpos := List.length_pos_iff.mpr hnil
            have hsome : ¬ ((s.read (left + 1)).1.length : Int) ≤ 0 := by omega
            have hcast : ((left + 1 : Nat) : Int) - (s.read (left + 1)).1.length =
                ((left + 1 - (s.read (left + 1)).1.length : Nat) : Int) := by
              omega
            have hmore : ∀ i, results (k + 1 + i) = socketResults (s.read (left + 1)).2
                (left + 1 - (s.read (left + 1)).1.length) i := by
              intro i
              rw [Nat.add_assoc, Nat.add_comm 1 i]
              exact hresults (i + 1)
            rw [if_neg hsome, if_neg hnil, hcast, Option.map_map]
            refine (ih (k + 1) _ (by omega) hmore).trans ?_
            cases (SocketStream.readLoop turns (left + 1 - (s.read (left + 1)).1.length)
              (s.read (left + 1)).2).1 with
            | none => rfl
            | some bs => rfl

/-- **The socket stream** reads a fixed size as the loop does on the results of its `read`. -/
theorem fixSize_results (s : SocketStream) (h : length.toNat < 2 ^ 63) :
    (fixSize length (socketResults s length.toNat)).map Prod.snd =
      some (s.readFixSize length.toNat).1 := by
  have hloop := fixSizeLoop_socket length 0 0 (Nat.le_refl length.toNat)
    fun i => congrArg (socketResults s length.toNat) (Nat.zero_add i)
  rw [fixSize, toInt64_of_lt h, hloop, SocketStream.readFixSize]
  cases hread : SocketStream.readLoop length.toNat length.toNat s with
  | mk r s' =>
      cases r with
      | none => rfl
      | some bs => rfl

end Stream

end Mingo
