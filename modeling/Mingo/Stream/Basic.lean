import Mathlib.Algebra.Group.Int.Defs
import Mathlib.Algebra.Group.Nat.Defs
import Mathlib.Data.List.TakeWhile

/-!
# The socket stream of socket_stream.cpp and stream.cpp

A `SocketStream` reads what the peer sends.  The bytes arrive in pieces, and a
`read` never joins two of them: it returns what is left of the first piece, or
as much of it as was asked for.  The callers only tell a positive result from
the others, so a failed `read` (0 at the end of the stream, -1 when it is not
connected) is the empty list of bytes.

* `readFixSize_arrived` -- `readFixSize` collects exactly the bytes asked for,
  when that many arrive, and fails otherwise.
-/

namespace Mingo

/-- Conversion of an unsigned value to a signed integer of `w` bits. -/
def toSigned (w n : Nat) : Int :=
  if n % 2 ^ w < 2 ^ (w - 1) then (n % 2 ^ w : Nat) else (n % 2 ^ w : Nat) - (2 ^ w : Nat)

/-- Conversion to `int`. -/
def toInt32 (n : Nat) : Int := toSigned 32 n

/-- Conversion to `int64_t`. -/
def toInt64 (n : Nat) : Int := toSigned 64 n

theorem toInt32_of_lt {n : Nat} (h : n < 2 ^ 31) : toInt32 n = n := by
  have hmod : n % 2 ^ 32 = n := Nat.mod_eq_of_lt (by omega)
  rw [toInt32, toSigned, hmod, if_pos h]

theorem toInt64_of_lt {n : Nat} (h : n < 2 ^ 63) : toInt64 n = n := by
  have hmod : n % 2 ^ 64 = n := Nat.mod_eq_of_lt (by omega)
  rw [toInt64, toSigned, hmod, if_pos h]

theorem toInt32_bounds (n : Nat) : -(2 ^ 31) ≤ toInt32 n ∧ toInt32 n < 2 ^ 31 := by
  rw [toInt32, toSigned]
  split <;> omega

/-- The largest result of a `read`, which returns an `int`. -/
def maxRead : Nat := 2 ^ 31 - 1

/-- The receiving side of a connection: the pieces that have not been read. -/
structure SocketStream where
  pending : List (List UInt8)
  connected : Bool
  deriving DecidableEq, Repr

namespace SocketStream

/-- A connection on which the peer sends these pieces and hangs up. -/
def ofPieces (pieces : List (List UInt8)) : SocketStream := ⟨pieces, true⟩

/-- `SocketStream::read`: the bytes read and the stream behind them. -/
def read (s : SocketStream) (length : Nat) : List UInt8 × SocketStream :=
  if s.connected then
    match s.pending with
    | [] => ([], s)
    | piece :: rest =>
        let n := min length maxRead
        if piece.length ≤ n then (piece, { s with pending := rest })
        else (piece.take n, { s with pending := piece.drop n :: rest })
  else ([], s)

/-- `SocketStream::close`. -/
def close (s : SocketStream) : SocketStream := { s with connected := false }

/-- The loop of `readFixSize`; every turn but the last reads a byte, so `left`
turns are enough. -/
def readLoop : Nat → Nat → SocketStream → Option (List UInt8) × SocketStream
  | _, 0, s => (some [], s)
  | 0, _ + 1, s => (none, s)
  | turns + 1, left + 1, s =>
      let (bs, s') := s.read (left + 1)
      if bs = [] then (none, s')
      else
        let (more, s'') := readLoop turns (left + 1 - bs.length) s'
        (more.map (bs ++ ·), s'')

/-- `Stream::readFixSize`: its result, the bytes it stored and the stream.  The
result is the length as an `int`, or what the failed `read` returned. -/
def readFixSize (s : SocketStream) (length : Nat) : Int × List UInt8 × SocketStream :=
  match readLoop length length s with
  | (some bs, s') => (toInt32 length, bs, s')
  | (none, s') => (0, [], s')

/-- The loop of `writeFixSize` for a buffer of `length` bytes of which `left` are not sent
yet, over the results of `Socket::send`; it cannot take more than it is given. -/
def writeLoop (length : Nat) : Nat → List Int → Option Int
  | 0, _ => some (toInt32 length)
  | _ + 1, [] => none
  | left + 1, len :: results =>
      if len ≤ 0 then some len
      else if left + 1 < len.toNat then none
      else writeLoop length (left + 1 - len.toNat) results

/-- `Stream::writeFixSize`: its result, given those of the calls of `send`.  The buffer is
not sent at all when the stream is not connected. -/
def writeFixSize (s : SocketStream) (length : Nat) (results : List Int) : Option Int :=
  if s.connected then writeLoop length length results else writeLoop length length [-1]

/-- The bytes that have not been read. -/
def unread (s : SocketStream) : List UInt8 := s.pending.flatten

/-- The bytes that arrive before the stream ends or a `read` fails. -/
def arrived (s : SocketStream) : List UInt8 :=
  if s.connected then (s.pending.takeWhile fun piece => !piece.isEmpty).flatten else []

/-- The pieces all have bytes. -/
def Nonempty (s : SocketStream) : Prop := ∀ piece ∈ s.pending, piece ≠ []

variable {s : SocketStream} {piece : List UInt8} {rest : List (List UInt8)}

/-- A `read` of a piece that fits returns the whole piece. -/
theorem read_piece {n : Nat} (hc : s.connected = true) (hp : s.pending = piece :: rest)
    (hn : piece.length ≤ n) (hmax : piece.length ≤ maxRead) :
    s.read n = (piece, { s with pending := rest }) := by
  have hle : piece.length ≤ min n maxRead := by omega
  simp [read, hc, hp, hle]

@[simp]
theorem read_closed {n : Nat} (hc : s.connected = false) : s.read n = ([], s) := by
  simp [read, hc]

@[simp]
theorem read_nil {n : Nat} (hp : s.pending = []) : s.read n = ([], s) := by
  simp [read, hp]

/-- A `read` takes the bytes it returns from the front. -/
theorem read_append (s : SocketStream) (n : Nat) :
    (s.read n).1 ++ (s.read n).2.unread = s.unread := by
  rw [read]
  split
  · split
    · rfl
    · next piece rest hp =>
        simp only [unread, hp, List.flatten_cons]
        split
        · rfl
        · rw [List.flatten_cons, ← List.append_assoc, List.take_append_drop]
  · rfl

/-- A `read` returns at most what it is asked for. -/
theorem length_read_le (s : SocketStream) (n : Nat) : (s.read n).1.length ≤ n := by
  rw [read]
  split
  · split
    · exact Nat.zero_le n
    · dsimp only
      split
      · next hle => exact Nat.le_trans hle (Nat.min_le_left _ _)
      · rw [List.length_take]
        omega
  · exact Nat.zero_le n

/-- **What a `read` does**: it takes a nonempty front of the unread bytes, at
most `n` of them, whenever there is one. -/
theorem read_spec {n : Nat} (hn : 0 < n) (hc : s.connected = true) (hne : s.Nonempty)
    (hu : s.unread ≠ []) :
    ∃ bs s', s.read n = (bs, s') ∧ bs ≠ [] ∧ bs.length ≤ n ∧ s'.connected = true ∧
      s'.Nonempty ∧ s.unread = bs ++ s'.unread := by
  obtain ⟨pending, connected⟩ := s
  cases pending with
  | nil => exact absurd rfl hu
  | cons piece rest =>
      have hpiece : piece ≠ [] := hne piece (by simp)
      have hrest : ∀ p ∈ rest, p ≠ [] := fun p hp => hne p (by simp [hp])
      have hpos : 0 < piece.length := List.length_pos_iff.mpr hpiece
      simp only at hc
      by_cases hfit : piece.length ≤ min n maxRead
      · refine ⟨piece, ⟨rest, connected⟩, ?_, hpiece, by omega, hc, hrest, ?_⟩
        · simp [read, hc, hfit]
        · simp [unread]
      · have hm : 0 < min n maxRead := by
          have : 0 < maxRead := by decide
          omega
        refine ⟨piece.take (min n maxRead), ⟨piece.drop (min n maxRead) :: rest, connected⟩,
          ?_, ?_, ?_, hc, ?_, ?_⟩
        · simp [read, hc, hfit]
        · rw [← List.length_pos_iff, List.length_take]
          omega
        · rw [List.length_take]
          omega
        · intro p hp
          rcases List.mem_cons.mp hp with rfl | hp
          · rw [← List.length_pos_iff, List.length_drop]
            omega
          · exact hrest p hp
        · rw [unread, unread, List.flatten_cons, List.flatten_cons, ← List.append_assoc,
            List.take_append_drop]

/-- A `read` fails, or takes a front of the bytes that arrive. -/
theorem read_arrived {n : Nat} (hn : 0 < n) (s : SocketStream) :
    ((s.read n).1 = [] ∧ s.arrived = []) ∨
      (s.read n).1 ≠ [] ∧ s.arrived = (s.read n).1 ++ (s.read n).2.arrived := by
  obtain ⟨pending, connected⟩ := s
  cases connected with
  | false => exact .inl ⟨rfl, rfl⟩
  | true =>
      cases pending with
      | nil => exact .inl ⟨rfl, rfl⟩
      | cons piece rest =>
          by_cases hpiece : piece = []
          · subst hpiece
            left
            simp [read, arrived]
          · have hpos : 0 < piece.length := List.length_pos_iff.mpr hpiece
            have hm : 0 < min n maxRead := by
              have : 0 < maxRead := by decide
              omega
            right
            by_cases hfit : piece.length ≤ min n maxRead
            · simp [read, hfit, arrived, hpiece]
            · have htake : piece.take (min n maxRead) ≠ [] := by
                rw [← List.length_pos_iff, List.length_take]
                omega
              have hdrop : piece.drop (min n maxRead) ≠ [] := by
                rw [← List.length_pos_iff, List.length_drop]
                omega
              simp only [read, if_true, if_neg hfit]
              refine ⟨htake, ?_⟩
              simp only [arrived, if_true]
              rw [List.takeWhile_cons_of_pos (by simp [hpiece]),
                List.takeWhile_cons_of_pos (by simpa using hdrop), List.flatten_cons,
                List.flatten_cons, ← List.append_assoc, List.take_append_drop]

/-- **The loop** collects the bytes asked for, if so many arrive. -/
theorem readLoop_arrived {turns left : Nat} (hturns : left ≤ turns) :
    (readLoop turns left s).1 =
      if left ≤ s.arrived.length then some (s.arrived.take left) else none := by
  induction turns generalizing left s with
  | zero =>
      obtain rfl : left = 0 := by omega
      simp [readLoop]
  | succ turns ih =>
      cases left with
      | zero => simp [readLoop]
      | succ left =>
          have hle := s.length_read_le (left + 1)
          rcases read_arrived (show 0 < left + 1 by omega) s with ⟨hnil, harrived⟩ | ⟨hne, harrived⟩
          · simp [readLoop, hnil, harrived]
          · have hpos : 0 < (s.read (left + 1)).1.length := List.length_pos_iff.mpr hne
            simp only [readLoop, if_neg hne]
            rw [ih (by omega), harrived, List.length_append, List.take_append,
              List.take_of_length_le hle]
            by_cases hmore : left + 1 - (s.read (left + 1)).1.length ≤
                (s.read (left + 1)).2.arrived.length
            · rw [if_pos hmore, if_pos (by omega), Option.map_some]
            · rw [if_neg hmore, if_neg (by omega), Option.map_none]

/-- **`readFixSize` reads what it is asked for**, if so much arrives, and reports it as an
`int`. -/
theorem readFixSize_arrived (s : SocketStream) (length : Nat) :
    (s.readFixSize length).1 = (if length ≤ s.arrived.length then toInt32 length else 0) ∧
      (length ≤ s.arrived.length → (s.readFixSize length).2.1 = s.arrived.take length) := by
  have hloop := readLoop_arrived (s := s) (Nat.le_refl length)
  rw [readFixSize]
  cases hread : readLoop length length s with
  | mk r s' =>
      rw [hread] at hloop
      by_cases hle : length ≤ s.arrived.length
      · rw [if_pos hle] at hloop
        subst hloop
        exact ⟨(if_pos hle).symm, fun _ => rfl⟩
      · rw [if_neg hle] at hloop
        subst hloop
        exact ⟨(if_neg hle).symm, fun h => absurd h hle⟩

theorem arrived_eq_unread (hc : s.connected = true) (hne : s.Nonempty) : s.arrived = s.unread := by
  have hall : s.pending.takeWhile (fun piece => !piece.isEmpty) = s.pending := by
    rw [List.takeWhile_eq_self_iff]
    intro piece hpiece
    simpa using hne piece hpiece
  rw [arrived, if_pos hc, hall, unread]

/-- From a stream that does not fail. -/
theorem readFixSize_eq {length : Nat} (hc : s.connected = true) (hne : s.Nonempty)
    (hlen : length ≤ s.unread.length) :
    ∃ s', s.readFixSize length = (toInt32 length, s.unread.take length, s') := by
  have harrived := arrived_eq_unread hc hne
  obtain ⟨hresult, hbytes⟩ := s.readFixSize_arrived length
  rw [harrived, if_pos hlen] at hresult
  rw [harrived] at hbytes
  exact ⟨(s.readFixSize length).2.2, Prod.ext hresult (Prod.ext (hbytes hlen) rfl)⟩

end SocketStream

end Mingo
