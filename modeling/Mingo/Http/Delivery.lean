import Mingo.Http.Pipeline
import Mingo.Stream.Delivery

/-!
# A message on a connection that stays open

Behind a message there may be others in the stream.  When its header block comes with the
first `read` and its last byte ends a piece, it is received whole and the stream is left in
front of the next.

* `readBody_pieces` -- the body, for both sides;
* `recvRequest_brings` -- a request.
-/

namespace Mingo.Http

variable {size : Nat} {head body more : List UInt8} {rest pieces later : List (List UInt8)}

/-- **The body**, first from the buffer and then from the pieces. -/
theorem readBody_pieces {length : Int} (hbody : more ++ rest.flatten = body)
    (hne : ∀ piece ∈ rest, piece ≠ []) (hlen : body.length = length.toNat)
    (hsmall : body.length < 2 ^ 31) (later : List (List UInt8)) :
    readBody length more ⟨rest ++ later, true⟩ =
      (.message (if 0 < length then some body else none), ⟨later, true⟩) := by
  have hsum : more.length + rest.flatten.length = body.length := by
    rw [← hbody, List.length_append]
  have hnone : rest.flatten.length = 0 → rest = [] := by
    intro hzero
    have := length_le_flatten hne
    exact List.length_eq_zero_iff.mp (by omega)
  simp only [readBody, ← hlen]
  by_cases hpos : 0 < length
  · rw [if_pos hpos, if_pos hpos]
    by_cases hlt : more.length < body.length
    · have hleft : body.length - more.length = rest.flatten.length := by omega
      have hint : ¬ toInt32 rest.flatten.length ≤ 0 := by
        rw [toInt32_of_lt (by omega)]
        omega
      rw [if_pos hlt, hleft, SocketStream.readFixSize_pieces hne later]
      dsimp only
      rw [if_neg hint, hbody]
    · obtain rfl := hnone (by omega)
      rw [List.flatten_nil, List.append_nil] at hbody
      rw [if_neg hlt, hbody, List.take_length]
      rfl
  · obtain rfl := hnone (by omega)
    rw [if_neg hpos, if_neg hpos]
    rfl

/-- The read result with the header block does not fill the buffer behind it. -/
theorem not_full (hhead : head ≠ []) (hsize : (head ++ more).length ≤ size)
    (hint : size < 2 ^ 31) : bufferFull size more.length = false := by
  have hpos : 0 < head.length := List.length_pos_iff.mpr hhead
  rw [List.length_append] at hsize
  rw [bufferFull, toInt32_of_lt hint, beq_eq_false_iff_ne]
  omega

variable {c : Session}

theorem Message.head_ne_nil (m : Message c) : m.head ≠ [] := by
  intro hnil
  have hscanned := m.scanned
  rw [hnil] at hscanned
  cases hscanned

/-- **A request** whose header block comes with the first `read`. -/
theorem recvRequest_brings {m : Message c} (h : Brings c.buffSize m.head m.body pieces)
    (hint : c.buffSize < 2 ^ 31) (hsmall : m.body.length < 2 ^ 31)
    (later : List (List UInt8)) :
    c.recvRequest (.ofPieces (pieces ++ later)) = (.message m.request, .ofPieces later) := by
  obtain ⟨more, rest, rfl, hbody, hsize, hmax, hne⟩ := h
  have hlast := recvHead_first
    (SocketStream.ofPieces ((m.head ++ more) :: rest ++ later)).unread.length (rest ++ later)
    m.scanned m.parsed hsize hmax
  rw [not_full m.head_ne_nil hsize hint, if_neg Bool.false_ne_true] at hlast
  obtain ⟨s', heq, hdata⟩ := hlast
  have hempty : s'.data.body = [] := by
    rw [hdata]
    exact (applyAll_body m.parsed).1
  have hlen : m.body.length = (toInt64 (contentLength c.lexicalCast s'.data.headers)).toNat := by
    rw [hdata]
    exact m.sized
  rw [List.cons_append] at heq ⊢
  rw [recvRequest_message heq]
  simp only [Session.recvBody, HttpRequestParser.getContentLength]
  have hread := readBody_pieces hbody hne hlen hsmall later
  rw [SocketStream.ofPieces, hread]
  by_cases hpos : 0 < toInt64 (contentLength c.lexicalCast s'.data.headers)
  · rw [if_pos hpos, Message.request, ← hdata]
    rfl
  · have hzero : m.body = [] := by
      rw [← List.length_eq_zero_iff, hlen]
      omega
    rw [if_neg hpos, Message.request, hzero, ← hdata, setBody_nil hempty]
    rfl

end Mingo.Http
