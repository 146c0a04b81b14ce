import Mathlib.Algebra.Group.Nat.Defs
import Mathlib.Data.List.Basic
import Mingo.Lib.Splice

/-!
# The byte array of bytearray.cpp

`ByteArray` stores its bytes in a singly linked chain of memory blocks, all of
`m_baseSize` bytes, and keeps the cursor twice: as the offset `m_position` and
as the block pointer `m_cur`.  This file is the chain as the code sees it: a
pointer is an index into the list of blocks reached from `m_root`, the null
pointer is `none`, and following a null pointer makes a call undefined.

Sizes are natural numbers: every sum the code forms is bounded by the storage
it has allocated, so only the subtractions of `size_t` values need their
wrap-around (`subSize`).  Fresh storage holds whatever the allocator hands
out, the bytes of `heap` one after the other.
-/

namespace Mingo

/-- The two byte orders of endian.h. -/
inductive Endian
  | little
  | big
  deriving DecidableEq, Repr

/-- Subtraction of two `size_t` values. -/
def subSize (a b : Nat) : Nat :=
  if b ≤ a then a - b else a + 2 ^ 64 - b

@[simp]
theorem subSize_of_le {a b : Nat} (h : b ≤ a) : subSize a b = a - b :=
  if_pos h

namespace ByteArray

/-- A memory block; its `size` is the length of the array behind `ptr`. -/
structure Node where
  ptr : List UInt8
  deriving DecidableEq, Repr

/-- The field `size` of a block. -/
def Node.size (node : Node) : Nat := node.ptr.length

/-- `memcpy` of `bytes` to `ptr + npos`. -/
def Node.store (node : Node) (npos : Nat) (bytes : List UInt8) : Node :=
  ⟨List.splice node.ptr npos bytes⟩

/-- `memcpy` of `n` bytes from `ptr + npos`. -/
def Node.load (node : Node) (npos n : Nat) : List UInt8 :=
  (node.ptr.drop npos).take n

/-- The exceptions: `std::out_of_range` with its text, and the `std::length_error`
of a `std::string` that is to be longer than its `max_size()`. -/
inductive Thrown
  | outOfRange (what : String)
  | lengthError
  deriving DecidableEq, Repr

/-- One entry of the `iovec` arrays: `len` bytes from `offset` on in the block
with index `node`. -/
structure IoVec where
  node : Nat
  offset : Nat
  len : Nat
  deriving DecidableEq, Repr

end ByteArray

/-- The members of `ByteArray`.  `nodes` is the chain from `m_root` on and
`cur` the index of `m_cur` in it. -/
structure ByteArray where
  baseSize : Nat
  position : Nat
  capacity : Nat
  size : Nat
  endian : Endian
  nodes : List ByteArray.Node
  cur : Option Nat
  heap : Nat → UInt8

namespace ByteArray

/-- `new Node(s)` on a heap: `s` bytes nobody has written. -/
def newNode (s : Nat) (heap : Nat → UInt8) : Node :=
  ⟨(List.range s).map heap⟩

/-- The constructor. -/
def new (baseSize : Nat) (heap : Nat → UInt8) : ByteArray where
  baseSize := baseSize
  position := 0
  capacity := baseSize
  size := 0
  endian := .big
  nodes := [newNode baseSize heap]
  cur := some 0
  heap := fun i => heap (i + baseSize)

def setIsLittleEndian (val : Bool) (ba : ByteArray) : ByteArray :=
  { ba with endian := if val then .little else .big }

/-- The readable bytes, `m_size - m_position`. -/
def getReadSize (ba : ByteArray) : Nat := subSize ba.size ba.position

/-- The room behind the cursor, `m_capacity - m_position`. -/
def getCapacity (ba : ByteArray) : Nat := subSize ba.capacity ba.position

/-- The pointer to the block with index `i`: null behind the last block. -/
def nodeAt (ba : ByteArray) (i : Nat) : Option Nat :=
  if i < ba.nodes.length then some i else none

/-- The blocks from `m_cur` on; empty exactly when `m_cur` is null. -/
def chain (ba : ByteArray) : List Node :=
  match ba.cur with
  | none => []
  | some i => ba.nodes.drop i

/-- `m_cur` after following `next` `k` times. -/
def advance (ba : ByteArray) (k : Nat) : Option Nat :=
  match ba.cur with
  | none => none
  | some i => ba.nodeAt (i + k)

/-- A member function that may throw: `none` is a call that follows a null
block pointer, an exception leaves behind the state reached so far. -/
def Prog (α : Type) := ByteArray → Option (Except Thrown α × ByteArray)

instance : Monad Prog where
  pure a := fun ba => some (.ok a, ba)
  bind x f := fun ba =>
    match x ba with
    | none => none
    | some (.error e, ba') => some (.error e, ba')
    | some (.ok a, ba') => f a ba'

/-- The exception `e`. -/
def Prog.throw {α : Type} (e : Thrown) : Prog α :=
  fun ba => some (.error e, ba)

/-- A member function that only reads the state. -/
def Prog.get {α : Type} (f : ByteArray → α) : Prog α :=
  fun ba => some (.ok (f ba), ba)

@[simp]
theorem Prog.pure_apply {α : Type} (a : α) (ba : ByteArray) :
    (pure a : Prog α) ba = some (.ok a, ba) := rfl

@[simp]
theorem Prog.throw_apply {α : Type} (e : Thrown) (ba : ByteArray) :
    (Prog.throw e : Prog α) ba = some (.error e, ba) := rfl

@[simp]
theorem Prog.get_apply {α : Type} (f : ByteArray → α) (ba : ByteArray) :
    Prog.get f ba = some (.ok (f ba), ba) := rfl

/-- A sequence of two calls that completes ends with the exception of the
first or with the outcome of the second. -/
theorem Prog.bind_eq_some {α β : Type} {x : Prog α} {f : α → Prog β}
    {ba u : ByteArray} {r : Except Thrown β} :
    (x >>= f) ba = some (r, u) ↔
      (∃ e, x ba = some (.error e, u) ∧ r = .error e) ∨
      ∃ a t, x ba = some (.ok a, t) ∧ f a t = some (r, u) := by
  show (match x ba with
    | none => none
    | some (.error e, ba') => some (.error e, ba')
    | some (.ok a, ba') => f a ba') = some (r, u) ↔ _
  cases x ba with
  | none => simp
  | some p =>
      obtain ⟨res, t⟩ := p
      cases res with
      | error e =>
          constructor
          · intro h
            obtain ⟨rfl, rfl⟩ := Prod.mk.inj (Option.some.inj h)
            exact Or.inl ⟨e, rfl, rfl⟩
          · rintro (⟨e', he, rfl⟩ | ⟨a, t', he, _⟩)
            · simpa using he
            · simp at he
      | ok a =>
          constructor
          · intro h
            exact Or.inr ⟨a, t, rfl, h⟩
          · rintro (⟨e, he, _⟩ | ⟨a', t', he, h⟩)
            · simp at he
            · obtain ⟨ha, ht⟩ := Prod.mk.inj (Option.some.inj he)
              obtain rfl := Except.ok.inj ha
              subst ht
              exact h

/-- A first call that returns hands over to the second. -/
theorem Prog.bind_of_ok {α β : Type} {x : Prog α} {f : α → Prog β} {ba t : ByteArray} {a : α}
    (h : x ba = some (.ok a, t)) : (x >>= f) ba = f a t := by
  show (match x ba with
    | none => none
    | some (.error e, ba') => some (.error e, ba')
    | some (.ok a, ba') => f a ba') = f a t
  rw [h]

theorem Prog.bind_of_none {α β : Type} {x : Prog α} {f : α → Prog β} {ba : ByteArray}
    (h : x ba = none) : (x >>= f) ba = none := by
  show (match x ba with
    | none => none
    | some (.error e, ba') => some (.error e, ba')
    | some (.ok a, ba') => f a ba') = none
  rw [h]

/-- A first call that throws ends the sequence. -/
theorem Prog.bind_of_error {α β : Type} {x : Prog α} {f : α → Prog β} {ba t : ByteArray}
    {e : Thrown} (h : x ba = some (.error e, t)) : (x >>= f) ba = some (.error e, t) := by
  show (match x ba with
    | none => none
    | some (.error e, ba') => some (.error e, ba')
    | some (.ok a, ba') => f a ba') = some (.error e, t)
  rw [h]

/-- Append `count` new blocks to the chain. -/
def grow : Nat → ByteArray → ByteArray
  | 0, ba => ba
  | count + 1, ba =>
      grow count { ba with
        nodes := ba.nodes ++ [newNode ba.baseSize ba.heap]
        capacity := ba.capacity + ba.baseSize
        heap := fun i => ba.heap (i + ba.baseSize) }

/-- Make room for `size` bytes behind the cursor. -/
def addCapacity (size : Nat) (ba : ByteArray) : ByteArray :=
  if size = 0 then ba
  else
    let oldCap := ba.getCapacity
    if oldCap ≥ size then ba
    else
      let size := size - oldCap
      let count := size / ba.baseSize + (if size % ba.baseSize > oldCap then 1 else 0)
      let first := if count = 0 then none else some ba.nodes.length
      let grown := grow count ba
      if oldCap = 0 then { grown with cur := first } else grown

/-- The copying loop of `write` over the blocks from `m_cur` on: the blocks
afterwards and how many of them `m_cur` has moved past. -/
def writeLoop : List Node → Nat → List UInt8 → Option (List Node × Nat)
  | [], _, _ => none
  | node :: rest, npos, buf =>
      let ncap := node.size - npos
      if buf.length = 0 then some (node :: rest, 0)
      else if ncap ≥ buf.length then
        some (node.store npos buf :: rest,
          if node.size = npos + buf.length then 1 else 0)
      else
        match writeLoop rest 0 (buf.drop ncap) with
        | none => none
        | some (rest', k) => some (node.store npos (buf.take ncap) :: rest', k + 1)

/-- Write all bytes of `buf` at the cursor. -/
def write (buf : List UInt8) : Prog Unit := fun ba =>
  if buf.length = 0 then some (.ok (), ba)
  else
    let ba := ba.addCapacity buf.length
    match writeLoop ba.chain (ba.position % ba.baseSize) buf with
    | none => none
    | some (chain', k) =>
        let position := ba.position + buf.length
        some (.ok (), { ba with
          nodes := ba.nodes.take (ba.nodes.length - ba.chain.length) ++ chain'
          cur := ba.advance k
          position := position
          size := if position > ba.size then position else ba.size })

/-- The copying loop of the two `read`s: the bytes copied out and how many
blocks the pointer has moved past. -/
def readLoop : List Node → Nat → Nat → Option (List UInt8 × Nat)
  | [], _, _ => none
  | node :: rest, npos, size =>
      let ncap := node.size - npos
      if size = 0 then some ([], 0)
      else if ncap ≥ size then
        some (node.load npos size, if node.size = npos + size then 1 else 0)
      else
        match readLoop rest 0 (size - ncap) with
        | none => none
        | some (bytes, k) => some (node.load npos ncap ++ bytes, k + 1)

/-- Read `size` bytes at the cursor. -/
def read (size : Nat) : Prog (List UInt8) := fun ba =>
  if size > ba.getReadSize then some (.error (.outOfRange "not enough len"), ba)
  else
    match readLoop ba.chain (ba.position % ba.baseSize) size with
    | none => none
    | some (bytes, k) =>
        some (.ok bytes, { ba with
          position := ba.position + size
          cur := ba.advance k })

/-- The `read` that is given a position: it still starts at the block
`m_cur`. -/
def readAt (size position : Nat) : Prog (List UInt8) := fun ba =>
  if size > subSize ba.size position then some (.error (.outOfRange "not enough len"), ba)
  else
    match readLoop ba.chain (position % ba.baseSize) size with
    | none => none
    | some (bytes, _) => some (.ok bytes, ba)

/-- The search for the block of offset `v`: how many blocks it moves past. -/
def seekLoop : List Node → Nat → Option Nat
  | [], _ => none
  | node :: rest, v =>
      if v > node.size then (seekLoop rest (v - node.size)).map (· + 1)
      else if v = node.size then some 1
      else some 0

/-- Move the cursor. -/
def setPosition (v : Nat) : Prog Unit := fun ba =>
  if v > ba.capacity then some (.error (.outOfRange "set_position out of range"), ba)
  else
    match seekLoop ba.nodes v with
    | none => none
    | some k =>
        some (.ok (), { ba with
          position := v
          size := if v > ba.size then v else ba.size
          cur := ba.nodeAt k })

/-- Drop every block but the first. -/
def clear : Prog Unit := fun ba =>
  some (.ok (), { ba with
    position := 0
    size := 0
    capacity := ba.baseSize
    nodes := ba.nodes.take 1
    cur := some 0 })

/-- The readable bytes as one string. -/
def toString : Prog (List UInt8) := fun ba =>
  if ba.getReadSize = 0 then some (.ok [], ba)
  else readAt ba.getReadSize ba.position ba

/-- The loop of the functions that fill an `iovec` array, from the block with
index `i` on. -/
def buffersLoop : List Node → Nat → Nat → Nat → Option (List IoVec)
  | [], _, _, _ => none
  | node :: rest, i, npos, len =>
      let ncap := node.size - npos
      if len = 0 then some []
      else if ncap ≥ len then some [⟨i, npos, len⟩]
      else (buffersLoop rest (i + 1) 0 (len - ncap)).map (⟨i, npos, ncap⟩ :: ·)

/-- The readable bytes, at most `len` of them, as `iovec`s; also their total
length. -/
def getReadBuffers (len : Nat) : Prog (List IoVec × Nat) := fun ba =>
  let len := if len > ba.getReadSize then ba.getReadSize else len
  if len = 0 then some (.ok ([], 0), ba)
  else
    match buffersLoop ba.chain (ba.nodes.length - ba.chain.length)
        (ba.position % ba.baseSize) len with
    | none => none
    | some buffers => some (.ok (buffers, len), ba)

/-- The same from `position` on.  The length is still cut down to what is readable
from the cursor on. -/
def getReadBuffersAt (len position : Nat) : Prog (List IoVec × Nat) := fun ba =>
  let len := if len > ba.getReadSize then ba.getReadSize else len
  if len = 0 then some (.ok ([], 0), ba)
  else
    -- `count` steps from `m_root`; behind the last block there is nothing to follow
    let count := position / ba.baseSize
    match buffersLoop (ba.nodes.drop count) count (position % ba.baseSize) len with
    | none => none
    | some buffers => some (.ok (buffers, len), ba)

/-- Room for `len` bytes behind the cursor as `iovec`s; also its total length. -/
def getWriteBuffers (len : Nat) : Prog (List IoVec × Nat) := fun ba =>
  if len = 0 then some (.ok ([], 0), ba)
  else
    let ba := ba.addCapacity len
    match buffersLoop ba.chain (ba.nodes.length - ba.chain.length)
        (ba.position % ba.baseSize) len with
    | none => none
    | some buffers => some (.ok (buffers, len), ba)

/-- The bytes an `iovec` of this array refers to. -/
def bytesOf (ba : ByteArray) (iov : IoVec) : List UInt8 :=
  match ba.nodes[iov.node]? with
  | none => []
  | some node => node.load iov.offset iov.len

end ByteArray

end Mingo
