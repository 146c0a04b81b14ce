import Mingo.Lib.Words
import Mingo.ByteArray.Basic

/-!
# The typed readers and writers of bytearray.cpp

Integers of `8 * n` bits are bit vectors, so that signed and unsigned values of
one width are the same bits and all arithmetic wraps around.  A variable of
such a type lies in memory in the byte order `host` of the machine
(`MINGO_BYTE_ORDER`), which is a parameter of the development.

`Value` is one typed value as it is passed to a writer, `Kind` the name of the
reader that matches it.
-/

namespace Mingo

/-- The bytes of a variable in memory. -/
def memory (host : Endian) {n : Nat} (v : BitVec (8 * n)) : List UInt8 :=
  match host with
  | .little => Words.bytesLE n v.toNat
  | .big => (Words.bytesLE n v.toNat).reverse

/-- The variable of `n` bytes with these bytes in memory. -/
def ofMemory (host : Endian) (n : Nat) (bytes : List UInt8) : BitVec (8 * n) :=
  match host with
  | .little => BitVec.ofNat _ (Words.ofBytesLE bytes)
  | .big => BitVec.ofNat _ (Words.ofBytesLE bytes.reverse)

/-- `bswap_16`, `bswap_32` and `bswap_64`. -/
def byteswap {n : Nat} (v : BitVec (8 * n)) : BitVec (8 * n) :=
  BitVec.ofNat _ (Words.ofBytesLE (Words.bytesLE n v.toNat).reverse)

/-- The common body of `EncodeZigzag32` and `EncodeZigzag64`. -/
def encodeZigzag {w : Nat} (v : BitVec w) : BitVec w :=
  if v.slt 0#w then -v * 2#w - 1#w else v * 2#w

/-- The common body of `DecodeZigzag32` and `DecodeZigzag64`. -/
def decodeZigzag {w : Nat} (v : BitVec w) : BitVec w :=
  (v >>> 1) ^^^ -(v &&& 1#w)

/-- `EncodeZigzag32`, of an `int32_t`. -/
def encodeZigzag32 (v : BitVec 32) : BitVec 32 := encodeZigzag v

/-- `EncodeZigzag64`, of an `int64_t`. -/
def encodeZigzag64 (v : BitVec 64) : BitVec 64 := encodeZigzag v

/-- `DecodeZigzag32`, of a `uint32_t`. -/
def decodeZigzag32 (v : BitVec 32) : BitVec 32 := decodeZigzag v

/-- `DecodeZigzag64`, of a `uint64_t`. -/
def decodeZigzag64 (v : BitVec 64) : BitVec 64 := decodeZigzag v

/-- `max_size()` of a `std::string`, in libstdc++ half of what an allocator has. -/
def StdString.maxSize : Nat := 2 ^ 62 - 1

/-- A `std::string`. -/
structure StdString where
  bytes : List UInt8
  size_le : bytes.length ≤ StdString.maxSize
  deriving DecidableEq

/-- `size()`, a `size_t`. -/
def StdString.size (s : StdString) : Nat := s.bytes.length

/-- Its size is a `size_t`. -/
theorem StdString.size_lt (s : StdString) : s.size < 2 ^ 64 :=
  Nat.lt_of_le_of_lt s.size_le (by decide)

namespace ByteArray

variable (host : Endian)

/-! ### Writers -/

/-- An `int8_t`, one byte in every byte order. -/
def writeFint8 (value : BitVec 8) : Prog Unit :=
  write [UInt8.ofBitVec value]

/-- A `uint8_t`, one byte in every byte order. -/
def writeFuint8 (value : BitVec 8) : Prog Unit :=
  write [UInt8.ofBitVec value]

/-- The common body of `writeFint16` to `writeFuint64`. -/
def writeFixed {n : Nat} (value : BitVec (8 * n)) : Prog Unit := fun ba =>
  let value := if ba.endian ≠ host then byteswap value else value
  write (memory host value) ba

/-- An `int16_t` of two bytes. -/
def writeFint16 (value : BitVec 16) : Prog Unit := writeFixed host (n := 2) value

/-- A `uint16_t` of two bytes. -/
def writeFuint16 (value : BitVec 16) : Prog Unit := writeFixed host (n := 2) value

/-- An `int32_t` of four bytes. -/
def writeFint32 (value : BitVec 32) : Prog Unit := writeFixed host (n := 4) value

/-- A `uint32_t` of four bytes. -/
def writeFuint32 (value : BitVec 32) : Prog Unit := writeFixed host (n := 4) value

/-- An `int64_t` of eight bytes. -/
def writeFint64 (value : BitVec 64) : Prog Unit := writeFixed host (n := 8) value

/-- A `uint64_t` of eight bytes. -/
def writeFuint64 (value : BitVec 64) : Prog Unit := writeFixed host (n := 8) value

/-- The loop that fills `tmp`, an array of which `slots` entries are left;
storing behind its end is undefined. -/
def varintLoop {w : Nat} : Nat → BitVec w → Option (List UInt8)
  | 0, _ => none
  | slots + 1, value =>
      if value ≥ 0x80#w then
        (varintLoop slots (value >>> 7)).map
          (UInt8.ofBitVec (((value &&& 0x7F#w) ||| 0x80#w).setWidth 8) :: ·)
      else some [UInt8.ofBitVec (value.setWidth 8)]

/-- The common body of `writeUint32` and `writeUint64`. -/
def writeVarint {w : Nat} (slots : Nat) (value : BitVec w) : Prog Unit := fun ba =>
  match varintLoop slots value with
  | none => none
  | some tmp => write tmp ba

/-- A `uint32_t` as a varint, for which `tmp` has five entries. -/
def writeUint32 (value : BitVec 32) : Prog Unit := writeVarint 5 value

/-- A `uint64_t` as a varint, for which `tmp` has ten entries. -/
def writeUint64 (value : BitVec 64) : Prog Unit := writeVarint 10 value

/-- An `int32_t` as the varint of its zigzag code. -/
def writeInt32 (value : BitVec 32) : Prog Unit := writeUint32 (encodeZigzag32 value)

/-- An `int64_t` as the varint of its zigzag code. -/
def writeInt64 (value : BitVec 64) : Prog Unit := writeUint64 (encodeZigzag64 value)

/-- A `float` is its bit pattern. -/
def writeFloat (value : BitVec 32) : Prog Unit := writeFuint32 host value

/-- A `double` is its bit pattern. -/
def writeDouble (value : BitVec 64) : Prog Unit := writeFuint64 host value

/-- The size as a `uint16_t`, which cuts it off, then the bytes. -/
def writeStringF16 (value : StdString) : Prog Unit := do
  writeFuint16 host (BitVec.ofNat 16 value.size)
  write value.bytes

/-- The size as a `uint32_t`, which cuts it off, then the bytes. -/
def writeStringF32 (value : StdString) : Prog Unit := do
  writeFuint32 host (BitVec.ofNat 32 value.size)
  write value.bytes

/-- The size as a `uint64_t`, then the bytes. -/
def writeStringF64 (value : StdString) : Prog Unit := do
  writeFuint64 host (BitVec.ofNat 64 value.size)
  write value.bytes

/-- The size as a varint, then the bytes. -/
def writeStringVint (value : StdString) : Prog Unit := do
  writeUint64 (BitVec.ofNat 64 value.size)
  write value.bytes

/-! ### Readers -/

/-- The next byte as an `int8_t`. -/
def readFint8 : Prog (BitVec 8) := do
  let bytes ← read 1
  pure (ofMemory .little 1 bytes)

/-- The next byte as a `uint8_t`. -/
def readFuint8 : Prog (BitVec 8) := do
  let bytes ← read 1
  pure (ofMemory .little 1 bytes)

/-- The macro `XX` that is the body of `readFint16` to `readFuint64`. -/
def readFixed (n : Nat) : Prog (BitVec (8 * n)) := do
  let bytes ← read n
  let v := ofMemory host n bytes
  let endian ← Prog.get ByteArray.endian
  if endian = host then pure v else pure (byteswap v)

/-- The next two bytes as an `int16_t`. -/
def readFint16 : Prog (BitVec 16) := readFixed host 2

/-- The next two bytes as a `uint16_t`. -/
def readFuint16 : Prog (BitVec 16) := readFixed host 2

/-- The next four bytes as an `int32_t`. -/
def readFint32 : Prog (BitVec 32) := readFixed host 4

/-- The next four bytes as a `uint32_t`. -/
def readFuint32 : Prog (BitVec 32) := readFixed host 4

/-- The next eight bytes as an `int64_t`. -/
def readFint64 : Prog (BitVec 64) := readFixed host 8

/-- The next eight bytes as a `uint64_t`. -/
def readFuint64 : Prog (BitVec 64) := readFixed host 8

/-- The loop of `readUint32` and `readUint64` over the shifts `i`. -/
def readVarint {w : Nat} : List Nat → BitVec w → Prog (BitVec w)
  | [], result => pure result
  | i :: is, result => do
      let b ← readFuint8
      if b < 0x80#8 then pure (result ||| b.setWidth w <<< i)
      else readVarint is (result ||| (b &&& 0x7F#8).setWidth w <<< i)

/-- A varint of at most five bytes. -/
def readUint32 : Prog (BitVec 32) := readVarint [0, 7, 14, 21, 28] 0#32

/-- A varint of at most ten bytes. -/
def readUint64 : Prog (BitVec 64) :=
  readVarint [0, 7, 14, 21, 28, 35, 42, 49, 56, 63] 0#64

/-- The value of which the next varint is the zigzag code. -/
def readInt32 : Prog (BitVec 32) := do
  let v ← readUint32
  pure (decodeZigzag32 v)

/-- The value of which the next varint is the zigzag code. -/
def readInt64 : Prog (BitVec 64) := do
  let v ← readUint64
  pure (decodeZigzag64 v)

/-- A `float` is its bit pattern. -/
def readFloat : Prog (BitVec 32) := readFuint32 host

/-- A `double` is its bit pattern. -/
def readDouble : Prog (BitVec 64) := readFuint64 host

/-- `buff.resize(len)`, which throws if no string is that long, and the `read` that
fills `buff`. -/
def readBuffer (len : BitVec 64) : Prog StdString :=
  if h : len.toNat ≤ StdString.maxSize then do
    let bytes ← read len.toNat
    pure ⟨bytes.take len.toNat, Nat.le_trans (List.length_take_le _ _) h⟩
  else Prog.throw .lengthError

/-- A string that is not too long. -/
theorem readBuffer_of_le {len : BitVec 64} (h : len.toNat ≤ StdString.maxSize) :
    readBuffer len = read len.toNat >>= fun bytes =>
      pure ⟨bytes.take len.toNat, Nat.le_trans (List.length_take_le _ _) h⟩ :=
  dif_pos h

/-- A string that is too long: nothing is read. -/
theorem readBuffer_of_gt {len : BitVec 64} (h : StdString.maxSize < len.toNat) :
    readBuffer len = Prog.throw .lengthError :=
  dif_neg (Nat.not_le.mpr h)

/-- A size of two bytes, and as many bytes. -/
def readStringF16 : Prog StdString := do
  let len ← readFuint16 host
  readBuffer (len.setWidth 64)

/-- A size of four bytes, and as many bytes. -/
def readStringF32 : Prog StdString := do
  let len ← readFuint32 host
  readBuffer (len.setWidth 64)

/-- A size of eight bytes, and as many bytes. -/
def readStringF64 : Prog StdString := do
  let len ← readFuint64 host
  readBuffer len

/-- A size as a varint, and as many bytes. -/
def readStringVint : Prog StdString := do
  let len ← readUint64
  readBuffer len

/-! ### Sequences of values -/

/-- A typed value, by the writer it is passed to. -/
inductive Value
  | fint8 (v : BitVec 8)
  | fuint8 (v : BitVec 8)
  | fint16 (v : BitVec 16)
  | fuint16 (v : BitVec 16)
  | fint32 (v : BitVec 32)
  | fuint32 (v : BitVec 32)
  | fint64 (v : BitVec 64)
  | fuint64 (v : BitVec 64)
  | int32 (v : BitVec 32)
  | uint32 (v : BitVec 32)
  | int64 (v : BitVec 64)
  | uint64 (v : BitVec 64)
  | float (bits : BitVec 32)
  | double (bits : BitVec 64)
  | stringF16 (s : StdString)
  | stringF32 (s : StdString)
  | stringF64 (s : StdString)
  | stringVint (s : StdString)
  deriving DecidableEq

/-- The types of values. -/
inductive Kind
  | fint8 | fuint8 | fint16 | fuint16 | fint32 | fuint32 | fint64 | fuint64
  | int32 | uint32 | int64 | uint64 | float | double
  | stringF16 | stringF32 | stringF64 | stringVint
  deriving DecidableEq, Repr

/-- The type that a value is written as. -/
def Value.kind : Value → Kind
  | .fint8 _ => .fint8
  | .fuint8 _ => .fuint8
  | .fint16 _ => .fint16
  | .fuint16 _ => .fuint16
  | .fint32 _ => .fint32
  | .fuint32 _ => .fuint32
  | .fint64 _ => .fint64
  | .fuint64 _ => .fuint64
  | .int32 _ => .int32
  | .uint32 _ => .uint32
  | .int64 _ => .int64
  | .uint64 _ => .uint64
  | .float _ => .float
  | .double _ => .double
  | .stringF16 _ => .stringF16
  | .stringF32 _ => .stringF32
  | .stringF64 _ => .stringF64
  | .stringVint _ => .stringVint

/-- A string is short enough for its length field. -/
def Value.Fits : Value → Prop
  | .stringF16 s => s.size < 65536
  | .stringF32 s => s.size < 2 ^ 32
  | _ => True

/-- The write call for a value. -/
def Value.write : Value → Prog Unit
  | .fint8 v => writeFint8 v
  | .fuint8 v => writeFuint8 v
  | .fint16 v => writeFint16 host v
  | .fuint16 v => writeFuint16 host v
  | .fint32 v => writeFint32 host v
  | .fuint32 v => writeFuint32 host v
  | .fint64 v => writeFint64 host v
  | .fuint64 v => writeFuint64 host v
  | .int32 v => writeInt32 v
  | .uint32 v => writeUint32 v
  | .int64 v => writeInt64 v
  | .uint64 v => writeUint64 v
  | .float v => writeFloat host v
  | .double v => writeDouble host v
  | .stringF16 s => writeStringF16 host s
  | .stringF32 s => writeStringF32 host s
  | .stringF64 s => writeStringF64 host s
  | .stringVint s => writeStringVint s

/-- The read call for a type. -/
def Kind.read : Kind → Prog Value
  | .fint8 => do return .fint8 (← readFint8)
  | .fuint8 => do return .fuint8 (← readFuint8)
  | .fint16 => do return .fint16 (← readFint16 host)
  | .fuint16 => do return .fuint16 (← readFuint16 host)
  | .fint32 => do return .fint32 (← readFint32 host)
  | .fuint32 => do return .fuint32 (← readFuint32 host)
  | .fint64 => do return .fint64 (← readFint64 host)
  | .fuint64 => do return .fuint64 (← readFuint64 host)
  | .int32 => do return .int32 (← readInt32)
  | .uint32 => do return .uint32 (← readUint32)
  | .int64 => do return .int64 (← readInt64)
  | .uint64 => do return .uint64 (← readUint64)
  | .float => do return .float (← readFloat host)
  | .double => do return .double (← readDouble host)
  | .stringF16 => do return .stringF16 (← readStringF16 host)
  | .stringF32 => do return .stringF32 (← readStringF32 host)
  | .stringF64 => do return .stringF64 (← readStringF64 host)
  | .stringVint => do return .stringVint (← readStringVint)

/-- The write calls for a list of values. -/
def writeAll : List Value → Prog Unit
  | [] => pure ()
  | v :: vs => do
      v.write host
      writeAll vs

/-- The read calls for a list of types. -/
def readAll : List Kind → Prog (List Value)
  | [] => pure []
  | k :: ks => do
      let v ← k.read host
      let vs ← readAll ks
      pure (v :: vs)

end ByteArray

end Mingo
