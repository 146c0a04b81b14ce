import Mingo.ByteArray.RoundTrip
import Mingo.Stream.Basic

/-!
# The network addresses of address.cpp

`networdAddress` and `subnetMask` of IPv4 and IPv6 addresses.  An address is
kept in network byte order in the fields of `sockaddr_in` and `sockaddr_in6`;
`host` is the byte order of the machine.  Where the C++ expression is undefined
(a shift by the width of the type, an `int` that overflows, a subscript behind
the end of `s6_addr`), the result is `none`.

* `IPv4Address.networks_iff_zero`, `IPv6Address.networks_iff_byte` -- the addresses
  and prefixes for which the network address is the address and the subnet mask.
-/

namespace Mingo.Address

/-- `byteswapOnLittleEndian`. -/
def byteswapOnLittleEndian (host : Endian) {n : Nat} (v : BitVec (8 * n)) : BitVec (8 * n) :=
  match host with
  | .little => byteswap v
  | .big => v

/-- `1 << count` of an `int`. -/
def shiftOne (count : Nat) : Option Int :=
  if count < 32 then some (toInt32 (2 ^ count)) else none

/-- `value - 1` of an `int`. -/
def decrement (value : Int) : Option Int :=
  if -(2 ^ 31) < value then some (value - 1) else none

/-- `CreateMask<T>` for an unsigned type `T` of `w` bits; the count is a `size_t`. -/
def createMask (w : Nat) (bits : UInt32) : Option (BitVec w) :=
  ((shiftOne ((w + 2 ^ 64 - bits.toNat) % 2 ^ 64)).bind decrement).map (BitVec.ofInt w)

/-- The members of `sockaddr_in`, but for the padding. -/
structure IPv4Address where
  family : BitVec 16
  port : BitVec (8 * 2)
  addr : BitVec (8 * 4)
  deriving DecidableEq

/-- The members of `sockaddr_in6`. -/
structure IPv6Address where
  family : BitVec 16
  port : BitVec (8 * 2)
  flowinfo : BitVec 32
  addr : Vector (BitVec 8) 16
  scopeId : BitVec 32
  deriving DecidableEq

def afInet : BitVec 16 := 2
def afInet6 : BitVec 16 := 10

/-! ### IPv4 -/

/-- `IPv4Address::networdAddress`: no address for a prefix longer than 32 bits. -/
def IPv4Address.networdAddress (host : Endian) (a : IPv4Address) (prefixLen : UInt32) :
    Option (Option IPv4Address) :=
  if 32 < prefixLen then some none
  else
    (createMask 32 prefixLen).map fun mask =>
      some { a with addr := a.addr &&& byteswapOnLittleEndian host (n := 4) mask }

/-- `IPv4Address::subnetMask`. -/
def IPv4Address.subnetMask (host : Endian) (prefixLen : UInt32) : Option IPv4Address :=
  (createMask 32 prefixLen).map fun mask =>
    ⟨afInet, 0, ~~~ byteswapOnLittleEndian host (n := 4) mask⟩

/-- `IPv4Address::getPort`. -/
def IPv4Address.getPort (host : Endian) (a : IPv4Address) : BitVec (8 * 2) :=
  byteswapOnLittleEndian host a.port

/-! ### IPv6 -/

/-- `s6_addr[i]` is stored to. -/
def store (addr : Vector (BitVec 8) 16) (i : Nat) (f : BitVec 8 → BitVec 8) :
    Option (Vector (BitVec 8) 16) :=
  if h : i < 16 then some (addr.set i (f addr[i])) else none

/-- The loops over the other bytes, `turns` of them from `s6_addr[i]` on. -/
def fill (b : BitVec 8) : Nat → Nat → Vector (BitVec 8) 16 → Vector (BitVec 8) 16
  | 0, _, addr => addr
  | turns + 1, i, addr => fill b turns (i + 1) (addr.setIfInBounds i b)

/-- `IPv6Address::networdAddress`. -/
def IPv6Address.networdAddress (a : IPv6Address) (prefixLen : UInt32) : Option IPv6Address :=
  (createMask 8 (prefixLen % 8)).bind fun mask =>
    (store a.addr (prefixLen / 8).toNat (· &&& mask)).map fun addr =>
      { a with
        addr := fill 0 (16 - ((prefixLen / 8).toNat + 1)) ((prefixLen / 8).toNat + 1) addr }

/-- `IPv6Address::subnetMask`. -/
def IPv6Address.subnetMask (prefixLen : UInt32) : Option IPv6Address :=
  (createMask 8 (prefixLen % 8)).bind fun mask =>
    (store (Vector.replicate 16 0) (prefixLen / 8).toNat fun _ => ~~~ mask).map fun addr =>
      ⟨afInet6, 0, 0, fill 0xff (prefixLen / 8).toNat 0 addr, 0⟩

/-- `IPv6Address::getPort`. -/
def IPv6Address.getPort (host : Endian) (a : IPv6Address) : BitVec (8 * 2) :=
  byteswapOnLittleEndian host a.port

/-! ### Masks -/

/-- The `p` most significant bits of `mask` are set, and no other. -/
def IsPrefixMask {w : Nat} (p : Nat) (mask : BitVec w) : Prop :=
  ∀ i < w, mask.getMsbD i = decide (i < p)

theorem createMask_eq {w : Nat} {bits : UInt32} (hw : w ≤ 32) (hbits : bits.toNat ≤ w) :
    createMask w bits =
      if w - bits.toNat < 31 then some (BitVec.ofNat w (2 ^ (w - bits.toNat) - 1)) else none := by
  have hcount : (w + 2 ^ 64 - bits.toNat) % 2 ^ 64 = w - bits.toNat := by omega
  rw [createMask, hcount]
  by_cases hlt : w - bits.toNat < 31
  · have hone : toInt32 (2 ^ (w - bits.toNat)) = ((2 ^ (w - bits.toNat) : Nat) : Int) :=
      toInt32_of_lt (Nat.pow_lt_pow_right (by omega) hlt)
    have hpos : 0 < 2 ^ (w - bits.toNat) := Nat.two_pow_pos _
    have hdec : decrement ((2 ^ (w - bits.toNat) : Nat) : Int) =
        some ((2 ^ (w - bits.toNat) - 1 : Nat) : Int) := by
      rw [decrement, if_pos (by omega)]
      congr 1
      omega
    rw [shiftOne, if_pos (by omega), hone, Option.bind_some, hdec, if_pos hlt, Option.map_some,
      BitVec.ofInt_natCast]
  · rw [if_neg hlt]
    obtain heq | heq : w - bits.toNat = 31 ∨ w - bits.toNat = 32 := by omega
    · rw [heq]
      rfl
    · rw [heq]
      rfl

/-- The complement of `2 ^ (w - p) - 1`. -/
theorem isPrefixMask_not {w p : Nat} (hp : p ≤ w) :
    IsPrefixMask p (~~~ BitVec.ofNat w (2 ^ (w - p) - 1)) := by
  intro i hi
  have hlow : w - 1 - i < w := by omega
  rw [BitVec.getMsbD_not, BitVec.getMsbD_eq_getLsbD, BitVec.getLsbD_ofNat,
    Nat.testBit_two_pow_sub_one]
  simp only [hi, hlow, decide_true, Bool.true_and]
  by_cases h : i < p
  · have hout : ¬ w - 1 - i < w - p := by omega
    simp [h, hout]
  · have hin : w - 1 - i < w - p := by omega
    simp [h, hin]

/-- What a mask and its complement leave of a value is the same for 0 alone. -/
theorem and_eq_and_not_iff {w : Nat} (x mask : BitVec w) :
    x &&& mask = x &&& ~~~ mask ↔ x = 0#w := by
  constructor
  · intro h
    apply BitVec.eq_of_getLsbD_eq
    intro i hi
    have hbit := congrArg (fun v => v.getLsbD i) h
    simp only [BitVec.getLsbD_and, BitVec.getLsbD_not, hi, decide_true, Bool.true_and] at hbit
    simp only [BitVec.getLsbD_zero]
    cases hx : x.getLsbD i with
    | false => rfl
    | true => cases hm : mask.getLsbD i <;> simp [hx, hm] at hbit
  · rintro rfl
    simp

/-! ### Bytes in memory -/

theorem byteswap_not {n : Nat} (v : BitVec (8 * n)) : byteswap (~~~v) = ~~~byteswap v := by
  have hpow : 2 ^ (8 * n) = 256 ^ n := by rw [Nat.pow_mul]
  have hv : v.toNat < 256 ^ n := hpow ▸ v.isLt
  have hlt := Words.ofBytesLE_lt (Words.bytesLE n v.toNat).reverse
  rw [List.length_reverse, Words.length_bytesLE] at hlt
  apply BitVec.eq_of_toNat_eq
  rw [byteswap, byteswap, BitVec.toNat_not, BitVec.toNat_not, BitVec.toNat_ofNat,
    BitVec.toNat_ofNat, hpow, Words.bytesLE_compl hv, ← List.map_reverse, Words.ofBytesLE_compl,
    List.length_reverse, Words.length_bytesLE, Nat.mod_eq_of_lt hlt, Nat.mod_eq_of_lt (by omega)]

theorem byteswapOnLittleEndian_not (host : Endian) {n : Nat} (v : BitVec (8 * n)) :
    byteswapOnLittleEndian host (~~~v) = ~~~byteswapOnLittleEndian host v := by
  cases host with
  | little => exact byteswap_not v
  | big => rfl

theorem byteswapOnLittleEndian_twice (host : Endian) {n : Nat} (v : BitVec (8 * n)) :
    byteswapOnLittleEndian host (byteswapOnLittleEndian host v) = v := by
  cases host with
  | little => exact byteswap_byteswap v
  | big => rfl

@[simp]
theorem getElem_fill (b : BitVec 8) (turns i : Nat) (addr : Vector (BitVec 8) 16) (j : Nat)
    (hj : j < 16) :
    (fill b turns i addr)[j] = if i ≤ j ∧ j < i + turns then b else addr[j] := by
  induction turns generalizing i addr with
  | zero =>
      rw [fill, if_neg (by omega)]
  | succ turns ih =>
      rw [fill, ih, Vector.getElem_setIfInBounds]
      by_cases hij : i = j
      · subst hij
        rw [if_neg (by omega), if_pos rfl, if_pos (by omega)]
      · rw [if_neg hij]
        congr 1
        simp only [eq_iff_iff]
        omega

theorem store_eq (addr : Vector (BitVec 8) 16) {i : Nat} (hi : i < 16) (f : BitVec 8 → BitVec 8) :
    store addr i f = some (addr.set i (f addr[i])) :=
  dif_pos hi

/-! ### The network address -/

/-- `networdAddress(p)` is the address AND `subnetMask(p)`, whose `p` most significant bits
are set; it keeps the port and the family, and is its own network address. -/
def IPv4Address.Networks (host : Endian) (a : IPv4Address) (p : UInt32) : Prop :=
  ∃ mask net, subnetMask host p = some mask ∧ a.networdAddress host p = some (some net) ∧
    IsPrefixMask p.toNat (byteswapOnLittleEndian host mask.addr) ∧
    net.addr = a.addr &&& mask.addr ∧ net.getPort host = a.getPort host ∧
    net.family = a.family ∧ net.networdAddress host p = some (some net)

/-- The same of an IPv6 address, byte for byte. -/
def IPv6Address.Networks (host : Endian) (a : IPv6Address) (p : UInt32) : Prop :=
  ∃ mask net, subnetMask p = some mask ∧ a.networdAddress p = some net ∧
    (∀ i, (hi : i < 16) → IsPrefixMask (p.toNat - 8 * i) mask.addr[i]) ∧
    (∀ i, (hi : i < 16) → net.addr[i] = a.addr[i] &&& mask.addr[i]) ∧
    net.getPort host = a.getPort host ∧ net.family = a.family ∧ net.networdAddress p = some net

variable (host : Endian)

/-- The bits of the word behind a prefix of `p` bits. -/
def hostWord (p : UInt32) : BitVec 32 := BitVec.ofNat 32 (2 ^ (32 - p.toNat) - 1)

theorem createMask_word {p : UInt32} (hp : p.toNat ≤ 32) :
    createMask 32 p = if 2 ≤ p.toNat then some (hostWord p) else none := by
  have hcond : 32 - p.toNat < 31 ↔ 2 ≤ p.toNat := by omega
  rw [createMask_eq (Nat.le_refl 32) hp, hostWord]
  simp only [hcond]

theorem IPv4Address.subnetMask_eq {p : UInt32} (hp : p.toNat ≤ 32) (htwo : 2 ≤ p.toNat) :
    subnetMask host p =
      some ⟨afInet, 0, ~~~ byteswapOnLittleEndian host (n := 4) (hostWord p)⟩ := by
  rw [subnetMask, createMask_word hp, if_pos htwo, Option.map_some]

/-- **IPv4**: the mask leaves the host part, so that only 0 comes out right; with prefixes 0
and 1 the mask is undefined. -/
theorem IPv4Address.networks_iff_zero (a : IPv4Address) {p : UInt32} (hp : p.toNat ≤ 32) :
    a.Networks host p ↔ 2 ≤ p.toNat ∧ a.addr = 0 := by
  have hguard : ¬ 32 < p := by
    rw [UInt32.lt_iff_toNat_lt]
    exact Nat.not_lt.mpr hp
  by_cases htwo : 2 ≤ p.toNat
  · have hnet : ∀ b : IPv4Address, b.networdAddress host p = some (some { b with
        addr := b.addr &&& byteswapOnLittleEndian host (n := 4) (hostWord p) }) := by
      intro b
      rw [networdAddress, if_neg hguard, createMask_word hp, if_pos htwo, Option.map_some]
    constructor
    · rintro ⟨mask, net, hm, hn, -, haddr, -, -, -⟩
      rw [subnetMask_eq host hp htwo, Option.some.injEq] at hm
      rw [hnet a, Option.some.injEq, Option.some.injEq] at hn
      subst hm hn
      exact ⟨htwo, (and_eq_and_not_iff _ _).mp haddr⟩
    · rintro ⟨-, hzero⟩
      refine ⟨_, _, subnetMask_eq host hp htwo, hnet a, ?_, ?_, rfl, rfl, ?_⟩
      · rw [← byteswapOnLittleEndian_not, byteswapOnLittleEndian_twice]
        exact isPrefixMask_not hp
      · exact (and_eq_and_not_iff _ _).mpr hzero
      · rw [hnet, BitVec.and_assoc, BitVec.and_self]
  · constructor
    · rintro ⟨mask, net, hm, -⟩
      rw [subnetMask, createMask_word hp, if_neg htwo] at hm
      cases hm
    · rintro ⟨hge, -⟩
      exact absurd hge htwo

/-- The bits of the byte behind a prefix of `p` bits. -/
def hostBits (p : UInt32) : BitVec 8 := BitVec.ofNat 8 (2 ^ (8 - p.toNat % 8) - 1)

/-- What `networdAddress` leaves of the bytes: byte `p / 8` loses its prefix, and those behind
it are 0. -/
def networkBytes (addr : Vector (BitVec 8) 16) (p : UInt32) : Vector (BitVec 8) 16 :=
  Vector.ofFn fun i =>
    if i.val < p.toNat / 8 then addr[i]
    else if i.val = p.toNat / 8 then addr[i] &&& hostBits p else 0

/-- The bytes of the subnet mask. -/
def maskBytes (p : UInt32) : Vector (BitVec 8) 16 :=
  Vector.ofFn fun i =>
    if i.val < p.toNat / 8 then 0xff else if i.val = p.toNat / 8 then ~~~hostBits p else 0

@[simp]
theorem getElem_networkBytes (addr : Vector (BitVec 8) 16) (p : UInt32) (i : Nat) (hi : i < 16) :
    (networkBytes addr p)[i] =
      if i < p.toNat / 8 then addr[i]
      else if i = p.toNat / 8 then addr[i] &&& hostBits p else 0 := by
  rw [networkBytes, Vector.getElem_ofFn]
  rfl

/-- The bytes of the broadcast address: byte `p / 8` gets its host part set, and those behind
it are 255. -/
def broadcastBytes (addr : Vector (BitVec 8) 16) (p : UInt32) : Vector (BitVec 8) 16 :=
  Vector.ofFn fun i =>
    if i.val < p.toNat / 8 then addr[i]
    else if i.val = p.toNat / 8 then addr[i] ||| hostBits p else 0xff

@[simp]
theorem getElem_broadcastBytes (addr : Vector (BitVec 8) 16) (p : UInt32) (i : Nat) (hi : i < 16) :
    (broadcastBytes addr p)[i] =
      if i < p.toNat / 8 then addr[i]
      else if i = p.toNat / 8 then addr[i] ||| hostBits p else 0xff := by
  rw [broadcastBytes, Vector.getElem_ofFn]
  rfl

@[simp]
theorem getElem_maskBytes (p : UInt32) (i : Nat) (hi : i < 16) :
    (maskBytes p)[i] =
      if i < p.toNat / 8 then 0xff else if i = p.toNat / 8 then ~~~hostBits p else 0 := by
  rw [maskBytes, Vector.getElem_ofFn]

theorem networkBytes_twice (addr : Vector (BitVec 8) 16) (p : UInt32) :
    networkBytes (networkBytes addr p) p = networkBytes addr p := by
  apply Vector.ext
  intro i hi
  rw [getElem_networkBytes, getElem_networkBytes]
  split
  · rfl
  · split
    · rw [BitVec.and_assoc, BitVec.and_self]
    · rfl

theorem createMask_byte (p : UInt32) : createMask 8 (p % 8) = some (hostBits p) := by
  have hmod : (p % 8).toNat = p.toNat % 8 := UInt32.toNat_mod p 8
  rw [createMask_eq (by omega) (by omega), hmod, if_pos (by omega), hostBits]

theorem IPv6Address.networdAddress_eq (a : IPv6Address) {p : UInt32} (hp : p.toNat / 8 < 16) :
    a.networdAddress p = some { a with addr := networkBytes a.addr p } := by
  have hdiv : (p / 8).toNat = p.toNat / 8 := UInt32.toNat_div p 8
  have hbytes : fill 0 (16 - (p.toNat / 8 + 1)) (p.toNat / 8 + 1)
      (a.addr.set (p.toNat / 8) (a.addr[p.toNat / 8] &&& hostBits p)) = networkBytes a.addr p := by
    apply Vector.ext
    intro i hi
    rw [getElem_fill, getElem_networkBytes, Vector.getElem_set]
    grind
  rw [networdAddress, createMask_byte, Option.bind_some, hdiv, store_eq _ hp, Option.map_some,
    hbytes]

theorem IPv6Address.subnetMask_eq {p : UInt32} (hp : p.toNat / 8 < 16) :
    subnetMask p = some ⟨afInet6, 0, 0, maskBytes p, 0⟩ := by
  have hdiv : (p / 8).toNat = p.toNat / 8 := UInt32.toNat_div p 8
  have hbytes : fill 0xff (p.toNat / 8) 0
      ((Vector.replicate 16 0).set (p.toNat / 8) (~~~hostBits p)) = maskBytes p := by
    apply Vector.ext
    intro i hi
    rw [getElem_fill, getElem_maskBytes, Vector.getElem_set, Vector.getElem_replicate]
    grind
  rw [subnetMask, createMask_byte, Option.bind_some, hdiv, store_eq _ hp, Option.map_some, hbytes]

/-- Behind the array there is nothing to store to. -/
theorem IPv6Address.networdAddress_eq_none (a : IPv6Address) {p : UInt32}
    (hp : ¬ p.toNat / 8 < 16) : a.networdAddress p = none := by
  have hdiv : (p / 8).toNat = p.toNat / 8 := UInt32.toNat_div p 8
  rw [networdAddress, createMask_byte, Option.bind_some, hdiv, store, dif_neg hp, Option.map_none]

/-- The mask has the prefix that it should have. -/
theorem isPrefixMask_maskBytes (p : UInt32) (i : Nat) (hi : i < 16) :
    IsPrefixMask (p.toNat - 8 * i) (maskBytes p)[i] := by
  rw [getElem_maskBytes]
  by_cases hlt : i < p.toNat / 8
  · rw [if_pos hlt]
    intro j hj
    have hset : ∀ j < 8, (0xff : BitVec 8).getMsbD j = true := by decide
    have hin : j < p.toNat - 8 * i := by omega
    simp only [hset j hj, hin, decide_true]
  · rw [if_neg hlt]
    by_cases heq : i = p.toNat / 8
    · rw [if_pos heq, show p.toNat - 8 * i = p.toNat % 8 by omega]
      exact isPrefixMask_not (by omega)
    · rw [if_neg heq]
      intro j hj
      have hout : ¬ j < p.toNat - 8 * i := by omega
      have hzero : (0 : BitVec 8).getMsbD j = false := BitVec.getMsbD_zero
      simp only [hzero, hout, decide_false]

/-- Only where byte `p / 8` is 0 are the bytes those of the network. -/
theorem networkBytes_eq_and_iff (addr : Vector (BitVec 8) 16) {p : UInt32}
    (hp : p.toNat / 8 < 16) :
    (∀ i, (hi : i < 16) → (networkBytes addr p)[i] = addr[i] &&& (maskBytes p)[i]) ↔
      addr[p.toNat / 8] = 0 := by
  constructor
  · intro h
    have hbyte := h (p.toNat / 8) hp
    simp only [getElem_networkBytes, getElem_maskBytes, Nat.lt_irrefl, if_false, if_true] at hbyte
    exact (and_eq_and_not_iff _ _).mp hbyte
  · intro hzero i hi
    rw [getElem_networkBytes, getElem_maskBytes]
    by_cases hlt : i < p.toNat / 8
    · rw [if_pos hlt, if_pos hlt]
      exact (BitVec.and_allOnes).symm
    · rw [if_neg hlt, if_neg hlt]
      by_cases heq : i = p.toNat / 8
      · subst heq
        rw [if_pos rfl, if_pos rfl]
        exact (and_eq_and_not_iff _ _).mpr hzero
      · rw [if_neg heq, if_neg heq]
        exact (BitVec.and_zero).symm

/-- **IPv6**: of the byte with the end of the prefix the mask leaves the host part, so that
only 0 comes out right; with prefix 128 the code stores behind the array. -/
theorem IPv6Address.networks_iff_byte (a : IPv6Address) (p : UInt32) :
    a.Networks host p ↔ a.addr[p.toNat / 8]? = some 0 := by
  by_cases hp : p.toNat / 8 < 16
  · rw [Vector.getElem?_eq_getElem hp, Option.some.injEq]
    constructor
    · rintro ⟨mask, net, hm, hn, -, hand, -⟩
      rw [subnetMask_eq hp, Option.some.injEq] at hm
      rw [a.networdAddress_eq hp, Option.some.injEq] at hn
      subst hm hn
      exact (networkBytes_eq_and_iff _ hp).mp hand
    · intro hzero
      refine ⟨_, _, subnetMask_eq hp, a.networdAddress_eq hp, isPrefixMask_maskBytes p,
        (networkBytes_eq_and_iff _ hp).mpr hzero, rfl, rfl, ?_⟩
      rw [networdAddress_eq _ hp, networkBytes_twice]
  · rw [Vector.getElem?_eq_none (by omega)]
    constructor
    · rintro ⟨mask, net, -, hn, -⟩
      rw [a.networdAddress_eq_none hp] at hn
      cases hn
    · intro h
      cases h

/-! ### Both families -/

/-- `IPAddress`. -/
inductive IPAddress
  | v4 (a : IPv4Address)
  | v6 (a : IPv6Address)
  deriving DecidableEq

/-- The number of bits of an address. -/
def IPAddress.width : IPAddress → Nat
  | v4 _ => 32
  | v6 _ => 128

/-- `networdAddress(p)` is the network address. -/
def IPAddress.Networks : IPAddress → UInt32 → Prop
  | v4 a, p => a.Networks host p
  | v6 a, p => a.Networks host p

/-- The addresses and prefixes for which the wrong mask makes no difference. -/
def IPAddress.MaskHarmless : IPAddress → UInt32 → Prop
  | v4 a, p => 2 ≤ p.toNat ∧ a.addr = 0
  | v6 a, p => a.addr[p.toNat / 8]? = some 0

instance (a : IPAddress) (p : UInt32) : Decidable (a.MaskHarmless p) :=
  match a with
  | .v4 a => inferInstanceAs (Decidable (2 ≤ p.toNat ∧ a.addr = 0))
  | .v6 a => inferInstanceAs (Decidable (a.addr[p.toNat / 8]? = some 0))

/-- **Network addresses.** -/
theorem IPAddress.networks_iff (a : IPAddress) {p : UInt32} (hp : p.toNat ≤ a.width) :
    a.Networks host p ↔ a.MaskHarmless p := by
  cases a with
  | v4 a => exact a.networks_iff_zero host hp
  | v6 a => exact a.networks_iff_byte host p

/-- The address 0.0.0.0 is its own network address. -/
theorem IPAddress.networks_any : (IPAddress.v4 ⟨afInet, 0, 0⟩).Networks .little 8 :=
  (IPAddress.networks_iff .little _ (by decide)).mpr (by decide)

/-- The address 10.0.0.7 on a little-endian machine. -/
def tenAddress : IPv4Address := ⟨afInet, 0, 0x0700000a⟩

/-- **A network address that keeps the host part**: that of 10.0.0.7 with prefix 8 is 0.0.0.7,
though the subnet mask is 255.0.0.0. -/
theorem IPAddress.not_networks_ten :
    tenAddress.networdAddress .little 8 = some (some ⟨afInet, 0, 0x07000000⟩) ∧
      IPv4Address.subnetMask .little 8 = some ⟨afInet, 0, 0x000000ff⟩ ∧
      ¬ (IPAddress.v4 tenAddress).Networks .little 8 := by
  refine ⟨by decide, by decide, fun h => ?_⟩
  exact absurd ((tenAddress.networks_iff_zero .little (by decide)).mp h) (by decide)

end Mingo.Address
