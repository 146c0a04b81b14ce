import Mingo.Address.Network

/-!
# The broadcast addresses of address.cpp

`broadcastAddress` sets the bits that `CreateMask` gives, which are those behind
the prefix.  So it is right wherever the mask is defined and there is a byte for
the end of the prefix.

* `IPv4Address.broadcasts_iff_two`, `IPv6Address.broadcasts_iff_lt` -- the two ends
  of the range of prefixes where the code is undefined.
-/

namespace Mingo.Address

/-- `IPv4Address::broadcastAddress`: no address for a prefix longer than 32 bits. -/
def IPv4Address.broadcastAddress (host : Endian) (a : IPv4Address) (prefixLen : UInt32) :
    Option (Option IPv4Address) :=
  if 32 < prefixLen then some none
  else
    (createMask 32 prefixLen).map fun mask =>
      some { a with addr := a.addr ||| byteswapOnLittleEndian host (n := 4) mask }

/-- `IPv6Address::broadcastAddress`. -/
def IPv6Address.broadcastAddress (a : IPv6Address) (prefixLen : UInt32) : Option IPv6Address :=
  (createMask 8 (prefixLen % 8)).bind fun mask =>
    (store a.addr (prefixLen / 8).toNat (· ||| mask)).map fun addr =>
      { a with
        addr := fill 0xff (16 - ((prefixLen / 8).toNat + 1)) ((prefixLen / 8).toNat + 1) addr }

/-- `broadcastAddress(p)` is the address OR NOT `subnetMask(p)`, whose `p` most significant
bits are set. -/
def IPv4Address.Broadcasts (host : Endian) (a : IPv4Address) (p : UInt32) : Prop :=
  ∃ mask cast, subnetMask host p = some mask ∧ a.broadcastAddress host p = some (some cast) ∧
    IsPrefixMask p.toNat (byteswapOnLittleEndian host mask.addr) ∧
    cast.addr = a.addr ||| ~~~mask.addr

/-- The same of an IPv6 address, byte for byte. -/
def IPv6Address.Broadcasts (a : IPv6Address) (p : UInt32) : Prop :=
  ∃ mask cast, subnetMask p = some mask ∧ a.broadcastAddress p = some cast ∧
    (∀ i, (hi : i < 16) → IsPrefixMask (p.toNat - 8 * i) mask.addr[i]) ∧
    ∀ i, (hi : i < 16) → cast.addr[i] = a.addr[i] ||| ~~~mask.addr[i]

variable (host : Endian)

/-- **IPv4**: a shift by 32 bits for prefix 0, and an `int` that overflows for prefix 1. -/
theorem IPv4Address.broadcasts_iff_two (a : IPv4Address) {p : UInt32} (hp : p.toNat ≤ 32) :
    a.Broadcasts host p ↔ 2 ≤ p.toNat := by
  have hguard : ¬ 32 < p := by
    rw [UInt32.lt_iff_toNat_lt]
    exact Nat.not_lt.mpr hp
  by_cases htwo : 2 ≤ p.toNat
  · have hcast : a.broadcastAddress host p = some (some { a with
        addr := a.addr ||| byteswapOnLittleEndian host (n := 4) (hostWord p) }) := by
      rw [broadcastAddress, if_neg hguard, createMask_word hp, if_pos htwo, Option.map_some]
    refine iff_of_true ⟨_, _, subnetMask_eq host hp htwo, hcast, ?_, ?_⟩ htwo
    · rw [← byteswapOnLittleEndian_not, byteswapOnLittleEndian_twice]
      exact isPrefixMask_not hp
    · rw [BitVec.not_not]
  · refine iff_of_false ?_ htwo
    rintro ⟨mask, cast, hm, -⟩
    rw [subnetMask, createMask_word hp, if_neg htwo] at hm
    cases hm

theorem IPv6Address.broadcastAddress_eq (a : IPv6Address) {p : UInt32} (hp : p.toNat / 8 < 16) :
    a.broadcastAddress p = some { a with addr := broadcastBytes a.addr p } := by
  have hdiv : (p / 8).toNat = p.toNat / 8 := UInt32.toNat_div p 8
  have hbytes : fill 0xff (16 - (p.toNat / 8 + 1)) (p.toNat / 8 + 1)
      (a.addr.set (p.toNat / 8) (a.addr[p.toNat / 8] ||| hostBits p)) =
        broadcastBytes a.addr p := by
    apply Vector.ext
    intro i hi
    rw [getElem_fill, getElem_broadcastBytes, Vector.getElem_set]
    grind
  rw [broadcastAddress, createMask_byte, Option.bind_some, hdiv, store_eq _ hp, Option.map_some,
    hbytes]

/-- Byte for byte, the mask has the prefix set and the broadcast address the rest. -/
theorem broadcastBytes_eq_or (addr : Vector (BitVec 8) 16) (p : UInt32) (i : Nat) (hi : i < 16) :
    (broadcastBytes addr p)[i] = addr[i] ||| ~~~(maskBytes p)[i] := by
  rw [getElem_broadcastBytes, getElem_maskBytes]
  by_cases hlt : i < p.toNat / 8
  · rw [if_pos hlt, if_pos hlt]
    exact BitVec.or_zero.symm
  · rw [if_neg hlt, if_neg hlt]
    by_cases heq : i = p.toNat / 8
    · rw [if_pos heq, if_pos heq, BitVec.not_not]
    · rw [if_neg heq, if_neg heq]
      exact BitVec.or_allOnes.symm

/-- **IPv6**: prefix 128 ends behind the last byte. -/
theorem IPv6Address.broadcasts_iff_lt (a : IPv6Address) (p : UInt32) :
    a.Broadcasts p ↔ p.toNat < 128 := by
  by_cases hp : p.toNat / 8 < 16
  · refine iff_of_true ⟨_, _, subnetMask_eq hp, a.broadcastAddress_eq hp,
      isPrefixMask_maskBytes p, broadcastBytes_eq_or a.addr p⟩ ?_
    omega
  · refine iff_of_false ?_ (by omega)
    rintro ⟨mask, cast, hm, -⟩
    have hdiv : (p / 8).toNat = p.toNat / 8 := UInt32.toNat_div p 8
    rw [subnetMask, createMask_byte, Option.bind_some, hdiv, store, dif_neg hp] at hm
    cases hm

/-! ### Both families -/

/-- `broadcastAddress(p)` and `subnetMask(p)` are what they should be. -/
def IPAddress.Broadcasts : IPAddress → UInt32 → Prop
  | v4 a, p => a.Broadcasts host p
  | v6 a, p => a.Broadcasts p

/-- The prefixes for which neither function is undefined. -/
def IPAddress.MaskDefined : IPAddress → UInt32 → Prop
  | v4 _, p => 2 ≤ p.toNat
  | v6 _, p => p.toNat < 128

instance (a : IPAddress) (p : UInt32) : Decidable (a.MaskDefined p) :=
  match a with
  | .v4 _ => inferInstanceAs (Decidable (2 ≤ p.toNat))
  | .v6 _ => inferInstanceAs (Decidable (p.toNat < 128))

/-- **Broadcast addresses.** -/
theorem IPAddress.broadcasts_iff (a : IPAddress) {p : UInt32} (hp : p.toNat ≤ a.width) :
    a.Broadcasts host p ↔ a.MaskDefined p := by
  cases a with
  | v4 a => exact a.broadcasts_iff_two host hp
  | v6 a => exact a.broadcasts_iff_lt p

/-- 10.255.255.255 is the broadcast address of 10.0.0.7 with prefix 8. -/
theorem IPAddress.broadcasts_ten :
    tenAddress.broadcastAddress .little 8 = some (some ⟨afInet, 0, 0xffffff0a⟩) ∧
      (IPAddress.v4 tenAddress).Broadcasts .little 8 :=
  ⟨by decide, (IPAddress.broadcasts_iff .little (.v4 tenAddress) (by decide)).mpr (by decide)⟩

/-- **The ends of the range**: prefix 0 of an IPv4 address shifts by the width of the type, and
prefix 128 of an IPv6 address stores behind the array. -/
theorem IPAddress.not_broadcasts_ends :
    ¬ (IPAddress.v4 tenAddress).Broadcasts .little 0 ∧
      ¬ (IPAddress.v6 ⟨afInet6, 0, 0, Vector.replicate 16 0, 0⟩).Broadcasts .little 128 := by
  constructor
  · exact fun h => absurd ((tenAddress.broadcasts_iff_two .little (by decide)).mp h) (by decide)
  · exact fun h => absurd ((IPv6Address.broadcasts_iff_lt _ 128).mp h) (by decide)

end Mingo.Address
