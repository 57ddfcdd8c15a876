import SilanKernel.Csky.Uaccess
import SilanKernel.Data.OnesSum

/-!
# SilanKernel.Csky.Checksum

The **internet checksum** on a little-endian csky: `arch/csky/lib/checksum.c`,
`arch/csky/include/asm/checksum.h` and, for comparison, the generic `csum_ipv6_magic` of
`include/net/ip6_checksum.h`.

Every step of `do_csum` brings the carries it makes around sooner or later, so its running sum
stands for the sum of the 16-bit words read so far. The `csum_ipv6_magic` of csky adds without
carries and takes the length and the protocol in the byte order of the processor.
-/

namespace SilanKernel.Csky

/-! ### `do_csum` and `csum_partial` -/

variable (mem : Addr → BitVec 8)

/-- `*(unsigned short *) buff` -/
def load16 (a : Addr) : BitVec 32 := (mem (a + 1) ++ mem a).setWidth 32

def load8 (a : Addr) : BitVec 32 := (mem a).setWidth 32

/-- The lower half and the upper half added. -/
def addHalves (x : BitVec 32) : BitVec 32 := (x &&& 0xffff#32) + (x >>> 16)

def from32to16 (x : BitVec 32) : BitVec 16 := (addHalves (addHalves x)).setWidth 16

/-- The loop of `do_csum` over 32-bit words; the result includes the last carry. -/
def csumWords (mem : Addr → BitVec 8) : Nat → Addr → BitVec 32 → BitVec 32 → BitVec 32 × BitVec 32
  | 0, _, result, carry => (result, carry)
  | count + 1, buff, result, carry =>
    let w := load32 mem buff
    let result := result + carry
    let result := result + w
    csumWords mem count (buff + 4) result (if w > result then 1 else 0)

/-- The part of `do_csum` for whole words, from an address aligned to 4. -/
def csumAligned (buff : Addr) (count : Nat) (result : BitVec 32) : BitVec 32 :=
  if count = 0 then result
  else
    let (result, carry) := csumWords mem count buff result 0
    addHalves (result + carry)

/-- The words and a last halfword, from an address aligned to 4, with the address after them. -/
def csumHalfwords (buff : Addr) (count len : Nat) (result : BitVec 32) :
    BitVec 32 × Addr :=
  let count := count / 2
  let result := csumAligned mem buff count result
  let buff := buff + BitVec.ofNat 32 (4 * count)
  if len / 2 % 2 = 1 then (result + load16 mem buff, buff + 2) else (result, buff)

/-- The halfwords of `len` bytes from an even address. -/
def csumEven (buff : Addr) (len : Nat) (result : BitVec 32) : BitVec 32 × Addr :=
  let count := len / 2
  if count = 0 then (result, buff)
  else if buff &&& 2 ≠ 0 then csumHalfwords mem (buff + 2) (count - 1) (len - 2)
    (result + load16 mem buff)
  else csumHalfwords mem buff count len result

/-- `((result >> 8) & 0xff) | ((result & 0xff) << 8)` -/
def swapBytes (x : BitVec 32) : BitVec 32 := ((x >>> 8) &&& 0xff#32) ||| ((x &&& 0xff#32) <<< 8)

def doCsum (buff : Addr) (len : Int) : BitVec 32 :=
  if len ≤ 0 then 0
  else
    let odd := buff &&& 1 = 1
    let result : BitVec 32 := if odd then load8 mem buff <<< 8 else 0
    let len := if odd then len.toNat - 1 else len.toNat
    let buff := if odd then buff + 1 else buff
    let (result, buff) := csumEven mem buff len result
    let result := if len % 2 = 1 then result + load8 mem buff else result
    let result := (from32to16 result).setWidth 32
    if odd then swapBytes result else result

def csumPartial (buff : Addr) (len : Int) (sum : BitVec 32) : BitVec 32 :=
  let result := doCsum mem buff len + sum
  if sum > result then result + 1 else result

/-! ### `csum_ipv6_magic` -/

/-- `csum_fold` -/
def csumFold (csum : BitVec 32) : BitVec 16 :=
  (~~~((csum.rotateRight 16 + csum) >>> 16)).setWidth 16

/-- The four words of an address, as a little-endian processor loads them. -/
abbrev In6Addr := Fin 4 → BitVec 32

variable (saddr daddr : In6Addr)

/-- `csum_ipv6_magic` of csky -/
def csumIpv6Magic (len : BitVec 32) (proto : BitVec 16) (sum : BitVec 32) :
    BitVec 16 :=
  let sum := sum + saddr 0
  let sum := sum + saddr 1
  let sum := sum + saddr 2
  let sum := sum + saddr 3
  let sum := sum + daddr 0
  let sum := sum + daddr 1
  let sum := sum + daddr 2
  let sum := sum + daddr 3
  let sum := sum + (len + proto.setWidth 32)
  csumFold sum

/-- `sum += x; carry = (sum < x); sum += carry;` -/
def addCarry (sum x : BitVec 32) : BitVec 32 :=
  let sum := sum + x
  let carry := if sum < x then 1 else 0
  sum + carry

/-- `htonl` on a little-endian processor -/
def htonl (x : BitVec 32) : BitVec 32 :=
  x.extractLsb' 0 8 ++ x.extractLsb' 8 8 ++ x.extractLsb' 16 8 ++ x.extractLsb' 24 8

/-- `csum_ipv6_magic` of `include/net/ip6_checksum.h` -/
def csumIpv6MagicGeneric (len : BitVec 32) (proto : BitVec 16) (csum : BitVec 32) :
    BitVec 16 :=
  let sum := addCarry csum (saddr 0)
  let sum := addCarry sum (saddr 1)
  let sum := addCarry sum (saddr 2)
  let sum := addCarry sum (saddr 3)
  let sum := addCarry sum (daddr 0)
  let sum := addCarry sum (daddr 1)
  let sum := addCarry sum (daddr 2)
  let sum := addCarry sum (daddr 3)
  let sum := addCarry sum (htonl len)
  let sum := addCarry sum (htonl (proto.setWidth 32))
  csumFold sum

/-- The plain sum of all that `csum_ipv6_magic` adds. -/
def magicTotal (len : BitVec 32) (proto : BitVec 16) (sum : BitVec 32) : Nat :=
  sum.toNat + (saddr 0).toNat + (saddr 1).toNat + (saddr 2).toNat + (saddr 3).toNat +
    (daddr 0).toNat + (daddr 1).toNat + (daddr 2).toNat + (daddr 3).toNat +
    (len.toNat + proto.toNat)

/-- What csky folds. -/
def magicSum (len : BitVec 32) (proto : BitVec 16) (sum : BitVec 32) : BitVec 32 :=
  sum + saddr 0 + saddr 1 + saddr 2 + saddr 3 + daddr 0 + daddr 1 + daddr 2 + daddr 3 +
    (len + proto.setWidth 32)

/-- What the generic function folds. -/
def magicSumGeneric (len : BitVec 32) (proto : BitVec 16) (sum : BitVec 32) :
    BitVec 32 :=
  [saddr 0, saddr 1, saddr 2, saddr 3, daddr 0, daddr 1, daddr 2, daddr 3, htonl len,
    htonl (proto.setWidth 32)].foldl addCarry sum

end SilanKernel.Csky
