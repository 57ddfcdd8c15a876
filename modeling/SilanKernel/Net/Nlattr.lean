import Mathlib.Algebra.Group.Int.Even

/-!
# SilanKernel.Net.Nlattr

Netlink attributes, `lib/nlattr.c` and `include/net/netlink.h`: `nla_parse` walks a
stream of attributes a user has sent, checks each against a policy (`validate_nla`)
and keeps a pointer to the last one of each type.

A pointer into the stream is its distance from `head`. The bytes are a function of that
distance, so an access outside the buffer has a value too; **every byte read is put into
a log**, whatever it was read for. `tb` is memory as well, of which the caller has
set aside the cells up to `maxtype`. What is an `int` in the source is an integer here:
all of them stay between `-3` and the length of the buffer, or below `2 ^ 17`.
-/

namespace SilanKernel.Net.Nlattr

def EINVAL : Int := 22
def ERANGE : Int := 34

/-! ### Policies -/

/-- The attribute types of a policy, `NLA_UNSPEC` to `NLA_BINARY`. -/
inductive NlaType
  | unspec | u8 | u16 | u32 | u64 | string | flag | msecs | nested | nestedCompat
      | nulString | binary
  deriving DecidableEq

/-- The type a number stands for; `none` above `NLA_TYPE_MAX`. -/
def NlaType.ofCode (code : BitVec 16) : Option NlaType :=
  [unspec, u8, u16, u32, u64, string, flag, msecs, nested, nestedCompat, nulString,
    binary][code.toNat]?

/-- `struct nla_policy` -/
structure NlaPolicy where
  type : BitVec 16
  len : BitVec 16

/-- `nla_attr_minlen` -/
def nlaAttrMinlen : NlaType → Int
  | .u8 => 1
  | .u16 => 2
  | .u32 => 4
  | .u64 => 8
  | .nested => 4
  | _ => 0

/-! ### The stream -/

/-- The bytes from `head` on, and the byte order of the machine. -/
structure Stream where
  byte : Nat → BitVec 8
  be : Bool

/-- What the parser changes: the bytes it has read so far, latest first, and `tb`. -/
structure Parser where
  reads : List Nat
  tb : Nat → Option Nat

/-- Why a call does not return: `BUG_ON`, or no end within the given number of turns. -/
inductive Stop
  | bug
  | endless
  deriving DecidableEq

abbrev Parse := EStateM Stop Parser

/-- `NLA_ALIGN` -/
def nlaAlign (len : Nat) : Nat := (len + 3) / 4 * 4

/-- `NLA_HDRLEN` -/
def NLA_HDRLEN : Nat := 4

namespace Stream

variable (b : Stream)

def read (a : Nat) : Parse (BitVec 8) := do
  modify fun s => { s with reads := a :: s.reads }
  return b.byte a

def read16 (a : Nat) : Parse Nat := do
  let x ← b.read a
  let y ← b.read (a + 1)
  return ((if b.be then x ++ y else y ++ x) : BitVec 16).toNat

/-- The field `nla_len`, the length with the header. -/
def lenField (nla : Nat) : Parse Nat := b.read16 nla

/-- `nla_type`: the type without the two flags. -/
def nlaType (nla : Nat) : Parse Nat := do
  let type ← b.read16 (nla + 2)
  return type % 2 ^ 14

/-- `nla_len`, the length of the payload. -/
def nlaLen (nla : Nat) : Parse Int := do
  let len ← b.lenField nla
  return len - NLA_HDRLEN

/-- `nla_data` -/
def nlaData (nla : Nat) : Nat := nla + NLA_HDRLEN

/-- `nla_ok` -/
def nlaOk (nla : Nat) (remaining : Int) : Parse Bool := do
  if (4 : Int) ≤ remaining then
    let len ← b.lenField nla
    if 4 ≤ len then
      let len ← b.lenField nla
      return decide ((len : Int) ≤ remaining)
    else return false
  else return false

/-- `nla_next`: the attribute after this one and the bytes that remain. -/
def nlaNext (nla : Nat) (remaining : Int) : Parse (Nat × Int) := do
  let len ← b.lenField nla
  let totlen := nlaAlign len
  return (nla + totlen, remaining - totlen)

/-- `memchr(s, '\0', n)` -/
def memchrNul (s : Nat) : Nat → Parse (Option Nat)
  | 0 => return none
  | n + 1 => do
    let c ← b.read s
    if c = 0 then return some s else memchrNul (s + 1) n

/-! ### `validate_nla` -/

/-- The part under `case NLA_STRING`. -/
def validateString (nla : Nat) (attrlen len : Int) : Parse Int := do
  if attrlen < 1 then return -ERANGE
  else if len ≠ 0 then
    let c ← b.read (nlaData nla + (attrlen - 1).toNat)
    let attrlen := if c = 0 then attrlen - 1 else attrlen
    if len < attrlen then return -ERANGE else return 0
  else return 0

/-- The part under `case NLA_NUL_STRING`. `memchr` takes its bound as a `size_t`. -/
def validateNulString (nla : Nat) (attrlen len : Int) : Parse Int := do
  let minlen := if len ≠ 0 then min attrlen (len + 1) else attrlen
  if minlen = 0 then return -EINVAL
  else
    let found ← b.memchrNul (nlaData nla) (minlen % 2 ^ 32).toNat
    match found with
    | none => return -EINVAL
    | some _ => b.validateString nla attrlen len

/-- The part under `case NLA_NESTED_COMPAT`. -/
def validateNestedCompat (nla : Nat) (attrlen : Int) (len : Nat) : Parse Int := do
  if attrlen < len then return -ERANGE
  else if attrlen < nlaAlign len then return 0
  else if attrlen < nlaAlign len + NLA_HDRLEN then return -ERANGE
  else
    let nestedLen ← b.nlaLen (nlaData nla + nlaAlign len)
    if attrlen < nlaAlign len + NLA_HDRLEN + nestedLen then return -ERANGE else return 0

/-- The part under `default`. -/
def validateMinlen (type : NlaType) (attrlen len : Int) : Int :=
  let minlen := if len ≠ 0 then len else if type ≠ .unspec then nlaAttrMinlen type else 0
  if attrlen < minlen then -ERANGE else 0

/-- The `switch` of `validate_nla`. -/
def validateType (nla : Nat) (attrlen : Int) (len : Nat) : NlaType → Parse Int
  | .flag => return if 0 < attrlen then -ERANGE else 0
  | .nulString => b.validateNulString nla attrlen len
  | .string => b.validateString nla attrlen len
  | .binary => return if len ≠ 0 ∧ (len : Int) < attrlen then -ERANGE else 0
  | .nestedCompat => b.validateNestedCompat nla attrlen len
  | .nested => return if attrlen = 0 then 0 else validateMinlen .nested attrlen len
  | type => return validateMinlen type attrlen len

/-- `validate_nla` -/
def validateNla (nla maxtype : Nat) (policy : Nat → NlaPolicy) : Parse Int := do
  let attrlen ← b.nlaLen nla
  let type ← b.nlaType nla
  if type = 0 ∨ maxtype < type then return 0
  else
    match NlaType.ofCode (policy type).type with
    | none => throw .bug
    | some t => b.validateType nla attrlen (policy type).len.toNat t

/-! ### `nla_parse` -/

/-- The check of one attribute: without a policy there is none. -/
def check (nla maxtype : Nat) : Option (Nat → NlaPolicy) → Parse Int
  | none => return 0
  | some policy => b.validateNla nla maxtype policy

/-- The loop of `nla_parse`. -/
def parseLoop (maxtype : Nat) (policy : Option (Nat → NlaPolicy)) : Nat → Nat → Int → Parse Int
  | 0, _, _ => throw .endless
  | fuel + 1, nla, rem => do
    let ok ← b.nlaOk nla rem
    if ok then
      let type ← b.nlaType nla
      if 0 < type ∧ type ≤ maxtype then
        let err ← b.check nla maxtype policy
        if err < 0 then return err
        else
          modify fun s => { s with tb := Function.update s.tb type (some nla) }
          let (next, rem) ← b.nlaNext nla rem
          parseLoop maxtype policy fuel next rem
      else
        let (next, rem) ← b.nlaNext nla rem
        parseLoop maxtype policy fuel next rem
    else return 0

/-- `nla_parse` on a buffer of `len` bytes, with the loop given `fuel` turns. -/
def nlaParse (fuel maxtype len : Nat) (policy : Option (Nat → NlaPolicy)) : Parse Int := do
  modify fun s => { s with tb := fun t => if t ≤ maxtype then none else s.tb t }
  b.parseLoop maxtype policy fuel 0 len

end Stream

end SilanKernel.Net.Nlattr
