import Mathlib.Algebra.Group.Nat.Even

/-!
# SilanKernel.Net.Filter

Socket filters, `net/core/filter.c`: the check `sk_chk_filter` of a user's program and the
interpreter `sk_run_filter`.

The check goes through the program once, replaces each user code by the code the interpreter
switches on, and rejects what would jump or index out of range; `check_load_and_stores` then
follows which scratch cells have been written. The interpreter keeps a log of the scratch cells
it reads and writes, and **a fetch outside the program has no result**. The packet is what
the interpreter reads of it: header fields, the linear part as memory relative to
`skb->data`, and the answers of `skb_copy_bits` for the paged part.
-/

namespace SilanKernel.Net

def BPF_MAXINSNS : Nat := 4096
def BPF_MEMWORDS : Nat := 16
def EINVAL : Int := 22
def ENOMEM : Int := 12

def SKF_AD_OFF : Int := -0x1000
def SKF_NET_OFF : Int := -0x100000
def SKF_LL_OFF : Int := -0x200000

/-! ### Codes -/

/-- The codes `BPF_S_*` of a checked program. -/
inductive BpfS where
  | retK | retA
  | aluAddK | aluAddX | aluSubK | aluSubX | aluMulK | aluMulX | aluDivX
  | aluAndK | aluAndX | aluOrK | aluOrX | aluLshK | aluLshX | aluRshK | aluRshX | aluNeg
  | ldWAbs | ldHAbs | ldBAbs | ldWLen | ldWInd | ldHInd | ldBInd | ldImm
  | ldxWLen | ldxBMsh | ldxImm | miscTax | miscTxa | aluDivK
  | ldMem | ldxMem | st | stx
  | jmpJa | jmpJeqK | jmpJeqX | jmpJgeK | jmpJgeX | jmpJgtK | jmpJgtX | jmpJsetK | jmpJsetX
  | ancProtocol | ancPkttype | ancIfindex | ancNlattr | ancNlattrNest | ancMark | ancQueue
  | ancHatype | ancRxhash | ancCpu
deriving DecidableEq, Repr

namespace BpfS

/-- The enumeration in the order of the header; its first member is 1. -/
def enum : List BpfS :=
  [retK, retA, aluAddK, aluAddX, aluSubK, aluSubX, aluMulK, aluMulX, aluDivX, aluAndK, aluAndX,
    aluOrK, aluOrX, aluLshK, aluLshX, aluRshK, aluRshX, aluNeg, ldWAbs, ldHAbs, ldBAbs, ldWLen,
    ldWInd, ldHInd, ldBInd, ldImm, ldxWLen, ldxBMsh, ldxImm, miscTax, miscTxa, aluDivK, ldMem,
    ldxMem, st, stx, jmpJa, jmpJeqK, jmpJeqX, jmpJgeK, jmpJgeX, jmpJgtK, jmpJgtX, jmpJsetK,
    jmpJsetX, ancProtocol, ancPkttype, ancIfindex, ancNlattr, ancNlattrNest, ancMark, ancQueue,
    ancHatype, ancRxhash, ancCpu]

def toCode (op : BpfS) : BitVec 16 := BitVec.ofNat 16 (enum.idxOf op + 1)

def ofCode (code : BitVec 16) : Option BpfS :=
  if code = 0 then none else enum[code.toNat - 1]?

theorem ofCode_toCode (op : BpfS) : ofCode op.toCode = some op := by
  cases op <;> rfl

/-- The conditional jumps. -/
def conditional : BpfS → Bool
  | jmpJeqK | jmpJeqX | jmpJgeK | jmpJgeX | jmpJgtK | jmpJgtX | jmpJsetX | jmpJsetK => true
  | _ => false

/-- The instructions with a scratch cell as operand. -/
def scratch : BpfS → Bool
  | ldMem | ldxMem | st | stx => true
  | _ => false

/-- The loads from a fixed place of the packet. -/
def absolute : BpfS → Bool
  | ldWAbs | ldHAbs | ldBAbs => true
  | _ => false

end BpfS

def BPF_LD := 0x00
def BPF_LDX := 0x01
def BPF_ST := 0x02
def BPF_STX := 0x03
def BPF_ALU := 0x04
def BPF_JMP := 0x05
def BPF_RET := 0x06
def BPF_MISC := 0x07
def BPF_W := 0x00
def BPF_H := 0x08
def BPF_B := 0x10
def BPF_IMM := 0x00
def BPF_ABS := 0x20
def BPF_IND := 0x40
def BPF_MEM := 0x60
def BPF_LEN := 0x80
def BPF_MSH := 0xa0
def BPF_ADD := 0x00
def BPF_SUB := 0x10
def BPF_MUL := 0x20
def BPF_DIV := 0x30
def BPF_OR := 0x40
def BPF_AND := 0x50
def BPF_LSH := 0x60
def BPF_RSH := 0x70
def BPF_NEG := 0x80
def BPF_JA := 0x00
def BPF_JEQ := 0x10
def BPF_JGT := 0x20
def BPF_JGE := 0x30
def BPF_JSET := 0x40
def BPF_K := 0x00
def BPF_X := 0x08
def BPF_A := 0x10
def BPF_TAX := 0x00
def BPF_TXA := 0x80

/-- The table `codes` of `sk_chk_filter`; a code that is not in it is 0 there, or past its end. -/
def codes : List (Nat × BpfS) :=
  [(BPF_ALU ||| BPF_ADD ||| BPF_K, .aluAddK), (BPF_ALU ||| BPF_ADD ||| BPF_X, .aluAddX),
    (BPF_ALU ||| BPF_SUB ||| BPF_K, .aluSubK), (BPF_ALU ||| BPF_SUB ||| BPF_X, .aluSubX),
    (BPF_ALU ||| BPF_MUL ||| BPF_K, .aluMulK), (BPF_ALU ||| BPF_MUL ||| BPF_X, .aluMulX),
    (BPF_ALU ||| BPF_DIV ||| BPF_X, .aluDivX),
    (BPF_ALU ||| BPF_AND ||| BPF_K, .aluAndK), (BPF_ALU ||| BPF_AND ||| BPF_X, .aluAndX),
    (BPF_ALU ||| BPF_OR ||| BPF_K, .aluOrK), (BPF_ALU ||| BPF_OR ||| BPF_X, .aluOrX),
    (BPF_ALU ||| BPF_LSH ||| BPF_K, .aluLshK), (BPF_ALU ||| BPF_LSH ||| BPF_X, .aluLshX),
    (BPF_ALU ||| BPF_RSH ||| BPF_K, .aluRshK), (BPF_ALU ||| BPF_RSH ||| BPF_X, .aluRshX),
    (BPF_ALU ||| BPF_NEG, .aluNeg),
    (BPF_LD ||| BPF_W ||| BPF_ABS, .ldWAbs), (BPF_LD ||| BPF_H ||| BPF_ABS, .ldHAbs),
    (BPF_LD ||| BPF_B ||| BPF_ABS, .ldBAbs), (BPF_LD ||| BPF_W ||| BPF_LEN, .ldWLen),
    (BPF_LD ||| BPF_W ||| BPF_IND, .ldWInd), (BPF_LD ||| BPF_H ||| BPF_IND, .ldHInd),
    (BPF_LD ||| BPF_B ||| BPF_IND, .ldBInd), (BPF_LD ||| BPF_IMM, .ldImm),
    (BPF_LDX ||| BPF_W ||| BPF_LEN, .ldxWLen), (BPF_LDX ||| BPF_B ||| BPF_MSH, .ldxBMsh),
    (BPF_LDX ||| BPF_IMM, .ldxImm), (BPF_MISC ||| BPF_TAX, .miscTax),
    (BPF_MISC ||| BPF_TXA, .miscTxa), (BPF_RET ||| BPF_K, .retK), (BPF_RET ||| BPF_A, .retA),
    (BPF_ALU ||| BPF_DIV ||| BPF_K, .aluDivK), (BPF_LD ||| BPF_MEM, .ldMem),
    (BPF_LDX ||| BPF_MEM, .ldxMem), (BPF_ST, .st), (BPF_STX, .stx),
    (BPF_JMP ||| BPF_JA, .jmpJa), (BPF_JMP ||| BPF_JEQ ||| BPF_K, .jmpJeqK),
    (BPF_JMP ||| BPF_JEQ ||| BPF_X, .jmpJeqX), (BPF_JMP ||| BPF_JGE ||| BPF_K, .jmpJgeK),
    (BPF_JMP ||| BPF_JGE ||| BPF_X, .jmpJgeX), (BPF_JMP ||| BPF_JGT ||| BPF_K, .jmpJgtK),
    (BPF_JMP ||| BPF_JGT ||| BPF_X, .jmpJgtX), (BPF_JMP ||| BPF_JSET ||| BPF_K, .jmpJsetK),
    (BPF_JMP ||| BPF_JSET ||| BPF_X, .jmpJsetX)]

/-- The cases `SKF_AD_OFF + SKF_AD_*` of an absolute load. -/
def ancillary (k : BitVec 32) : Option BpfS :=
  [(0, BpfS.ancProtocol), (4, .ancPkttype), (8, .ancIfindex), (12, .ancNlattr),
    (16, .ancNlattrNest), (20, .ancMark), (24, .ancQueue), (28, .ancHatype), (32, .ancRxhash),
    (36, .ancCpu)].lookup (k.toInt - SKF_AD_OFF)

/-! ### The check -/

/-- `struct sock_filter` -/
structure SockFilter where
  code : BitVec 16
  jt : BitVec 8
  jf : BitVec 8
  k : BitVec 32
deriving DecidableEq, Repr

/-- `reciprocal_value`; `do_div` divides 64-bit numbers. -/
def reciprocalValue (k : BitVec 32) : BitVec 32 :=
  BitVec.ofNat 32 ((2 ^ 32 + (k - 1).toNat) / k.toNat)

/-- `reciprocal_divide` -/
def reciprocalDivide (a r : BitVec 32) : BitVec 32 :=
  BitVec.ofNat 32 (a.toNat * r.toNat / 2 ^ 32)

/-- The body of the loop of `sk_chk_filter`; `none` is `-EINVAL`. -/
def chkInsn (flen pc : Nat) (ftest : SockFilter) : Option SockFilter :=
  (codes.lookup ftest.code.toNat).bind fun code =>
    if code = .aluDivK then
      if ftest.k = 0 then none
      else some { ftest with code := code.toCode, k := reciprocalValue ftest.k }
    else if code.scratch then
      if ftest.k.toNat ≥ BPF_MEMWORDS then none else some { ftest with code := code.toCode }
    else if code = .jmpJa then
      if ftest.k.toNat ≥ flen - pc - 1 then none else some { ftest with code := code.toCode }
    else if code.conditional then
      if pc + ftest.jt.toNat + 1 ≥ flen ∨ pc + ftest.jf.toNat + 1 ≥ flen then none
      else some { ftest with code := code.toCode }
    else if code.absolute then
      some { ftest with code := ((ancillary ftest.k).getD code).toCode }
    else some { ftest with code := code.toCode }

def chkLoop (flen pc : Nat) : List SockFilter → Option (List SockFilter)
  | [] => some []
  | ftest :: filter =>
    (chkInsn flen pc ftest).bind fun ftest' =>
      (chkLoop flen (pc + 1) filter).bind fun filter' => some (ftest' :: filter')

/-- The bit of cell `k` in `memvalid`. -/
def cellBit (k : BitVec 32) : BitVec 16 := 1#16 <<< k.toNat

/-- The loop of `check_load_and_stores` over the rest of the program; `masks` is the array of
that name. The result says whether all loads are of cells that have been written. -/
def loadStoreLoop (pc : Nat) (memvalid : BitVec 16) (masks : Nat → BitVec 16) :
    List SockFilter → Bool
  | [] => true
  | ftest :: filter =>
    let memvalid := memvalid &&& masks pc
    match BpfS.ofCode ftest.code with
    | some .st | some .stx =>
      loadStoreLoop (pc + 1) (memvalid ||| cellBit ftest.k) masks filter
    | some .ldMem | some .ldxMem =>
      if memvalid &&& cellBit ftest.k = 0 then false
      else loadStoreLoop (pc + 1) memvalid masks filter
    | some .jmpJa =>
      let target := pc + 1 + ftest.k.toNat
      loadStoreLoop (pc + 1) (BitVec.allOnes 16)
        (Function.update masks target (masks target &&& memvalid)) filter
    | some op =>
      if op.conditional then
        let onTrue := pc + 1 + ftest.jt.toNat
        let masks := Function.update masks onTrue (masks onTrue &&& memvalid)
        let onFalse := pc + 1 + ftest.jf.toNat
        loadStoreLoop (pc + 1) (BitVec.allOnes 16)
          (Function.update masks onFalse (masks onFalse &&& memvalid)) filter
      else loadStoreLoop (pc + 1) memvalid masks filter
    | none => loadStoreLoop (pc + 1) memvalid masks filter

/-- `check_load_and_stores`; `mem` says whether `kmalloc` succeeds. -/
def checkLoadAndStores (mem : Bool) (filter : List SockFilter) : Except Int Unit :=
  if mem = false then .error (-ENOMEM)
  else if loadStoreLoop 0 0 (fun _ => BitVec.allOnes 16) filter then .ok ()
  else .error (-EINVAL)

/-- `sk_chk_filter`: the program with its codes replaced, or the error. -/
def skChkFilter (mem : Bool) (filter : List SockFilter) : Except Int (List SockFilter) :=
  if filter.length = 0 ∨ filter.length > BPF_MAXINSNS then .error (-EINVAL)
  else
    match chkLoop filter.length 0 filter with
    | none => .error (-EINVAL)
    | some filter =>
      match filter.getLast?.bind fun last => BpfS.ofCode last.code with
      | some .retK | some .retA =>
        match checkLoadAndStores mem filter with
        | .ok () => .ok filter
        | .error e => .error e
      | _ => .error (-EINVAL)

/-! ### Packets -/

/-- `struct net_device`, as far as it is read. -/
structure NetDevice where
  ifindex : BitVec 32
  type : BitVec 16

/-- `struct sk_buff`, as far as it is read. Pointers are offsets from `skb->data`; `byte` is
the memory around it, and `copyBits` answers `skb_copy_bits`. -/
structure SkBuff where
  len : BitVec 32
  dataLen : BitVec 32
  protocol : BitVec 16
  pktType : BitVec 3
  dev : Option NetDevice
  mark : BitVec 32
  queueMapping : BitVec 16
  rxhash : BitVec 32
  byte : Int → BitVec 8
  head : Int
  tail : Int
  networkHeader : Int
  macHeader : Int
  copyBits : Int → Nat → Option (Nat → BitVec 8)

/-- What the machine adds: its byte order, its number, and its shifts by 32 or more, which C
leaves open. -/
structure Cpu where
  bigEndian : Bool
  id : BitVec 32
  lsh : BitVec 32 → BitVec 32 → BitVec 32
  rsh : BitVec 32 → BitVec 32 → BitVec 32

section

variable (skb : SkBuff)

/-- The bytes at an offset from `skb->data`. -/
def SkBuff.at (off : Int) : Nat → BitVec 8 := fun i => skb.byte (off + i)

/-- `skb_header_pointer` -/
def skbHeaderPointer (offset : Int) (len : Nat) : Option (Nat → BitVec 8) :=
  let hlen := (skb.len - skb.dataLen).toInt
  if hlen - offset ≥ len then some (skb.at offset) else skb.copyBits offset len

/-- `__load_pointer` -/
def loadPointerNeg (k : Int) (size : Nat) : Option (Nat → BitVec 8) :=
  let ptr : Option Int :=
    if k ≥ SKF_NET_OFF then some (skb.networkHeader + k - SKF_NET_OFF)
    else if k ≥ SKF_LL_OFF then some (skb.macHeader + k - SKF_LL_OFF)
    else none
  ptr.bind fun ptr => if ptr ≥ skb.head ∧ ptr + size ≤ skb.tail then some (skb.at ptr) else none

/-- `load_pointer` -/
def loadPointer (k : Int) (size : Nat) : Option (Nat → BitVec 8) :=
  if k ≥ 0 then skbHeaderPointer skb k size else loadPointerNeg skb k size

def be16 (p : Nat → BitVec 8) : BitVec 32 := (p 0 ++ p 1).setWidth 32
def be32 (p : Nat → BitVec 8) : BitVec 32 := p 0 ++ p 1 ++ p 2 ++ p 3

/-- A `__u16` in the byte order of the machine. -/
def Cpu.u16 (cpu : Cpu) (p : Nat → BitVec 8) (off : Nat) : Nat :=
  if cpu.bigEndian then (p off ++ p (off + 1)).toNat else (p (off + 1) ++ p off).toNat

/-- `ntohs` -/
def Cpu.ntohs (cpu : Cpu) (v : BitVec 16) : BitVec 16 :=
  if cpu.bigEndian then v else v.extractLsb' 0 8 ++ v.extractLsb' 8 8

/-- `nla_find` on the attributes at offset `pos`, with `rem` bytes remaining. An attribute
takes up at least four bytes, so `rem` bounds the walk. -/
def nlaFind (cpu : Cpu) (attrtype : Int) : Nat → Int → Int → Option Int
  | 0, _, _ => none
  | fuel + 1, pos, rem =>
    let nlaLen : Int := cpu.u16 (skb.at pos) 0
    if rem ≥ 4 ∧ nlaLen ≥ 4 ∧ nlaLen ≤ rem then
      let nlaType : Int := cpu.u16 (skb.at pos) 2 % 2 ^ 14
      if nlaType = attrtype then some pos
      else
        let totlen := (nlaLen + 3) / 4 * 4
        nlaFind cpu attrtype fuel (pos + totlen) (rem - totlen)
    else none

end

/-! ### The interpreter -/

/-- A use of a scratch cell. -/
inductive Access where
  | read (cell : Nat)
  | write (cell : Nat)
deriving DecidableEq, Repr

def Access.cell : Access → Nat
  | read cell => cell
  | write cell => cell

/-- The local variables of `sk_run_filter`, `pc` for `fentry`, and the uses of `mem`, the last
one first. -/
structure Regs where
  pc : Nat
  a : BitVec 32
  x : BitVec 32
  mem : Nat → BitVec 32
  log : List Access

/-- At the call; nothing is known of `mem`. -/
def Regs.start (mem : Nat → BitVec 32) : Regs where
  pc := 0
  a := 0
  x := 0
  mem := mem
  log := []

/-- What an instruction without jump or scratch cell does: new registers, or a return. -/
inductive Plain where
  | regs (a x : BitVec 32)
  | ret (value : BitVec 32)

section

variable (cpu : Cpu) (skb : SkBuff)

def shiftLeft (a n : BitVec 32) : BitVec 32 := if n.toNat < 32 then a <<< n.toNat else cpu.lsh a n
def shiftRight (a n : BitVec 32) : BitVec 32 := if n.toNat < 32 then a >>> n.toNat else cpu.rsh a n

/-- The labels `load_w`, `load_h` and `load_b`. -/
def loadA (k : BitVec 32) (size : Nat) (get : (Nat → BitVec 8) → BitVec 32) (x : BitVec 32) :
    Plain :=
  match loadPointer skb k.toInt size with
  | some ptr => .regs (get ptr) x
  | none => .ret 0

/-- The offset of the attribute found, or 0. -/
def foundAt : Option Int → BitVec 32
  | some nla => BitVec.ofInt 32 nla
  | none => 0

/-- The cases of the switch that neither jump nor use a scratch cell. -/
def execPlain (op : BpfS) (k a x : BitVec 32) : Plain :=
  match op with
  | .aluAddX => .regs (a + x) x
  | .aluAddK => .regs (a + k) x
  | .aluSubX => .regs (a - x) x
  | .aluSubK => .regs (a - k) x
  | .aluMulX => .regs (a * x) x
  | .aluMulK => .regs (a * k) x
  | .aluDivX => if x = 0 then .ret 0 else .regs (a / x) x
  | .aluDivK => .regs (reciprocalDivide a k) x
  | .aluAndX => .regs (a &&& x) x
  | .aluAndK => .regs (a &&& k) x
  | .aluOrX => .regs (a ||| x) x
  | .aluOrK => .regs (a ||| k) x
  | .aluLshX => .regs (shiftLeft cpu a x) x
  | .aluLshK => .regs (shiftLeft cpu a k) x
  | .aluRshX => .regs (shiftRight cpu a x) x
  | .aluRshK => .regs (shiftRight cpu a k) x
  | .aluNeg => .regs (-a) x
  | .ldWAbs => loadA skb k 4 be32 x
  | .ldHAbs => loadA skb k 2 be16 x
  | .ldBAbs => loadA skb k 1 (fun p => (p 0).setWidth 32) x
  | .ldWLen => .regs skb.len x
  | .ldxWLen => .regs a skb.len
  | .ldWInd => loadA skb (x + k) 4 be32 x
  | .ldHInd => loadA skb (x + k) 2 be16 x
  | .ldBInd => loadA skb (x + k) 1 (fun p => (p 0).setWidth 32) x
  | .ldxBMsh =>
    match loadPointer skb k.toInt 1 with
    | some ptr => .regs a (((ptr 0).setWidth 32 &&& 0xf) <<< 2)
    | none => .ret 0
  | .ldImm => .regs k x
  | .ldxImm => .regs a k
  | .miscTax => .regs a a
  | .miscTxa => .regs x x
  | .retK => .ret k
  | .retA => .ret a
  | .ancProtocol => .regs ((cpu.ntohs skb.protocol).setWidth 32) x
  | .ancPkttype => .regs (skb.pktType.setWidth 32) x
  | .ancIfindex =>
    match skb.dev with
    | none => .ret 0
    | some dev => .regs dev.ifindex x
  | .ancMark => .regs skb.mark x
  | .ancQueue => .regs (skb.queueMapping.setWidth 32) x
  | .ancHatype =>
    match skb.dev with
    | none => .ret 0
    | some dev => .regs (dev.type.setWidth 32) x
  | .ancRxhash => .regs skb.rxhash x
  | .ancCpu => .regs cpu.id x
  | .ancNlattr =>
    if skb.dataLen ≠ 0 then .ret 0
    else if a > skb.len - 4 then .ret 0
    else
      let rem := (skb.len - a).toInt
      .regs (foundAt (nlaFind skb cpu x.toInt rem.toNat a.toNat rem)) x
  | .ancNlattrNest =>
    if skb.dataLen ≠ 0 then .ret 0
    else if a > skb.len - 4 then .ret 0
    else
      let nlaLen := cpu.u16 (skb.at a.toNat) 0
      -- As the source has it: the bytes left would be `skb->len - A`.
      if nlaLen > (a - skb.len).toNat then .ret 0
      else
        let rem : Int := nlaLen - 4
        .regs (foundAt (nlaFind skb cpu x.toInt rem.toNat (a.toNat + 4) rem)) x
  | _ => .ret 0

/-- The tests of the conditional jumps. -/
def taken (op : BpfS) (k a x : BitVec 32) : Bool :=
  match op with
  | .jmpJgtK => decide (a > k)
  | .jmpJgeK => decide (a ≥ k)
  | .jmpJeqK => decide (a = k)
  | .jmpJsetK => decide (a &&& k ≠ 0)
  | .jmpJgtX => decide (a > x)
  | .jmpJgeX => decide (a ≥ x)
  | .jmpJeqX => decide (a = x)
  | .jmpJsetX => decide (a &&& x ≠ 0)
  | _ => false

/-- One turn of the loop: go on, or return. -/
inductive Outcome where
  | next (regs : Regs)
  | ret (value : BitVec 32)

def execInsn (insn : SockFilter) (r : Regs) : Outcome :=
  let cell := insn.k.toNat
  match BpfS.ofCode insn.code with
  | none => .ret 0
  | some .ldMem => .next { r with pc := r.pc + 1, a := r.mem cell, log := .read cell :: r.log }
  | some .ldxMem => .next { r with pc := r.pc + 1, x := r.mem cell, log := .read cell :: r.log }
  | some .st =>
    .next { r with
      pc := r.pc + 1, mem := Function.update r.mem cell r.a, log := .write cell :: r.log }
  | some .stx =>
    .next { r with
      pc := r.pc + 1, mem := Function.update r.mem cell r.x, log := .write cell :: r.log }
  | some .jmpJa => .next { r with pc := r.pc + insn.k.toNat + 1 }
  | some op =>
    if op.conditional then
      let off := if taken op insn.k r.a r.x then insn.jt else insn.jf
      .next { r with pc := r.pc + off.toNat + 1 }
    else
      match execPlain cpu skb op insn.k r.a r.x with
      | .regs a x => .next { r with pc := r.pc + 1, a := a, x := x }
      | .ret value => .ret value

/-- `sk_run_filter`, for at most `fuel` instructions: the value returned and the uses of
`mem`. There is no result if that many do not do, or for a fetch outside the program. -/
def skRunFilter (filter : List SockFilter) : Nat → Regs → Option (BitVec 32 × List Access)
  | 0, _ => none
  | fuel + 1, r =>
    filter[r.pc]?.bind fun insn =>
      match execInsn cpu skb insn r with
      | .next r => skRunFilter filter fuel r
      | .ret value => some (value, r.log)

end

end SilanKernel.Net
