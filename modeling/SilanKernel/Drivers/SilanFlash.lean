import Mathlib.Algebra.Group.Nat.Even
import SilanKernel.Data.Run

/-!
# SilanKernel.Drivers.SilanFlash

A model of `drivers/mtd/devices/silan_flash.c`, **the driver of the serial flash chips**: what
the probe sets up for a chip, and reading, writing and erasing over the SPI bus.

The driver builds a command in the buffer `flash->command` and sends it, with the data, as one SPI
message. The state keeps the bytes at `flash->command`, which of them were stored or sent, and the
messages in order. The buffer has `MAX_CMD_SIZE + FAST_READ_DUMMY_BYTE` bytes; what lies behind it
is memory too, so a store there is a store like any other, and `touched` tells that it happened.

The results of `spi_write` and `spi_sync` are not looked at by these functions. What the outside
world decides is an `Env`: the status bytes the chip answers, the length a message is said to have
had, and the value of a shift that C leaves undefined. The mutex, the debug output, the table
`m25p_ids` (any chip will do) and the functions for SST chips and for the status registers are left
out.
-/

namespace SilanKernel.Drivers.SilanFlash

open Function List

abbrev Byte := BitVec 8
abbrev Half := BitVec 16
abbrev Word := BitVec 32
abbrev Quad := BitVec 64

def OPCODE_WREN : Byte := 0x06
def OPCODE_RDSR : Byte := 0x05
def OPCODE_NORM_READ : Byte := 0x03
def OPCODE_FAST_READ : Byte := 0x0b
def OPCODE_PP : Byte := 0x02
def OPCODE_SE : Byte := 0xd8

def SR_WIP : Byte := 1

def RD_CMD_TYPE : Byte := 6
def WR_CMD_TYPE : Byte := 7

def MAX_CMD_SIZE : Nat := 5

def EINVAL : Int := 22
def EIO : Int := 5

/-! ### Chips and the probe -/

/-- `struct flash_info`, without the ids, by which the probe tells the makers apart. -/
structure FlashInfo where
  sectorSize : Word
  nSectors : Half
  pageSize : Half
  addrWidth : Half
  flags : Half
  deriving DecidableEq, Repr

def SECT_4K : Half := 0x01

/-- `INFO` -/
def infoOf (sectorSize : Word) (nSectors flags : Half) : FlashInfo :=
  { sectorSize, nSectors, pageSize := 256, addrWidth := 0, flags }

/-- `struct m25p`, with the fields of its `mtd` that are used. -/
structure M25p where
  size : Quad
  erasesize : Word
  pageSize : Half
  addrWidth : Half
  eraseOpcode : Byte
  deriving DecidableEq, Repr

/-- What `m25p_probe` sets up for a chip. The product of the sizes has 32 bits. -/
def probeFlash (info : FlashInfo) : M25p :=
  let size : Quad := (info.sectorSize * info.nSectors.setWidth 32).setWidth 64
  { size
    erasesize := if info.flags &&& SECT_4K ≠ 0 then 64 * 1024 else info.sectorSize
    pageSize := info.pageSize
    addrWidth := if info.addrWidth ≠ 0 then info.addrWidth else if 0x1000000 < size then 4 else 3
    eraseOpcode := OPCODE_SE }

/-! ### The bus -/

/-- An SPI message: the bytes of the command, the data sent after it, and how many bytes are
received. -/
structure Message where
  cmd : List Byte
  data : List Byte
  rx : Nat
  deriving DecidableEq, Repr

/-- The readings of the status register that one wait can make before its deadline. A reading that
fails has no value. -/
structure Polls where
  first : Option Byte
  rest : List (Option Byte)

structure Env where
  /-- The readings of each wait in turn. -/
  waits : Nat → Polls
  /-- `m.actual_length` after a message. -/
  actualLength : Message → Word
  /-- The byte a shift by a negative or too large distance gives. -/
  undef : Word → Int → Byte

structure Spi where
  /-- The bytes from `flash->command` on. -/
  command : Nat → Byte
  /-- The bytes of `flash->command` that were stored or sent. -/
  touched : List Nat
  /-- The messages sent. -/
  log : List Message
  /-- How many waits there were. -/
  waited : Nat
  /-- The offsets of the sectors that were erased. -/
  sectors : List Word
  /-- `*retlen` of the caller. -/
  retlen : Word

inductive Stop
  /-- The division by an erase size of zero. -/
  | divide
  /-- A loop has made more turns than it was given. -/
  | fuel
  deriving DecidableEq, Repr

abbrev FlashM := EStateM Stop Spi

/-- `flash->command[i] = v` -/
def store (i : Nat) (v : Byte) : FlashM Unit :=
  modify fun s => { s with command := Function.update s.command i v, touched := i :: s.touched }

/-- A message with the first `n` bytes of `flash->command`. -/
def sendCommand (n : Nat) (data : List Byte) (rx : Nat) : FlashM Message := do
  let s ← get
  let m : Message := { cmd := (List.range n).map s.command, data, rx }
  set { s with touched := List.range n ++ s.touched, log := s.log ++ [m] }
  return m

/-- `spi_write_then_read` of a code of its own. -/
def writeThenRead (code : List Byte) (rx : Nat) : FlashM Unit :=
  modify fun s => { s with log := s.log ++ [{ cmd := code, data := [], rx }] }

def setRetlen (f : Word → Word) : FlashM Unit := modify fun s => { s with retlen := f s.retlen }

section

variable (env : Env)

/-- The loop of `wait_till_ready`, with `read_sr` in it. -/
def pollSr : List (Option Byte) → FlashM Int
  | [] => return 1
  | sr :: rest => do
    writeThenRead [OPCODE_RDSR, RD_CMD_TYPE] 1
    match sr with
    | none => return 1
    | some sr => if sr &&& SR_WIP = 0 then return 0 else pollSr rest

/-- `wait_till_ready` -/
def waitTillReady : FlashM Int := do
  let s ← get
  set { s with waited := s.waited + 1 }
  pollSr ((env.waits s.waited).first :: (env.waits s.waited).rest)

/-- `write_enable` -/
def writeEnable : FlashM Unit := writeThenRead [OPCODE_WREN, 0] 0

/-- `(u8)(addr >> by)` -/
def shiftByte (addr : Word) (distance : Int) : Byte :=
  if 0 ≤ distance ∧ distance < 32 then (addr >>> distance.toNat).setWidth 8 else
    env.undef addr distance

variable (flash : M25p)

/-- `m25p_addr2cmd`. The opcode is in byte 0 and the type of the command in byte 1. -/
def m25pAddr2cmd (addr : Word) : FlashM Unit := do
  store 2 (shiftByte env addr (flash.addrWidth.toNat * 8 - 8))
  store 3 (shiftByte env addr (flash.addrWidth.toNat * 8 - 16))
  store 4 (shiftByte env addr (flash.addrWidth.toNat * 8 - 24))
  store 5 (shiftByte env addr (flash.addrWidth.toNat * 8 - 32))

/-- `m25p_cmdsz` -/
def m25pCmdsz : Nat := 2 + flash.addrWidth.toNat

/-- The opcode, the type and the address. -/
def setUpCommand (opcode : Byte) (addr : Word) : FlashM Unit := do
  store 0 opcode
  store 1 WR_CMD_TYPE
  m25pAddr2cmd env flash addr

/-! ### Erasing -/

def eraseDone (offset : Word) : FlashM Unit :=
  modify fun s => { s with sectors := s.sectors ++ [offset] }

/-- `erase_sector` -/
def eraseSector (offset : Word) : FlashM Int := do
  let busy ← waitTillReady env
  if busy ≠ 0 then
    return 1
  else do
    writeEnable
    setUpCommand env flash flash.eraseOpcode offset
    discard (sendCommand (m25pCmdsz flash) [] 0)
    eraseDone offset
    return 0

inductive EraseState
  | pending
  | done
  | failed
  deriving DecidableEq, Repr

/-- `struct erase_info` -/
structure EraseInfo where
  addr : Quad
  len : Quad
  state : EraseState
  deriving DecidableEq, Repr

/-- The `while (len)` of `m25p80_erase`, for at most `fuel` turns. -/
def eraseLoop (fuel : Nat) (addr len : Word) : FlashM Int :=
  if len = 0 then return 0
  else
    match fuel with
    | 0 => throw .fuel
    | fuel + 1 => do
      let failed ← eraseSector env flash addr
      if failed ≠ 0 then return failed else
        eraseLoop fuel (addr + flash.erasesize) (len - flash.erasesize)

/-- `m25p80_erase` -/
def m25p80Erase (fuel : Nat) (instr : EraseInfo) : FlashM (Int × EraseInfo) :=
  if flash.size < instr.addr + instr.len then return (-EINVAL, instr)
  else if flash.erasesize = 0 then throw .divide
  else if instr.len % flash.erasesize.setWidth 64 ≠ 0 then return (-EINVAL, instr)
  else do
    let failed ← eraseLoop env flash fuel (instr.addr.setWidth 32) (instr.len.setWidth 32)
    if failed ≠ 0 then return (- EIO, { instr with state := .failed })
    else return (0, { instr with state := .done })

/-! ### Reading and writing -/

/-- `FAST_READ_DUMMY_BYTE` -/
def fastReadDummyByte (fastRead : Bool) : Nat := if fastRead then 1 else 0

/-- `OPCODE_READ` -/
def opcodeRead (fastRead : Bool) : Byte := if fastRead then OPCODE_FAST_READ else OPCODE_NORM_READ

/-- `m25p80_read`, for a kernel with `CONFIG_M25PXX_USE_FAST_READ` or without. -/
def m25p80Read (fastRead : Bool) (src : Quad) (len : Word) : FlashM Int :=
  if len = 0 then return 0
  else if flash.size < src + len.setWidth 64 then return -EINVAL
  else do
    setRetlen fun _ => 0
    let busy ← waitTillReady env
    if busy ≠ 0 then return 1
    else do
      setUpCommand env flash (opcodeRead fastRead) (src.setWidth 32)
      let m ← sendCommand (m25pCmdsz flash + fastReadDummyByte fastRead) [] len.toNat
      setRetlen fun _ => env.actualLength m
      return 0

/-- `spi_sync` of the command and `n` bytes of the buffer from byte `i` on. -/
def sendChunk (buf : List Byte) (i n : Word) : FlashM Message :=
  sendCommand (m25pCmdsz flash) ((buf.drop i.toNat).take n.toNat) 0

/-- The size of the chunk at byte `i`: what is left, or a page. -/
def chunkSize (len i : Word) : Word :=
  if flash.pageSize.setWidth 32 < len - i then flash.pageSize.setWidth 32 else len - i

/-- The `for` of `m25p80_write`. A turn sends `chunkSize` bytes, which is also the step to the
next. -/
def writeLoop (dst : Quad) (len : Word) (buf : List Byte) (fuel : Nat) (i : Word) : FlashM Unit :=
  if i < len then
    match fuel with
    | 0 => throw .fuel
    | fuel + 1 => do
      m25pAddr2cmd env flash ((dst + i.setWidth 64).setWidth 32)
      discard (waitTillReady env)
      writeEnable
      let m ← sendChunk flash buf i (chunkSize flash len i)
      setRetlen fun r => r + env.actualLength m
      writeLoop dst len buf fuel (i + chunkSize flash len i)
  else return

def pageOffset (dst : Quad) : Word := (dst &&& (flash.pageSize.setWidth 64 - 1)).setWidth 32

/-- The transfers of `m25p80_write`, after the command for the first is set up. -/
def writePages (dst : Quad) (len : Word) (buf : List Byte) : FlashM Unit :=
  if pageOffset flash dst + len ≤ flash.pageSize.setWidth 32 then do
    let m ← sendChunk flash buf 0 len
    setRetlen fun _ => env.actualLength m
  else do
    let first := flash.pageSize.setWidth 32 - pageOffset flash dst
    let m ← sendChunk flash buf 0 first
    setRetlen fun _ => env.actualLength m
    writeLoop env flash dst len buf len.toNat first

/-- `m25p80_write`. The loop makes at most one turn per byte, unless a page has no bytes. -/
def m25p80Write (dst : Quad) (len : Word) (buf : List Byte) : FlashM Int := do
  setRetlen fun _ => 0
  if len = 0 then return 0
  else if flash.size < dst + len.setWidth 64 then return -EINVAL
  else do
    let busy ← waitTillReady env
    if busy ≠ 0 then return 1
    else do
      writeEnable
      setUpCommand env flash OPCODE_PP (dst.setWidth 32)
      writePages env flash dst len buf
      discard (waitTillReady env)
      return 0

end

/-! ### What the helpers do -/

/-- One of the readings, made before one fails, says that the chip is ready. -/
def ready : List (Option Byte) → Bool
  | [] => false
  | none :: _ => false
  | some sr :: rest => sr &&& SR_WIP = 0 || ready rest

/-- The readings that are made. -/
def readings : List (Option Byte) → Nat
  | [] => 0
  | none :: _ => 1
  | some sr :: rest => if sr &&& SR_WIP = 0 then 1 else readings rest + 1

/-- The message of `read_sr`. -/
def rdsr : Message := { cmd := [OPCODE_RDSR, RD_CMD_TYPE], data := [], rx := 1 }

theorem pollSr_eq (l : List (Option Byte)) (s : Spi) :
    pollSr l s = .ok (if ready l then 0 else 1)
      { s with log := s.log ++ replicate (readings l) rdsr } := by
  induction l generalizing s with
  | nil => simp [pollSr, ready, readings, Pure.pure, EStateM.pure]
  | cons sr rest ih =>
    have hread : writeThenRead [OPCODE_RDSR, RD_CMD_TYPE] 1 s =
        .ok () { s with log := s.log ++ [rdsr] } := rfl
    rw [pollSr.eq_def]
    simp only [bind_of_ok hread]
    cases sr with
    | none => rfl
    | some sr =>
      by_cases hsr : sr &&& SR_WIP = 0
      · simp only [hsr, if_true, ready, readings, decide_true, Bool.true_or]
        rfl
      · simp only [hsr, if_false, ready, readings, decide_false, Bool.false_or, ih]
        rw [replicate_succ, append_assoc, singleton_append]

/-- The readings of the wait that comes next. -/
def Env.polls (env : Env) (n : Nat) : List (Option Byte) :=
  (env.waits n).first :: (env.waits n).rest

theorem waitTillReady_eq (env : Env) (s : Spi) :
    waitTillReady env s = .ok (if ready (env.polls s.waited) then 0 else 1)
      { s with
        waited := s.waited + 1
        log := s.log ++ replicate (readings (env.polls s.waited)) rdsr } :=
  pollSr_eq (env.polls s.waited) { s with waited := s.waited + 1 }

/-- The bytes of the address in the command. -/
def withAddr (env : Env) (flash : M25p) (addr : Word) (command : Nat → Byte) : Nat → Byte :=
  Function.update (Function.update (Function.update (Function.update command
    2 (shiftByte env addr (flash.addrWidth.toNat * 8 - 8)))
    3 (shiftByte env addr (flash.addrWidth.toNat * 8 - 16)))
    4 (shiftByte env addr (flash.addrWidth.toNat * 8 - 24)))
    5 (shiftByte env addr (flash.addrWidth.toNat * 8 - 32))

theorem m25pAddr2cmd_eq (env : Env) (flash : M25p) (addr : Word) (s : Spi) :
    m25pAddr2cmd env flash addr s =
      .ok () { s with
        command := withAddr env flash addr s.command, touched := 5 :: 4 :: 3 :: 2 :: s.touched } :=
  rfl

theorem setUpCommand_eq (env : Env) (flash : M25p) (opcode : Byte) (addr : Word) (s : Spi) :
    setUpCommand env flash opcode addr s = .ok () { s with
        command := withAddr env flash addr (update (update s.command 0 opcode) 1 WR_CMD_TYPE)
        touched := 5 :: 4 :: 3 :: 2 :: 1 :: 0 :: s.touched } :=
  rfl

/-! ### Chips that can be addressed -/

/-- A flash whose size has 32 bits and whose addresses reach every byte. -/
structure Flash extends M25p where
  size_lt : size.toNat < 2 ^ 32
  addressable : size.toNat ≤ 2 ^ (8 * addrWidth.toNat)

instance : Coe Flash M25p := ⟨Flash.toM25p⟩

theorem probeFlash_size_lt (info : FlashInfo) : (probeFlash info).size.toNat < 2 ^ 32 := by
  have h := (info.sectorSize * info.nSectors.setWidth 32).isLt
  show (BitVec.setWidth 64 _).toNat < 2 ^ 32
  rw [BitVec.toNat_setWidth]
  exact Nat.lt_of_le_of_lt (Nat.mod_le _ _) h

/-- An address width the probe chooses reaches every byte. -/
theorem probeFlash_addressable (info : FlashInfo) (h : info.addrWidth = 0) :
    (probeFlash info).size.toNat ≤ 2 ^ (8 * (probeFlash info).addrWidth.toNat) := by
  have hlt := probeFlash_size_lt info
  by_cases hsize : 0x1000000 < (probeFlash info).size
  · have hwidth : (probeFlash info).addrWidth = 4 := by
      simp only [probeFlash, h, ne_eq, not_true_eq_false, if_false] at hsize ⊢
      rw [if_pos hsize]
    rw [hwidth]
    exact Nat.le_of_lt hlt
  · have hwidth : (probeFlash info).addrWidth = 3 := by
      simp only [probeFlash, h, ne_eq, not_true_eq_false, if_false] at hsize ⊢
      rw [if_neg hsize]
    rw [hwidth]
    exact Nat.le_of_not_lt hsize

/-- A chip whose address width the probe chooses. -/
def Flash.ofInfo (info : FlashInfo) (h : info.addrWidth = 0) : Flash :=
  { probeFlash info with
    size_lt := probeFlash_size_lt info, addressable := probeFlash_addressable info h }

/-! ### A bus to try requests on -/

/-- A chip that is always ready. -/
def readyEnv : Env where
  waits := fun _ => { first := some 0, rest := [] }
  actualLength := fun m => BitVec.ofNat 32 (m.cmd.length + m.data.length)
  undef := fun _ _ => 0

/-- The bus before the first message. -/
def Spi.idle : Spi :=
  { command := fun _ => 0, touched := [], log := [], waited := 0, sectors := [], retlen := 0 }

/-- Two chips of `m25p_ids`, with addresses of three and of four bytes. -/
def w25q64 : FlashInfo := infoOf (64 * 1024) 128 SECT_4K

def mx25l25635e : FlashInfo := infoOf (64 * 1024) 512 0

end SilanKernel.Drivers.SilanFlash
