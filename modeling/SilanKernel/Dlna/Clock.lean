import SilanKernel.Data.Run
import Mathlib.Logic.Function.Basic

/-!
# SilanKernel.Dlna.Clock

A model of `arch/csky/silan_dlna/clock.c`, **the clock tree of the board**, with the spin lock
`clocks_lock` that its functions take.

The registers of the power management unit and the system status register belong to the
hardware and are given by `Status`; the system registers are read and written by the code.
A call that tries to take the lock while it is held spins for ever, since nobody else gives it
back: that is the exception `Stop.spins`. `printk` output is left out.
-/

namespace SilanKernel.Dlna.Clock

abbrev Word := BitVec 32

/-- The registers the hardware sets. -/
structure Status where
  /-- `SILAN_PMU_STATUS` -/
  pmuStatus : Word
  /-- `SILAN_PMU_PLL_STATUS_L` -/
  pllStatusL : Word
  /-- `SILAN_STS_REG0` -/
  stsReg0 : Word
  /-- What the stack holds where `get_silan_pllclk` uses a variable it has not set. -/
  regvalPmu : Word

/-- `SILAN_SYS_REGn` -/
inductive SysReg
  | reg2
  | reg4
  | reg5
  | reg12
  | reg14
  | reg15
  deriving DecidableEq, Repr

structure Clocks where
  status : Status
  sys : SysReg → Word
  /-- `clocks_lock` is held. -/
  lock : Bool

inductive Stop
  | spins
  deriving DecidableEq, Repr

abbrev ClkM := EStateM Stop Clocks

def spinLock : ClkM Unit := do
  if (← get).lock then throw .spins else modify fun s => { s with lock := true }

def spinUnlock : ClkM Unit := modify fun s => { s with lock := false }

def slStatus : ClkM Status := return (← get).status

def slReadl (r : SysReg) : ClkM Word := return (← get).sys r

def slWritel (v : Word) (r : SysReg) : ClkM Unit :=
  modify fun s => { s with sys := Function.update s.sys r v }

/-! ### The clocks of the processor and the bus -/

/-- `union silan_pmu_pll_l` -/
def pllCfgSel (data : Word) : Bool := data.getLsbD 16

def pllFastCfg (data : Word) : Word := (data >>> 28) &&& 0xf

def pllDn (data : Word) : Word := (data >>> 4) &&& 0x3f

def pllDm (data : Word) : Word := (data >>> 10) &&& 0x3f

/-- The `switch` of `get_silan_pllclk`. -/
def pllSpeed (regval : Word) : Word :=
  match regval.toNat with
  | 1 => 90000000
  | 3 => 150000000
  | 5 => 180000000
  | 7 => 216000000
  | 9 => 240000000
  | 11 => 264000000
  | 13 => 300000000
  | 14 => 324000000
  | 15 => -1
  | _ => 0

/-- `get_silan_pllclk` -/
def getSilanPllclk : ClkM Word := do
  spinLock
  let status ← slStatus
  let pll := status.pllStatusL
  if pllCfgSel pll then
    if pllFastCfg pll = 0xF then
      -- the early return, with the lock held
      return 12000000 * (pllDn pll + 1) / (pllDm pll + 1)
    else do
      spinUnlock
      return pllSpeed ((status.regvalPmu >>> 28) &&& 0xf)
  else do
    spinUnlock
    return pllSpeed (status.stsReg0 &&& 0xf)

/-- The source of the core clock: the oscillator or the PLL. -/
def coreSpeed (regvalPmu : Word) : ClkM Word :=
  if regvalPmu.getLsbD 3 then return 12000000 / 2 else getSilanPllclk

def divSpeed (regvalPmu coreSpeed : Word) : Word :=
  match (regvalPmu &&& 0x3).toNat with
  | 0 => coreSpeed
  | 1 => coreSpeed / 2
  | 2 => coreSpeed / 3
  | _ => coreSpeed / 4

/-- `get_silan_cpuclk` -/
def getSilanCpuclk : ClkM Word := do
  let status ← slStatus
  let speed ← coreSpeed status.pmuStatus
  return divSpeed status.pmuStatus speed

/-- `get_silan_busclk` -/
def getSilanBusclk : ClkM Word := do
  let status ← slStatus
  let speed ← coreSpeed status.pmuStatus
  let div := divSpeed status.pmuStatus speed
  return if status.pmuStatus.getLsbD 6 then div / 2 else div

/-! ### The clocks of the devices -/

/-- `SILAN_CLK_ID` -/
inductive ClkId
  | sdmmc | sdio | mc | iisOut | spdif | iisIn | adc | bus | usbhost | usbotg | gmac
      | dmac0 | dsp0 | spi
  | uart1 | uart2 | uart3 | uart4 | i2c | gpio | wtg | spdifIn
  deriving DecidableEq, Repr

/-- `silan_clk`: the names and the ids. -/
def silanClk : List (String × ClkId) :=
  [("sdmmc", .sdmmc), ("sdio", .sdio), ("mc", .mc), ("i2s_out", .iisOut), ("spdif", .spdif),
    ("i2s_in", .iisIn), ("usbhost", .usbhost), ("usbdevice", .usbotg), ("gmac", .gmac),
    ("dmac0", .dmac0), ("dsp0", .dsp0), ("spi", .spi), ("uart0", .uart1), ("uart2", .uart2),
    ("uart3", .uart3), ("uart4", .uart4), ("i2c", .i2c), ("gpio", .gpio), ("watchdog", .wtg),
    ("spdif_in", .spdifIn), ("adc", .adc), ("bus", .bus)]

/-- `clk_get`: the entry of the table with the name, or `-ENOENT`. -/
def clkGet (name : String) : ClkM (Option (String × ClkId)) := do
  spinLock
  let p := silanClk.find? fun p => name = p.1
  spinUnlock
  return p

/-- A read-modify-write of a system register under the lock. -/
def updateReg (r : SysReg) (f : Word → Word) : ClkM Word := do
  spinLock
  let v ← slReadl r
  slWritel (f v) r
  spinUnlock
  return 0

def SD_CCLK_EN : Word := 0x1 <<< 11
def SDIO_CCLK_EN : Word := 0x1 <<< 15
def MC_CCLK_EN : Word := 0x1 <<< 19
def CH1_BCLK_EN : Word := 0x1 <<< 1
def CH1_MCLK_EN : Word := 0x1 <<< 2
def CH1_SPDIF_EN : Word := 0x1 <<< 3
def SPDIF_IN_EN : Word := 0x1 <<< 4
def CH2_BCLK_EN : Word := 0x1 <<< 9
def CH2_MCLK_EN : Word := 0x1 <<< 10
def AUDIO_MODE : Word := 0x1 <<< 31

/-- The bit of `_clk_enable_sdmmc_sdio` and `_clk_disable_sdmmc_sdio`. -/
def cclkEn : ClkId → Word
  | .sdmmc => SD_CCLK_EN
  | .sdio => SDIO_CCLK_EN
  | .mc => MC_CCLK_EN
  | _ => 0

variable (id : ClkId)

/-- `_clk_enable_sdmmc_sdio` -/
def clkEnableSdmmcSdio : ClkM Word := updateReg .reg2 (· ||| cclkEn id)

/-- `_clk_disable_sdmmc_sdio` -/
def clkDisableSdmmcSdio : ClkM Word := updateReg .reg2 (· &&& ~~~cclkEn id)

/-- The bits of `_clk_enable_audio`. -/
def audioEn : ClkId → Word
  | .iisOut => CH1_BCLK_EN ||| CH1_MCLK_EN
  | .spdif => CH1_SPDIF_EN
  | .iisIn => CH2_BCLK_EN ||| CH2_MCLK_EN
  | .spdifIn => SPDIF_IN_EN
  | _ => 0

/-- The spdif input has a bit in register 12 too. -/
def spdifInReg12 (f : Word → Word) : ClkM Unit :=
  if id = .spdifIn then do
    let w ← slReadl .reg12
    slWritel (f w) .reg12
  else
    return

/-- `_clk_enable_audio` -/
def clkEnableAudio : ClkM Word := do
  spinLock
  let v ← slReadl .reg4
  spdifInReg12 id (· ||| ((0x1 : Word) <<< 29))
  slWritel (v ||| audioEn id) .reg4
  spinUnlock
  return 0

/-- `_clk_disable_audio`. For the spdif input the bit in register 4 stays set. -/
def clkDisableAudio : ClkM Word := do
  spinLock
  let v ← slReadl .reg4
  spdifInReg12 id (· &&& ~~~((0x1 : Word) <<< 29))
  slWritel (if id = .spdifIn then v else v &&& ~~~audioEn id) .reg4
  spinUnlock
  return 0

/-- `clk_enable_watchdog`, which takes no lock. -/
def clkEnableWatchdog : ClkM Unit := do
  let v ← slReadl .reg15
  slWritel (v ||| (1 <<< 30)) .reg15

/-- `clk_enable_uart`, which takes no lock. -/
def clkEnableUart : ClkM Unit := do
  let v ← slReadl .reg14
  slWritel (v ||| 1) .reg14

/-- The `switch` of `clk_enable`, whose cases ignore what their function returns. -/
def clkEnableOf : ClkM Unit :=
  match id with
  | .sdmmc | .sdio | .mc => discard (clkEnableSdmmcSdio id)
  | .iisOut | .spdif | .iisIn | .spdifIn => discard (clkEnableAudio id)
  | .wtg => clkEnableWatchdog
  | .uart4 => clkEnableUart
  | _ => return

/-- `clk_enable` -/
def clkEnable : ClkM Word := do
  clkEnableOf id
  return 0

/-- `clk_disable`. The early return for `SILAN_CLK_UART1` is the default case. -/
def clkDisable : ClkM Unit :=
  match id with
  | .sdmmc | .sdio | .mc => discard (clkDisableSdmmcSdio id)
  | .iisOut | .spdif | .iisIn | .spdifIn => discard (clkDisableAudio id)
  | _ => return

/-! ### Rates -/

/-- The `switch` of `clk_set_i2s_out_rate`: whether `AUDIO_MODE` is set, and the bits. -/
def i2sRate (rate : Word) : Option (Bool × Word) :=
  match rate.toNat with
  | 11025 => some (true, 0x3 <<< 4)
  | 22050 => some (true, 0x2 <<< 4)
  | 44100 => some (true, 0x1 <<< 4)
  | 88200 | 176400 => some (true, 0)
  | 8000 => some (false, 0x1 <<< 6 ||| 0x3 <<< 4)
  | 16000 => some (false, 0x1 <<< 6 ||| 0x2 <<< 4)
  | 32000 => some (false, 0x1 <<< 6 ||| 0x1 <<< 4)
  | 64000 | 128000 => some (false, 0x1 <<< 6)
  | 12000 => some (false, 0x3 <<< 4)
  | 24000 => some (false, 0x2 <<< 4)
  | 48000 => some (false, 0x1 <<< 4)
  | 96000 | 192000 => some (false, 0)
  | _ => none

/-- A field of register 5, which is in its low byte for output and in the next for input. -/
def i2sField (input : Bool) (reg value : Word) : Word :=
  if input then (reg &&& 0xffff00ff) ||| (value <<< 8) else (reg &&& 0xffffff00) ||| value

/-- `clk_set_i2s_out_rate`, with `mode` 1 or 2 -/
def clkSetI2sOutRate (rate : Word) (mode : Nat) (input : Bool) : ClkM Word := do
  let reg0 ← slReadl .reg15
  let reg2 ← slReadl .reg5
  if mode = 1 ∧ (rate = 176400 ∨ rate = 128000 ∨ rate = 192000) then
    return -1
  else
    match i2sRate rate with
    | none => return -1
    | some (audio, bits) => do
      let reg2 := i2sField input reg2 (if mode = 2 then 0x02 else 0x04)
      slWritel (if audio then reg0 ||| AUDIO_MODE else reg0 &&& ~~~AUDIO_MODE) .reg15
      slWritel ((if input then bits <<< 8 else bits) ||| reg2) .reg5
      return 0

/-- The `switch` of `clk_set_spdif_rate`: the field of register 5, and bit 31 of register 15. -/
def spdifRate (rate : Word) : Option (Word × Bool) :=
  match rate.toNat with
  | 44100 => some (0x2, true)
  | 48000 => some (0x2, false)
  | 32000 => some (0x6, false)
  | 96000 => some (0x1, false)
  | _ => none

/-- `clk_set_spdif_rate`, which writes both registers back for a rate it does not know. -/
def clkSetSpdifRate (rate : Word) : ClkM Word := do
  let reg0 ← slReadl .reg5
  let reg1 ← slReadl .reg15
  let (reg0, reg1) :=
    match spdifRate rate with
    | none => (reg0, reg1)
    | some (field, high) =>
      ((reg0 &&& ~~~((0x7 : Word) <<< 20)) ||| (field <<< 20),
        if high then reg1 ||| AUDIO_MODE else reg1 &&& ~~~AUDIO_MODE)
  slWritel reg0 .reg5
  slWritel reg1 .reg15
  return 0

/-- The `switch` of `clk_set_rate`. -/
def clkSetRateOf (rate : Word) : ClkM Unit := do
  match id with
  | .iisOut =>
    discard (clkSetI2sOutRate rate (if rate = 176400 ∨ rate = 192000 then 2 else 1) false)
  | .iisIn => discard (clkSetI2sOutRate rate (if rate = 176400 ∨ rate = 192000 then 2 else 1) true)
  | .spdif => discard (clkSetSpdifRate rate)
  | _ => return

/-- `clk_set_rate` -/
def clkSetRate (rate : Word) : ClkM Word := do
  spinLock
  clkSetRateOf id rate
  spinUnlock
  return 0

/-- The divisor that a field of register 2 stands for. -/
def sdmmcDivisor (fs : Word) : Word :=
  match fs.toNat with
  | 0 | 1 => 2
  | 2 => 3
  | 3 => 4
  | 4 => 5
  | 5 => 6
  | 6 => 8
  | 7 => 16
  | _ => 2

/-- The field of register 2 for the `id` of `clk_get_sdmmc`: SD, MC, SDIO. -/
def sdmmcFs (id : Nat) (v : Word) : Word :=
  match id with
  | 0 => (v >>> 8) &&& 0x7
  | 1 => (v >>> 16) &&& 0x7
  | 2 => (v >>> 12) &&& 0x7
  | _ => 0

/-- `clk_get_sdmmc` -/
def clkGetSdmmc (id : Nat) (pll : Word) : ClkM Word := do
  spinLock
  let v ← slReadl .reg2
  spinUnlock
  return pll / sdmmcDivisor (sdmmcFs id v)

def OSC_CLK : Word := 12000000

/-- `clk_get_rate` -/
def clkGetRate : ClkM Word := do
  let pll ← getSilanPllclk
  match id with
  | .sdmmc => clkGetSdmmc 0 pll
  | .sdio => clkGetSdmmc 2 pll
  | .wtg => return OSC_CLK / 2
  | _ => getSilanBusclk

end SilanKernel.Dlna.Clock
