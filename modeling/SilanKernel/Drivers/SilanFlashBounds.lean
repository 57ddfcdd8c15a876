import SilanKernel.Drivers.SilanFlash

/-!
# SilanKernel.Drivers.SilanFlashBounds

**The bounds of the command buffer** for every request.

`m25p_addr2cmd` always stores byte 5, whatever the address width, and a read sends the dummy byte of
a fast read after the command. The buffer has five bytes, or six in a kernel that reads fast. So a
request that gets as far as its command stays inside only in such a kernel, and a read only if the
address has at most three bytes.

The accesses are followed by invariants of `touched`: an invariant that a store at one of the bytes
0 to 5 and the sending of the command keep is kept by every request.
-/

namespace SilanKernel.Drivers.SilanFlash

open List

variable {env : Env} {flash : M25p} {I : List Nat → Prop}

variable {fastRead : Bool} {s : Spi} {r : Request} {α : Type}

/-- The invariant `I` of the bytes touched. -/
def Touched (I : List Nat → Prop) (s : Spi) : Prop := I s.touched

/-- A program keeps the invariant, in whichever way it ends. -/
def Keeps (I : List Nat → Prop) {α : Type} (p : FlashM α) : Prop :=
  Triple (Touched I) p (fun _ => Touched I) (Touched I)

theorem keeps_pure (a : α) : Keeps I (pure a) := .pure fun _ h => h

theorem keeps_throw (e : Stop) : Keeps I (throw e : FlashM α) := Triple.throw fun _ h => h

theorem Keeps.bind {β : Type} {k : α → FlashM β} (hp : Keeps I p) (hk : ∀ a, Keeps I (k a)) :
    Keeps I (p >>= k) :=
  Triple.bind hp hk

theorem Keeps.ite {c : Prop} [Decidable c] {q : FlashM α} (hp : Keeps I p) (hq : Keeps I q) :
    Keeps I (if c then p else q) :=
  Triple.ite (fun _ => hp) fun _ => hq

theorem Keeps.discard (hp : Keeps I p) : Keeps I (discard p) := Triple.discard hp

theorem keeps_writeEnable : Keeps I writeEnable := fun _ h => h

theorem keeps_setRetlen (f : Word → Word) : Keeps I (setRetlen f) := fun _ h => h

theorem keeps_eraseDone (offset : Word) : Keeps I (eraseDone offset) := fun _ h => h

theorem keeps_waitTillReady : Keeps I (waitTillReady env) := by
  intro s hs
  rw [waitTillReady_eq]
  exact hs

/-- Storing a byte of a command, or sending one of `n` bytes, keeps the invariant. -/
structure Stable (I : List Nat → Prop) (n : Nat) : Prop where
  store : ∀ {l i}, i < 6 → I l → I (i :: l)
  send : ∀ {l}, I l → I (List.range n ++ l)

theorem Stable.setUpCommand (hI : Stable I n) (opcode : Byte) (addr : Word) :
    Keeps I (setUpCommand env flash opcode addr) := by
  intro s hs
  rw [setUpCommand_eq]
  have h1 : I (1 :: 0 :: s.touched) := hI.store (by decide) (hI.store (by decide) hs)
  have h3 : I (3 :: 2 :: 1 :: 0 :: s.touched) := hI.store (by decide) (hI.store (by decide) h1)
  exact hI.store (by decide) (hI.store (by decide) h3)

theorem Stable.addr2cmd (hI : Stable I n) (addr : Word) :
    Keeps I (m25pAddr2cmd env flash addr) := by
  intro s hs
  rw [m25pAddr2cmd_eq]
  have h3 : I (3 :: 2 :: s.touched) := hI.store (by decide) (hI.store (by decide) hs)
  exact hI.store (by decide) (hI.store (by decide) h3)

theorem Stable.sendCommand (hI : Stable I n) (data : List Byte) (rx : Nat) :
    Keeps I (sendCommand n data rx) :=
  fun _ hs => hI.send hs

section

variable (hI : Stable I (m25pCmdsz flash))
include hI

theorem Stable.eraseSector (offset : Word) : Keeps I (eraseSector env flash offset) := by
  refine keeps_waitTillReady.bind fun busy => Keeps.ite (keeps_pure _) ?_
  refine keeps_writeEnable.bind fun _ => (hI.setUpCommand _ _).bind fun _ => ?_
  exact (hI.sendCommand _ _).discard.bind fun _ => (keeps_eraseDone offset).bind
    fun _ => keeps_pure _

theorem Stable.eraseLoop (fuel : Nat) (addr len : Word) :
    Keeps I (eraseLoop env flash fuel addr len) := by
  induction fuel generalizing addr len with
  | zero =>
    rw [SilanFlash.eraseLoop]
    exact Keeps.ite (keeps_pure _) (keeps_throw _)
  | succ fuel ih =>
    rw [SilanFlash.eraseLoop]
    refine Keeps.ite (keeps_pure _) ((hI.eraseSector addr).bind fun failed => ?_)
    exact Keeps.ite (keeps_pure _) (ih _ _)

theorem Stable.writeLoop (dst : Quad) (len : Word) (buf : List Byte) (fuel : Nat) (i : Word) :
    Keeps I (writeLoop env flash dst len buf fuel i) := by
  induction fuel generalizing i with
  | zero =>
    rw [SilanFlash.writeLoop]
    exact Keeps.ite (keeps_throw _) (keeps_pure _)
  | succ fuel ih =>
    rw [SilanFlash.writeLoop]
    refine Keeps.ite ?_ (keeps_pure _)
    refine (hI.addr2cmd _).bind fun _ => keeps_waitTillReady.discard.bind fun _ => ?_
    refine keeps_writeEnable.bind fun _ => (hI.sendCommand _ _).bind fun m => ?_
    exact (keeps_setRetlen _).bind fun _ => ih _

theorem Stable.writePages (dst : Quad) (len : Word) (buf : List Byte) :
    Keeps I (writePages env flash dst len buf) := by
  refine Keeps.ite ((hI.sendCommand _ _).bind fun m => keeps_setRetlen _) ?_
  refine (hI.sendCommand _ _).bind fun m => (keeps_setRetlen _).bind fun _ => ?_
  exact hI.writeLoop dst len buf _ _

end

/-! ### Requests -/

/-- A request, an erase with the number of turns after the first that its loop is followed for. -/
inductive Request
  | read (src : Quad) (len : Word)
  | write (dst : Quad) (len : Word) (buf : List Byte)
  | erase (turns : Nat) (instr : EraseInfo)

def Request.prog (env : Env) (flash : M25p) (fastRead : Bool) : Request → FlashM Unit
  | .read src len => discard (m25p80Read env flash fastRead src len)
  | .write dst len buf => discard (m25p80Write env flash dst len buf)
  | .erase turns instr => discard (m25p80Erase env flash (turns + 1) instr)

/-- The request passes its checks and asks for something. -/
def Request.Accepted (flash : M25p) : Request → Prop
  | .read src len => len ≠ 0 ∧ ¬ flash.size < src + len.setWidth 64
  | .write dst len _ => len ≠ 0 ∧ ¬ flash.size < dst + len.setWidth 64
  | .erase _ instr => ¬ flash.size < instr.addr + instr.len ∧ flash.erasesize ≠ 0 ∧
      instr.len % flash.erasesize.setWidth 64 = 0 ∧ instr.len.setWidth 32 ≠ 0

/-- The request gets as far as its command: it is accepted and the chip is found ready. -/
def Request.Reaches (env : Env) (flash : M25p) (s : Spi) (r : Request) : Prop :=
  r.Accepted flash ∧ ready (env.polls s.waited) = true

def Request.isRead : Request → Bool
  | .read _ _ => true
  | _ => false

/-- How many bytes the request sends of its command. -/
def Request.sent (flash : M25p) (fastRead : Bool) : Request → Nat
  | .read _ _ => m25pCmdsz flash + fastReadDummyByte fastRead
  | _ => m25pCmdsz flash

/-- **Every request keeps a stable invariant.** -/
theorem Request.keeps_prog (r : Request) (hI : Stable I (r.sent flash fastRead)) :
    Keeps I (r.prog env flash fastRead) := by
  cases r with
  | read src len =>
    refine Keeps.discard (Keeps.ite (keeps_pure _) (Keeps.ite (keeps_pure _) ?_))
    refine (keeps_setRetlen _).bind fun _ => keeps_waitTillReady.bind fun busy => ?_
    refine Keeps.ite (keeps_pure _) ((hI.setUpCommand _ _).bind fun _ => ?_)
    exact (hI.sendCommand _ _).bind fun m => (keeps_setRetlen _).bind fun _ => keeps_pure _
  | write dst len buf =>
    refine Keeps.discard ((keeps_setRetlen _).bind fun _ => ?_)
    refine Keeps.ite (keeps_pure _)
      (Keeps.ite (keeps_pure _) (keeps_waitTillReady.bind fun busy => ?_))
    refine Keeps.ite (keeps_pure _)
      (keeps_writeEnable.bind fun _ => (hI.setUpCommand _ _).bind fun _ => ?_)
    exact (Stable.writePages hI dst len buf).bind fun _ => keeps_waitTillReady.discard.bind
      fun _ => keeps_pure _
  | erase turns instr =>
    refine Keeps.discard (Keeps.ite (keeps_pure _)
      (Keeps.ite (keeps_throw _) (Keeps.ite (keeps_pure _) ?_)))
    exact (Stable.eraseLoop hI _ _ _).bind fun failed => Keeps.ite (keeps_pure _) (keeps_pure _)

/-! ### Getting as far as the command -/

/-- The invariant holds and the next wait is the one with number `n`. -/
def Starts (n : Nat) (I : List Nat → Prop) (s : Spi) : Prop := s.waited = n ∧ I s.touched

section

variable {α β : Type}

theorem setRetlen_starts {k : Unit → FlashM α} (f : Word → Word)
    (hk : Triple (Starts n I) (k ()) Q E) :
    Triple (Starts n I) (setRetlen f >>= k) Q E :=
  fun s hs => hk { s with retlen := f s.retlen } hs

/-- A wait goes on with 0 if it finds the chip ready. -/
theorem wait_starts {b : Bool} (h : ready (env.polls n) = b)
    (hk : Triple (Touched I) (k (if b then 0 else 1)) Q E) :
    Triple (Starts n I) (waitTillReady env >>= k) Q E := by
  intro s ⟨hn, hs⟩
  have hwait := waitTillReady_eq env s
  rw [hn, h] at hwait
  rw [bind_of_ok hwait]
  exact hk _ hs

end

theorem writeEnable_ends {E : Spi → Prop} : Triple P writeEnable (fun _ _ => True) E :=
  fun _ _ => trivial

/-- Setting a command up touches byte 5. -/
theorem setUpCommand_touches {k : Unit → FlashM α} {opcode : Byte} {addr : Word}
    (hk : Keeps (5 ∈ ·) (k ())) :
    Triple P (setUpCommand env flash opcode addr >>= k) (fun _ => Touched (5 ∈ ·))
      (Touched (5 ∈ ·)) := by
  intro s _
  rw [bind_of_ok (setUpCommand_eq env flash opcode addr s)]
  exact hk _ mem_cons_self

theorem stable_mem (j n : Nat) : Stable (j ∈ ·) n where
  store := fun _ h => mem_cons_of_mem _ h
  send := mem_append_right _

theorem stable_lt (hb : 6 ≤ b) (hn : n ≤ b) : Stable (fun l => ∀ i ∈ l, i < b) n where
  store := fun hi h => forall_mem_cons.mpr ⟨Nat.lt_of_lt_of_le hi hb, h⟩
  send := fun h => forall_mem_append.mpr ⟨fun _ hi => Nat.lt_of_lt_of_le (mem_range.mp hi) hn, h⟩

/-- A request that gets as far as its command touches byte 5. -/
theorem Request.touches_five (r : Request) (hr : r.Accepted flash)
    (h : ready (env.polls n) = true) :
    Triple (Starts n I) (r.prog env flash fastRead) (fun _ => Touched (5 ∈ ·))
      (Touched (5 ∈ ·)) := by
  have hmem := stable_mem 5
  cases r with
  | read src len =>
    refine .discard (.ite (fun hlen => absurd hlen hr.1) fun _ => ?_)
    refine .ite (fun hsize => absurd hsize hr.2) fun _ => setRetlen_starts _ (wait_starts h ?_)
    refine .ite (absurd rfl) fun _ => setUpCommand_touches ?_
    exact ((hmem _).sendCommand _ _).bind fun m => (keeps_setRetlen _).bind fun _ => keeps_pure _
  | write dst len buf =>
    refine .discard (setRetlen_starts _ (.ite (fun hlen => absurd hlen hr.1) fun _ => ?_))
    refine .ite (fun hsize => absurd hsize hr.2) fun _ => wait_starts h ?_
    refine .ite (absurd rfl) fun _ => ?_
    refine .bind writeEnable_ends fun _ => setUpCommand_touches ?_
    exact ((hmem _).writePages dst len buf).bind fun _ => keeps_waitTillReady.discard.bind
      fun _ => keeps_pure _
  | erase turns instr =>
    obtain ⟨hsize, hzero, hrem, hlen⟩ := hr
    refine .discard (.ite (fun h => absurd h hsize) fun _ => .ite
      (fun h => absurd h hzero) fun _ => ?_)
    refine .ite (absurd hrem) fun _ => .bind (Q := fun _ => Touched (5 ∈ ·)) ?_ fun failed =>
      Keeps.ite (keeps_pure _) (keeps_pure _)
    rw [SilanFlash.eraseLoop]
    refine .ite (fun h => absurd h hlen) fun _ => .bind (Q := fun _ => Touched (5 ∈ ·)) ?_
      fun failed =>
      Keeps.ite (keeps_pure _) ((hmem _).eraseLoop _ _ _)
    refine wait_starts h (.ite (absurd rfl) fun _ => ?_)
    refine .bind writeEnable_ends fun _ => setUpCommand_touches ?_
    exact ((hmem _).sendCommand _ _).discard.bind fun _ => (keeps_eraseDone _).bind
      fun _ => keeps_pure _

/-- A read that gets as far as its command sends all of it. -/
theorem read_touches (hr : (Request.read src len).Accepted flash) (h : ready (env.polls n) = true)
    (hj : j < (Request.read src len).sent flash fastRead) :
    Triple (Starts n I) ((Request.read src len).prog env flash fastRead) (fun _ => Touched (j ∈ ·))
      (Touched (j ∈ ·)) := by
  refine .discard (.ite (fun hlen => absurd hlen hr.1) fun _ => ?_)
  refine .ite (fun hsize => absurd hsize hr.2) fun _ => setRetlen_starts _ (wait_starts h ?_)
  refine .ite (absurd rfl) fun _ => ?_
  intro s _
  rw [bind_of_ok (setUpCommand_eq env flash _ _ s)]
  exact mem_append_left _ (mem_range.mpr hj)

/-- A request that does not get there touches nothing. -/
theorem Request.touches_nothing (r : Request)
    (hr : ¬ (r.Accepted flash ∧ ready (env.polls n) = true)) :
    Triple (Starts n I) (r.prog env flash fastRead) (fun _ => Touched I) (Touched I) := by
  have hbusy (h : r.Accepted flash) : ready (env.polls n) = false := by
    cases hready : ready (env.polls n) with
    | false => rfl
    | true => exact absurd ⟨h, hready⟩ hr
  have hstop {α : Type} (a : α) : Triple (Starts n I) (pure a : FlashM α) (fun _ => Touched I)
      (Touched I) :=
    .pure fun _ h => h.2
  cases r with
  | read src len =>
    refine .discard (.ite (fun _ => hstop _) fun hlen => .ite (fun _ => hstop _) fun hsize => ?_)
    refine setRetlen_starts _ (wait_starts (hbusy ⟨hlen, hsize⟩) ?_)
    exact .ite (fun _ => keeps_pure _) (absurd Int.one_ne_zero)
  | write dst len buf =>
    refine .discard (setRetlen_starts _ (.ite (fun _ => hstop _) fun hlen => ?_))
    refine .ite (fun _ => hstop _) fun hsize => wait_starts (hbusy ⟨hlen, hsize⟩) ?_
    exact .ite (fun _ => keeps_pure _) (absurd Int.one_ne_zero)
  | erase turns instr =>
    refine .discard (.ite (fun _ => hstop _) fun hsize => ?_)
    refine .ite (fun _ => .throw fun _ h => h.2) fun hzero => .ite (fun _ => hstop _) fun hrem => ?_
    refine .bind (Q := fun _ => Touched I) ?_ fun failed => Keeps.ite (keeps_pure _) (keeps_pure _)
    rw [SilanFlash.eraseLoop]
    refine .ite (fun _ => hstop _) fun hlen => ?_
    refine .bind (Q := fun r => fun s => r = 1 ∧ I s.touched) ?_ fun failed => ?_
    · refine wait_starts (hbusy ⟨hsize, hzero, Decidable.not_not.mp hrem, hlen⟩) ?_
      exact .ite (fun _ => .pure fun _ h => ⟨rfl, h⟩) (absurd Int.one_ne_zero)
    · refine .ite (fun _ => .pure fun _ h => h.2) fun hfailed => ?_
      intro s hs
      exact absurd (hs.1 ▸ Int.one_ne_zero) hfailed

/-! ### The bounds -/

/-- The size of the buffer at `flash->command`. -/
def commandSize (fastRead : Bool) : Nat := MAX_CMD_SIZE + fastReadDummyByte fastRead

/-- All bytes of `flash->command` that the request stores or sends lie inside the buffer. -/
def Request.InBounds (env : Env) (flash : M25p) (fastRead : Bool) (s : Spi) (r : Request) : Prop :=
  ∀ i ∈ (exitState (r.prog env flash fastRead { s with touched := [] })).touched,
    i < commandSize fastRead

theorem Request.inBounds_of_not_reaches (hr : ¬ r.Reaches env flash s) :
    r.InBounds env flash fastRead s :=
  (r.touches_nothing (I := fun l => ∀ i ∈ l, i < commandSize fastRead) hr).exitState
    (s := { s with touched := [] }) ⟨rfl, nofun⟩

/-- With six bytes there is room for every store, and for a command that is not too long. -/
theorem Request.inBounds_of_sent_le (h : r.sent flash true ≤ 6) : r.InBounds env flash true s :=
  (r.keeps_prog (stable_lt (Nat.le_refl 6) h)).exitState (s := { s with touched := [] }) nofun

theorem Request.five_mem (hr : r.Reaches env flash s) :
    Touched (5 ∈ ·) (exitState (r.prog env flash fastRead { s with touched := [] })) :=
  (r.touches_five (I := (· = [])) hr.1 hr.2).exitState (s := { s with touched := [] }) ⟨rfl, rfl⟩

/-- **The bounds of the command buffer.** For every flash with an address of at most four bytes, a
request stays inside the buffer if and only if it does not get as far as its command, or the kernel
reads fast and the request is not a read with an address of four bytes. -/
theorem Request.inBounds_iff (hwidth : flash.addrWidth.toNat ≤ 4) (env : Env)
    (fastRead : Bool) (s : Spi) (r : Request) :
    r.InBounds env flash fastRead s ↔
      ¬ r.Reaches env flash s ∨
      (fastRead = true ∧ (r.isRead = true → flash.addrWidth.toNat ≤ 3)) := by
  constructor
  · intro hin
    by_cases hr : r.Reaches env flash s
    · refine .inr ?_
      cases fastRead with
      | false => exact absurd (hin 5 (Request.five_mem hr)) (by decide)
      | true =>
        refine ⟨rfl, fun hread => Nat.le_of_not_lt fun hfour => ?_⟩
        cases r with
        | read src len =>
          have hj : 6 < (Request.read src len).sent flash true := by
            show 6 < 2 + flash.addrWidth.toNat + 1
            omega
          have hsix := (read_touches (I := (· = [])) hr.1 hr.2 hj).exitState
            (s := { s with touched := [] }) ⟨rfl, rfl⟩
          exact absurd (hin 6 hsix) (by decide)
        | write dst len buf => exact nomatch hread
        | erase turns instr => exact nomatch hread
    · exact .inl hr
  · intro h
    rcases h with hr | ⟨rfl, hread⟩
    · exact Request.inBounds_of_not_reaches hr
    refine Request.inBounds_of_sent_le ?_
    cases r with
    | read src len =>
      have hthree := hread rfl
      show 2 + flash.addrWidth.toNat + 1 ≤ 6
      omega
    | write dst len buf | erase turns instr =>
      show 2 + flash.addrWidth.toNat ≤ 6
      omega

/-- Erasing one sector of a `w25q64` in a kernel that reads fast. -/
theorem inBounds_iff_erase : (probeFlash w25q64).addrWidth.toNat ≤ 4 ∧
      (Request.erase 0 ⟨0, 0x10000, .pending⟩).InBounds readyEnv
        (probeFlash w25q64) true Spi.idle :=
  ⟨by decide, (Request.inBounds_iff (by decide) readyEnv true Spi.idle _).mpr (.inr ⟨rfl, nofun⟩)⟩

/-- Reading a byte of a `w25q64` stores behind the five bytes of the buffer. Reading a byte of a
`mx25l25635e`, with its address of four bytes, sends seven bytes of a buffer of six. -/
theorem m25p80Read_leaves_buffer :
    ¬ (Request.read 0 1).InBounds readyEnv (probeFlash w25q64) false Spi.idle ∧
      ¬ (Request.read 0 1).InBounds readyEnv (probeFlash mx25l25635e) true Spi.idle := by
  unfold Request.InBounds
  decide

end SilanKernel.Drivers.SilanFlash
