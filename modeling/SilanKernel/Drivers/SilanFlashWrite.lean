import SilanKernel.Data.Mask
import SilanKernel.Data.Pages
import SilanKernel.Drivers.SilanFlash

/-!
# SilanKernel.Drivers.SilanFlashWrite

**A write arrives.** `m25p80_write` cuts its buffer at the ends of the pages and sends each chunk as
a page program of its own, after a write enable.

The chip is modelled by what it does with the messages: a write enable sets a latch, a page program
with the latch set programs its data from its address on, wrapping inside the page, and clears the
latch. How a byte is combined with what the cell holds is left open. The main result says which page
programs are sent and that after them the cells of the range, and no others, are programmed with the
buffer.
-/

namespace SilanKernel.Drivers.SilanFlash

open Pages List Nat

/-! ### The chip -/

/-- The number the bytes of an address stand for, the first byte the highest. -/
def decodeBytes (bytes : List Byte) : Nat := bytes.foldl (fun a b => a * 256 + b.toNat) 0

/-- The address of a command, which comes after the opcode and the type. -/
def decodeAddr (flash : M25p) (cmd : List Byte) : Nat :=
  decodeBytes ((cmd.drop 2).take flash.addrWidth.toNat)

structure Chip where
  mem : Nat → Byte
  /-- The write enable latch. -/
  wel : Bool

variable (flash : M25p) (prog : Byte → Byte → Byte)

/-- What the chip does with a message. -/
def Chip.receive (chip : Chip) (m : Message) : Chip :=
  if m.cmd.head? = some OPCODE_WREN then { chip with wel := true }
  else if m.cmd.head? = some OPCODE_PP then
    if chip.wel then
      { mem := putWrapped flash.pageSize.toNat prog (decodeAddr flash m.cmd) m.data chip.mem,
        wel := false }
    else chip
  else chip

def Chip.run (chip : Chip) (msgs : List Message) : Chip := msgs.foldl (Chip.receive flash prog) chip

def Message.isPageProgram (m : Message) : Bool := m.cmd.head? = some OPCODE_PP

/-- The page programs among the messages, each with its address and data. -/
def pagePrograms (msgs : List Message) : List (Nat × List Byte) :=
  (msgs.filter Message.isPageProgram).map fun m => (decodeAddr flash m.cmd, m.data)

/-- The messages are page programs of these chunks, and the chip takes all of them. -/
structure Programs (msgs : List Message) (cs : List (Nat × List Byte)) : Prop where
  sent : pagePrograms flash msgs = cs
  taken : ∀ chip : Chip, (chip.run flash prog msgs).mem =
    cs.foldl (fun m c => putWrapped flash.pageSize.toNat prog c.1 c.2 m) chip.mem

variable {flash prog} {env : Env} {command : Nat → Byte}

theorem Programs.append (h : Programs flash prog msgs cs) (h' : Programs flash prog msgs' cs') :
    Programs flash prog (msgs ++ msgs') (cs ++ cs') where
  sent := by
    rw [pagePrograms, filter_append, map_append, ← h.sent, ← h'.sent, pagePrograms, pagePrograms]
  taken := fun chip => by
    rw [Chip.run, foldl_append, foldl_append, ← h.taken chip]
    exact h'.taken _

theorem run_replicate_rdsr (chip : Chip) (n : Nat) :
    chip.run flash prog (replicate n rdsr) = chip := by
  induction n with
  | zero => rfl
  | succ n ih => exact ih

/-- Reading the status register programs nothing. -/
theorem programs_rdsr (n : Nat) : Programs flash prog (replicate n rdsr) [] where
  sent := by
    rw [pagePrograms, filter_replicate, if_neg (by decide)]
    rfl
  taken := fun chip => by
    rw [run_replicate_rdsr]
    rfl

/-- The message of `write_enable`. -/
def wren : Message := { cmd := [OPCODE_WREN, 0], data := [], rx := 0 }

/-- A wait, a write enable and a page program. -/
theorem programs_turn (n : Nat) (hm : m.cmd.head? = some OPCODE_PP) :
    Programs flash prog (replicate n rdsr ++ [wren, m]) [(decodeAddr flash m.cmd, m.data)] := by
  refine (programs_rdsr n).append ⟨?_, fun chip => ?_⟩
  · have hwren : ¬ wren.isPageProgram = true := by decide
    have hpp : m.isPageProgram = true := decide_eq_true hm
    rw [pagePrograms, filter_cons_of_neg hwren, filter_cons_of_pos hpp]
    rfl
  · have hne : ¬ some OPCODE_PP = some OPCODE_WREN := by decide
    show (Chip.receive flash prog { chip with wel := true } m).mem = _
    rw [Chip.receive, hm, if_neg hne, if_pos rfl]
    rfl

/-! ### The command of a page program -/

/-- The command with an address in it. -/
def commandBytes (env : Env) (flash : M25p) (addr : Word) (command : Nat → Byte) : List Byte :=
  (List.range (m25pCmdsz flash)).map (withAddr env flash addr command)

theorem commandBytes_head (addr : Word) (h : command 0 = OPCODE_PP) :
    (commandBytes env flash addr command).head? = some OPCODE_PP := by
  rw [commandBytes, m25pCmdsz, add_comm, range_succ_eq_map]
  exact congrArg some h

theorem shiftByte_toNat (env : Env) (addr : Word) {d : Nat} (hd : d < 32) :
    (shiftByte env addr d).toNat = addr.toNat / 2 ^ d % 256 := by
  rw [shiftByte, if_pos ⟨Int.natCast_nonneg d, Int.ofNat_lt.mpr hd⟩, Int.toNat_natCast,
    BitVec.toNat_setWidth, BitVec.toNat_ushiftRight, shiftRight_eq_div_pow]

/-- **The address arrives.** Three or four bytes give back every address they can hold. -/
theorem decodeAddr_commandBytes {addr : Word} (command : Nat → Byte)
    (hwidth : flash.addrWidth.toNat = 3 ∨ flash.addrWidth.toNat = 4)
    (haddr : addr.toNat < 2 ^ (8 * flash.addrWidth.toNat)) :
    decodeAddr flash (commandBytes env flash addr command) = addr.toNat := by
  have hbyte (d : Nat) (hd : d < 32) := shiftByte_toNat env addr hd
  rcases hwidth with hwidth | hwidth
  · have hbytes : decodeAddr flash (commandBytes env flash addr command) =
        ((0 * 256 + (shiftByte env addr (16 : Nat)).toNat) * 256 +
        (shiftByte env addr (8 : Nat)).toNat) * 256 +
          (shiftByte env addr (0 : Nat)).toNat := by
      simp only [decodeAddr, commandBytes, m25pCmdsz, withAddr, hwidth]
      rfl
    rw [hbytes, hbyte 16 (by decide), hbyte 8 (by decide), hbyte 0 (by decide)]
    rw [hwidth] at haddr
    omega
  · have hbytes : decodeAddr flash (commandBytes env flash addr command) =
        (((0 * 256 + (shiftByte env addr (24 : Nat)).toNat) * 256 +
        (shiftByte env addr (16 : Nat)).toNat) * 256 +
          (shiftByte env addr (8 : Nat)).toNat) * 256 + (shiftByte env addr (0 : Nat)).toNat := by
      simp only [decodeAddr, commandBytes, m25pCmdsz, withAddr, hwidth]
      rfl
    rw [hbytes, hbyte 24 (by decide), hbyte 16 (by decide), hbyte 8 (by decide),
      hbyte 0 (by decide)]
    omega

/-! ### The loop -/

/-- A page program of `n` bytes of the buffer from byte `i` on. -/
def ppMessage (env : Env) (flash : M25p) (addr : Word) (command : Nat → Byte) (buf : List Byte)
    (i n : Word) : Message :=
  { cmd := commandBytes env flash addr command, data := (buf.drop i.toNat).take n.toNat, rx := 0 }

/-- One turn of the loop: a wait, a write enable and a page program. -/
theorem writeLoop_turn (env : Env) (flash : M25p) (dst : Quad) (buf : List Byte)
    (fuel : Nat) (s : Spi) (hi : i < len) :
    ∃ n s1, writeLoop env flash dst len buf (fuel + 1) i s =
        writeLoop env flash dst len buf fuel (i + chunkSize flash len i) s1 ∧
      s1.log = s.log ++ (replicate n rdsr ++ [wren,
        ppMessage env flash ((dst + i.setWidth 64).setWidth 32) s.command buf i
        (chunkSize flash len i)]) ∧
      s1.command 0 = s.command 0 := by
  rw [writeLoop, if_pos hi, bind_of_ok (m25pAddr2cmd_eq env flash _ s),
    bind_of_ok (discard_of_ok (waitTillReady_eq env _))]
  refine ⟨readings (env.polls s.waited), _, rfl, ?_, rfl⟩
  show (_ ++ _) ++ [wren] ++ [_] = _
  rw [append_assoc, append_assoc]
  rfl

/-- A write of `len` bytes that lies inside a flash with pages of a power of two and addresses of
three or four bytes. -/
structure Writable (flash : Flash) (dst : Quad) (len : Word) (buf : List Byte) : Prop where
  page : ∃ k, flash.pageSize.toNat = 2 ^ k
  width : flash.addrWidth.toNat = 3 ∨ flash.addrWidth.toNat = 4
  fit : dst.toNat + len.toNat ≤ flash.size.toNat
  buf : len.toNat ≤ buf.length

section

variable {flash : Flash} {dst : Quad} {len i : Word} {buf : List Byte}

theorem pageSize_toNat (flash : M25p) : (flash.pageSize.setWidth 32).toNat =
    flash.pageSize.toNat := by
  rw [BitVec.toNat_setWidth]
  omega

/-- A chunk is what is left of the buffer, or a page of it. -/
theorem chunkSize_toNat (flash : M25p) (hi : i.toNat < len.toNat) :
    (chunkSize flash len i).toNat = min flash.pageSize.toNat (len.toNat - i.toNat) := by
  have hsub : (len - i).toNat = len.toNat - i.toNat := BitVec.toNat_sub_of_le (le_of_lt hi)
  have hpage := pageSize_toNat flash
  have hlt : flash.pageSize.setWidth 32 < len - i ↔ flash.pageSize.toNat < len.toNat - i.toNat := by
    rw [BitVec.lt_def, hpage, hsub]
  rw [chunkSize]
  by_cases h : flash.pageSize.setWidth 32 < len - i
  · rw [if_pos h, hpage, min_eq_left (le_of_lt (hlt.mp h))]
  · rw [if_neg h, hsub, Nat.min_eq_right (Nat.le_of_not_lt (mt hlt.mpr h))]

/-- The part of the buffer from byte `i` on, cut after `n` bytes. -/
theorem take_drop_split {n i l : Nat} (buf : List Byte) (h : i + n ≤ l) :
    (buf.drop i).take (l - i) = (buf.drop i).take n ++ (buf.drop (i + n)).take (l - (i + n)) := by
  have hsum : l - i = n + (l - (i + n)) := by omega
  rw [hsum, take_add, drop_drop]

/-- The loop is over. -/
theorem writeLoop_done (hdone : ¬ i.toNat < len.toNat) :
    ∃ s' msgs cs, writeLoop env flash dst len buf fuel i s = .ok () s' ∧ s'.log = s.log ++ msgs ∧
      Programs flash prog msgs cs ∧
      Cut flash.pageSize.toNat (dst.toNat + i.toNat)
      ((buf.drop i.toNat).take (len.toNat - i.toNat)) cs := by
  refine ⟨s, [], [], ?_, (append_nil _).symm, programs_rdsr 0, ?_⟩
  · rw [writeLoop.eq_def, if_neg (mt BitVec.lt_def.mp hdone)]
    rfl
  · rw [Nat.sub_eq_zero_of_le (Nat.le_of_not_lt hdone), take_zero]
    exact Cut.nil

theorem sendChunk_then (flash : M25p) (buf : List Byte) (n : Word) (s : Spi)
    (f : Message → Word → Word) (k : Unit → FlashM Unit) :
    ∃ s1, (sendChunk flash buf 0 n >>= fun m => setRetlen (f m) >>= k) s = k () s1 ∧
      s1.log = s.log ++
        [{ cmd := (range (m25pCmdsz flash)).map s.command, data := buf.take n.toNat, rx := 0 }] ∧
      s1.command = s.command :=
  ⟨_, rfl, rfl, rfl⟩

variable (h : Writable flash dst len buf)

include h

theorem Writable.page_pos : 0 < flash.pageSize.toNat := by
  obtain ⟨k, hk⟩ := h.page
  exact hk ▸ Nat.two_pow_pos k

/-- The address of byte `i` of the buffer, as the command has it. -/
theorem Writable.addr (env : Env) (hi : i.toNat < len.toNat) (command : Nat → Byte) :
    decodeAddr flash (commandBytes env flash ((dst + i.setWidth 64).setWidth 32) command) =
      dst.toNat + i.toNat := by
  have hfit := h.fit
  have hsize := flash.size_lt
  have hiw : (i.setWidth 64).toNat = i.toNat := BitVec.toNat_setWidth_of_le (by decide)
  have haddr : ((dst + i.setWidth 64).setWidth 32).toNat = dst.toNat + i.toNat := by
    rw [BitVec.toNat_setWidth, BitVec.toNat_add, hiw]
    omega
  rw [decodeAddr_commandBytes command h.width ?_, haddr]
  rw [haddr]
  exact lt_of_lt_of_le (by omega) flash.addressable

/-- A page program of a chunk inside a page, in front of the rest of the buffer. -/
theorem Writable.cut_cons {n : Nat} {cs : List (Nat × List Byte)} (hn : 0 < n)
    (hin : i.toNat + n ≤ len.toNat)
    (hpage : (dst.toNat + i.toNat) % flash.pageSize.toNat + n ≤ flash.pageSize.toNat)
    (hrest : Cut flash.pageSize.toNat (dst.toNat + (i.toNat + n))
      ((buf.drop (i.toNat + n)).take (len.toNat - (i.toNat + n))) cs) :
    Cut flash.pageSize.toNat (dst.toNat + i.toNat) ((buf.drop i.toNat).take (len.toNat - i.toNat))
      ((dst.toNat + i.toNat, (buf.drop i.toNat).take n) :: cs) := by
  have hlen : ((buf.drop i.toNat).take n).length = n := by
    have hbuf := h.buf
    rw [length_take, length_drop]
    omega
  rw [take_drop_split buf hin]
  refine Cut.cons ⟨?_, ?_⟩ ?_
  · rw [hlen]
    exact hn
  · rw [hlen]
    exact hpage
  · rw [hlen, add_assoc]
    exact hrest

/-- **The run lemma.** From a byte at the start of a page on, the loop comes to its end and sends
the rest of the buffer, cut at the ends of the pages. -/
theorem Writable.writeLoop_sends (env : Env) (prog : Byte → Byte → Byte) (fuel : Nat) {s : Spi}
    (hcmd : s.command 0 = OPCODE_PP) (hi : i.toNat ≤ len.toNat) (hfuel : len.toNat ≤ i.toNat + fuel)
    (hpage : i.toNat < len.toNat → (dst.toNat + i.toNat) % flash.pageSize.toNat = 0) :
    ∃ s' msgs cs, writeLoop env flash dst len buf fuel i s = .ok () s' ∧ s'.log = s.log ++ msgs ∧
      Programs flash prog msgs cs ∧
      Cut flash.pageSize.toNat (dst.toNat + i.toNat)
      ((buf.drop i.toNat).take (len.toNat - i.toNat)) cs := by
  induction fuel generalizing i s with
  | zero => exact writeLoop_done (not_lt.mpr hfuel)
  | succ fuel ih =>
    by_cases hlt : i.toNat < len.toNat
    · have hchunk := chunkSize_toNat flash hlt
      have hpos := h.page_pos
      have halign := hpage hlt
      generalize hn : (chunkSize flash len i).toNat = n at hchunk
      have hnext : (i + chunkSize flash len i).toNat = i.toNat + n := by
        rw [BitVec.toNat_add_of_lt (by omega), hn]
      obtain ⟨k, s1, hturn, hlog, hcmd1⟩ := writeLoop_turn env flash dst buf fuel s
        (BitVec.lt_def.mpr hlt)
      -- a chunk that is not the last is a whole page
      have hpage1 : i.toNat + n < len.toNat →
          (dst.toNat + (i.toNat + n)) % flash.pageSize.toNat = 0 := by
        intro hmore
        have hwhole : n = flash.pageSize.toNat := by omega
        rw [hwhole, ← add_assoc, add_mod_right]
        exact halign
      obtain ⟨s', msgs, cs, hrun, hlog', hprog, hcut⟩ := @ih (i + chunkSize flash len i) s1
        (hcmd1.trans hcmd) (by omega) (by omega) (by rw [hnext]; exact hpage1)
      have hfirst : Programs flash prog (replicate k rdsr ++ [wren, ppMessage env flash
          ((dst + i.setWidth 64).setWidth 32) s.command buf i (chunkSize flash len i)])
          [(dst.toNat + i.toNat, (buf.drop i.toNat).take n)] := by
        rw [← h.addr env hlt s.command, ← hn]
        exact programs_turn k (commandBytes_head _ hcmd)
      rw [hnext] at hcut
      refine ⟨s', _, _, hturn.trans hrun, ?_, hfirst.append hprog, h.cut_cons (by omega) (by omega)
        (by omega) hcut⟩
      rw [hlog', hlog, append_assoc]
    · exact writeLoop_done hlt

/-! ### The first chunk -/

/-- `to & (page_size - 1)` -/
theorem Writable.pageOffset_toNat :
    (pageOffset flash dst).toNat = dst.toNat % flash.pageSize.toNat := by
  obtain ⟨k, hk⟩ := h.page
  have hmask : (flash.pageSize.setWidth 64 - 1).toNat = 2 ^ k - 1 := by
    have hwide : (flash.pageSize.setWidth 64).toNat = flash.pageSize.toNat :=
      BitVec.toNat_setWidth_of_le (by decide)
    have hone : (1 : Quad).toNat ≤ (flash.pageSize.setWidth 64).toNat := by
      rw [hwide]
      exact h.page_pos
    rw [BitVec.toNat_sub_of_le hone, hwide, hk]
    rfl
  have hmod := mod_lt dst.toNat h.page_pos
  rw [pageOffset, BitVec.toNat_setWidth, Mask.toNat_and_mask hmask, ← hk]
  omega

/-- The transfers: a first page program, and after it the rest of the buffer. -/
theorem Writable.writePages_sends (prog : Byte → Byte → Byte) (hlen : 0 < len.toNat) (s : Spi)
    (hcmd : s.command = withAddr env flash (dst.setWidth 32) command)
    (hpp : command 0 = OPCODE_PP) :
    ∃ s' n msgs cs, writePages env flash dst len buf s = .ok () s' ∧
      s'.log = s.log ++ (ppMessage env flash (dst.setWidth 32) command buf 0 n :: msgs) ∧
      Programs flash prog msgs cs ∧
      Cut flash.pageSize.toNat dst.toNat (buf.take len.toNat)
      ((dst.toNat, buf.take n.toNat) :: cs) := by
  have hoffset := h.pageOffset_toNat
  have hpage := pageSize_toNat flash
  have hpos := h.page_pos
  have hfit := h.fit
  have hsize := flash.size_lt
  have hmod := mod_lt dst.toNat hpos
  have hmodle := mod_le dst.toNat flash.pageSize.toNat
  have hcut := @Writable.cut_cons flash dst len 0 buf h
  generalize hP : flash.pageSize.toNat = size at *
  have hsum : (pageOffset flash dst + len).toNat = dst.toNat % size + len.toNat := by
    rw [BitVec.toNat_add_of_lt (by omega), hoffset]
  have hone : pageOffset flash dst + len ≤ flash.pageSize.setWidth 32 ↔
      dst.toNat % size + len.toNat ≤ size := by
    rw [BitVec.le_def, hsum, hpage]
  rw [writePages]
  by_cases hfits : pageOffset flash dst + len ≤ flash.pageSize.setWidth 32
  · rw [if_pos hfits]
    refine ⟨_, len, [], [], rfl, ?_, programs_rdsr 0, hcut hlen (Nat.le_of_eq (Nat.zero_add _))
      (hone.mp hfits) ?_⟩
    · show s.log ++ [_] = _
      rw [hcmd]
      rfl
    · rw [Nat.sub_eq_zero_of_le (Nat.le_add_left _ _), take_zero]
      exact Cut.nil
  rw [if_neg hfits]
  have hmore := mt hone.mpr hfits
  generalize hfirst : flash.pageSize.setWidth 32 - pageOffset flash dst = first
  have hn : first.toNat = size - dst.toNat % size := by
    rw [← hfirst, BitVec.toNat_sub_of_le (BitVec.le_def.mpr (by omega)), hpage, hoffset]
  -- behind the first chunk a page starts
  have hstart : (dst.toNat + first.toNat) % size = 0 := by
    have hdiv := div_add_mod' dst.toNat size
    have hend : dst.toNat + first.toNat = (dst.toNat / size + 1) * size := by
      rw [succ_mul]
      omega
    rw [hend, mul_mod_left]
  subst hP
  obtain ⟨s1, hsend, hlog1, hcmd1⟩ := sendChunk_then flash buf first s
    (fun m _ => env.actualLength m) (fun _ => writeLoop env flash dst len buf len.toNat first)
  have hpp1 : s1.command 0 = OPCODE_PP := by
    rw [hcmd1, hcmd]
    exact hpp
  obtain ⟨s', msgs, cs, hrun, hlog, hprog, hrest⟩ := h.writeLoop_sends env prog len.toNat hpp1
    (by omega) (by omega) fun _ => hstart
  refine ⟨s', first, msgs, cs, hsend.trans hrun, ?_, hprog, hcut (n := first.toNat)
    (by omega) ?_ ?_ ?_⟩
  · rw [hlog, hlog1, hcmd, append_assoc]
    rfl
  · show 0 + first.toNat ≤ len.toNat
    omega
  · show (dst.toNat + 0) % flash.pageSize.toNat + first.toNat ≤ flash.pageSize.toNat
    rw [Nat.add_zero]
    omega
  · show Cut _ (dst.toNat + (0 + first.toNat))
      ((buf.drop (0 + first.toNat)).take (len.toNat - (0 + first.toNat))) cs
    rw [Nat.zero_add]
    exact hrest

/-! ### The request -/

omit h

/-- The cells from `dst` on hold what programming them with the first `len` bytes of the buffer
gives, and no other cell has changed. -/
structure Programmed (prog : Byte → Byte → Byte) (dst len : Nat) (buf : List Byte)
    (before after : Nat → Byte) : Prop where
  inside : ∀ i b, i < len → buf[i]? = some b → after (dst + i) = prog (before (dst + i)) b
  outside : ∀ x, x < dst ∨ dst + len ≤ x → after x = before x

theorem programmed_put {dst len : Nat} {before : Nat → Byte} (hbuf : len ≤ buf.length) :
    Programmed prog dst len buf before (put prog dst (buf.take len) before) where
  inside := fun i b hi hb => by
    have hlt : i < (buf.take len).length := by
      rw [length_take]
      omega
    rw [put_getElem hlt, getElem_take]
    obtain ⟨_, rfl⟩ := List.getElem?_eq_some_iff.mp hb
    rfl
  outside := fun x hx => by
    rcases hx with hx | hx
    · exact put_of_lt hx
    · refine put_of_le (Nat.le_trans (Nat.add_le_add_left ?_ dst) hx)
      rw [List.length_take]
      exact min_le_left _ _

theorem setRetlen_eq (f : Word → Word) (s : Spi) :
    setRetlen f s = .ok () { s with retlen := f s.retlen } := rfl

theorem writeEnable_eq (s : Spi) : writeEnable s = .ok () { s with log := s.log ++ [wren] } := rfl

/-- A write that is accepted, up to its first transfer. -/
theorem m25p80Write_start (flash : M25p) (buf : List Byte) (s : Spi)
    (hready : ∀ n, ready (env.polls n) = true) (hzero : len ≠ 0)
    (hfit : ¬ flash.size < dst + len.setWidth 64) :
    ∃ s1 command k, m25p80Write env flash dst len buf s =
        (writePages env flash dst len buf >>= fun _ => discard (waitTillReady env) >>=
        fun _ => pure 0) s1 ∧
      s1.log = s.log ++ (replicate k rdsr ++ [wren]) ∧
      s1.command = withAddr env flash (dst.setWidth 32) command ∧ command 0 = OPCODE_PP := by
  have hwait := waitTillReady_eq env { s with retlen := 0 }
  rw [hready, if_pos rfl] at hwait
  rw [m25p80Write, bind_of_ok (setRetlen_eq _ s), if_neg hzero, if_neg hfit, bind_of_ok hwait,
    if_neg (fun hbusy => hbusy rfl), bind_of_ok (writeEnable_eq _),
    bind_of_ok (setUpCommand_eq env flash OPCODE_PP _ _)]
  exact ⟨_, _, readings (env.polls s.waited), rfl, append_assoc _ _ _, rfl, rfl⟩

include h

/-- The first page program, with the wait and the write enable before it. -/
theorem Writable.programs_first (env : Env) (prog : Byte → Byte → Byte) (k : Nat) (n : Word)
    (hlen : 0 < len.toNat) (hpp : command 0 = OPCODE_PP) :
    Programs flash prog
      (replicate k rdsr ++ [wren, ppMessage env flash (dst.setWidth 32) command buf 0 n])
      [(dst.toNat, buf.take n.toNat)] := by
  have haddr := h.addr env (i := 0) hlen command
  rw [show dst + (0 : Word).setWidth 64 = dst from BitVec.add_zero dst] at haddr
  rw [← show _ = dst.toNat from haddr]
  exact programs_turn k (commandBytes_head _ hpp)

/-- The messages of a write, as one list of page programs. -/
theorem Writable.m25p80Write_sends (hready : ∀ n, ready (env.polls n) = true)
    (prog : Byte → Byte → Byte) (s : Spi) :
    ∃ s' msgs cs, m25p80Write env flash dst len buf s = .ok 0 s' ∧ s'.log = s.log ++ msgs ∧
      Programs flash prog msgs cs ∧ Cut flash.pageSize.toNat dst.toNat (buf.take len.toNat) cs := by
  by_cases hzero : len = 0
  · rw [m25p80Write, bind_of_ok (setRetlen_eq _ s), if_pos hzero, hzero]
    exact ⟨_, [], [], rfl, (append_nil _).symm, programs_rdsr 0, Cut.nil⟩
  have hlen : 0 < len.toNat := Nat.pos_of_ne_zero fun hnat => hzero (BitVec.eq_of_toNat_eq hnat)
  have hfit : ¬ flash.size < dst + len.setWidth 64 := by
    have hle := h.fit
    have hwide : (len.setWidth 64).toNat = len.toNat := BitVec.toNat_setWidth_of_le (by decide)
    rw [BitVec.not_lt, BitVec.le_def, BitVec.toNat_add_of_lt (by omega), hwide]
    exact hle
  obtain ⟨s1, command, k, hstart, hlog1, hcmd, hpp⟩ :=
    m25p80Write_start flash buf s hready hzero hfit
  obtain ⟨s2, n, msgs, cs, hrun, hlog2, hprog, hcut⟩ := h.writePages_sends prog hlen s1 hcmd hpp
  rw [hstart, bind_of_ok hrun, bind_of_ok (discard_of_ok (waitTillReady_eq env s2))]
  have hall := ((h.programs_first env prog k n hlen hpp).append hprog).append
    (programs_rdsr (readings (env.polls s2.waited)))
  refine ⟨_, _, _, rfl, ?_, hall, ?_⟩
  · show s2.log ++ _ = _
    rw [hlog2, hlog1]
    simp
  · rw [append_nil]
    exact hcut

omit h

/-- **A write arrives.** Inside a flash with pages of a power of two and addresses of three or four
bytes, and with a chip that gets ready, a write comes to its end. It has sent page programs whose
addresses follow each other, none of which crosses the end of a page, and whose data together is the
buffer. A chip that wraps inside its pages has then programmed exactly the range with the buffer. -/
theorem m25p80Write_programs (flash : Flash) (env : Env)
    (hready : ∀ n, ready (env.polls n) = true) (dst : Quad) (len : Word) (buf : List Byte)
    (h : Writable flash dst len buf) (prog : Byte → Byte → Byte) (s : Spi) :
    ∃ s' msgs, m25p80Write env flash dst len buf s = .ok 0 s' ∧ s'.log = s.log ++ msgs ∧
      Cut flash.pageSize.toNat dst.toNat (buf.take len.toNat) (pagePrograms flash msgs) ∧
      ∀ chip : Chip, Programmed prog dst.toNat len.toNat buf chip.mem
      (chip.run flash prog msgs).mem := by
  obtain ⟨s', msgs, cs, hrun, hlog, hprog, hcut⟩ := h.m25p80Write_sends hready prog s
  refine ⟨s', msgs, hrun, hlog, hprog.sent ▸ hcut, fun chip => ?_⟩
  rw [hprog.taken chip, hcut.foldl_putWrapped]
  exact programmed_put h.buf

/-- Four bytes across the end of the first page of a `w25q64`. -/
theorem m25p80Write_programs_two_pages :
    ∃ s' msgs, m25p80Write readyEnv (Flash.ofInfo w25q64 rfl).toM25p 0xfe 4
      [1, 2, 3, 4] Spi.idle = .ok 0 s' ∧ s'.log = Spi.idle.log ++ msgs ∧
      Cut 256 0xfe [1, 2, 3, 4] (pagePrograms (Flash.ofInfo w25q64 rfl).toM25p msgs) ∧
      ∀ chip : Chip, Programmed (· &&& ·) 0xfe 4 [1, 2, 3, 4] chip.mem
        (chip.run (Flash.ofInfo w25q64 rfl).toM25p (· &&& ·) msgs).mem :=
  m25p80Write_programs (Flash.ofInfo w25q64 rfl) readyEnv (fun _ => rfl) 0xfe 4 [1, 2, 3, 4]
    ⟨⟨8, rfl⟩, Or.inl rfl, by decide, by decide⟩ (· &&& ·) Spi.idle

example : pagePrograms (probeFlash w25q64)
    (exitState (m25p80Write readyEnv (probeFlash w25q64) 0xfe 4 [1, 2, 3, 4] Spi.idle)).log =
      [(0xfe, [1, 2]), (0x100, [3, 4])] := by
  decide

end

end SilanKernel.Drivers.SilanFlash
