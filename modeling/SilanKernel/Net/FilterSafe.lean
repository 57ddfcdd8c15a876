import SilanKernel.Net.Filter

/-!
# SilanKernel.Net.FilterSafe

A program that `sk_chk_filter` accepts is safe to run.

The pass of `check_load_and_stores` is a data-flow analysis: **it has found, for every
instruction, a set of cells that are written on each path to it** (`Flow`). From that one fact a run
of the interpreter is followed instruction by instruction, next to a second run that starts
with other contents of the scratch cells: the two never differ (`skRunFilter_flow`).
-/

namespace SilanKernel.Net

open Function Option List BitVec BpfS

variable {op : BpfS} {filter : List SockFilter} {pc flen : Nat} {insn : SockFilter}
  {log : List Access} {v : BitVec 16} {V masks : Nat → BitVec 16}

/-! ### Kinds of instructions -/

/-- As far as jumps and scratch cells go. -/
inductive Kind where
  | store | load | ja | cond | ret | plain
deriving DecidableEq

def BpfS.kind : BpfS → Kind
  | st | stx => .store
  | ldMem | ldxMem => .load
  | jmpJa => .ja
  | retK | retA => .ret
  | op => if op.conditional then .cond else .plain

def SockFilter.kind (insn : SockFilter) : Kind :=
  match BpfS.ofCode insn.code with
  | some op => op.kind
  | none => .plain

theorem kind_toCode (op : BpfS) (jt jf : BitVec 8) (k : BitVec 32) :
    SockFilter.kind ⟨op.toCode, jt, jf, k⟩ = op.kind := by
  rw [SockFilter.kind, ofCode_toCode]

/-- Where control may go from the instruction at `pc`. -/
def Leads (insn : SockFilter) (pc t : Nat) : Prop :=
  match insn.kind with
  | .ja => t = pc + 1 + insn.k.toNat
  | .cond => t = pc + 1 + insn.jt.toNat ∨ t = pc + 1 + insn.jf.toNat
  | .ret => False
  | _ => t = pc + 1

/-- How an instruction uses the scratch cells. -/
def SockFilter.access (insn : SockFilter) : List Access :=
  match insn.kind with
  | .load => [.read insn.k.toNat]
  | .store => [.write insn.k.toNat]
  | _ => []

/-! ### One instruction -/

/-- Two runs that cannot be told apart: they differ in cells that have not been written. -/
structure Agree (r r' : Regs) : Prop where
  pc : r'.pc = r.pc
  a : r'.a = r.a
  x : r'.x = r.x
  log : r'.log = r.log
  mem : ∀ i, .write i ∈ r.log → r'.mem i = r.mem i

/-- What one instruction does to two such runs. -/
def StepsAlike (insn : SockFilter) (r : Regs) (o o' : Outcome) : Prop :=
  (∃ v, o = .ret v ∧ o' = .ret v) ∨
    ∃ s s', o = .next s ∧ o' = .next s' ∧ Agree s s' ∧ Leads insn r.pc s.pc ∧
      s.log = insn.access ++ r.log

section

variable {cpu : Cpu} {skb : SkBuff} {r r' : Regs} {filter' : List SockFilter} {memvalid : BitVec 16}
  {k : BitVec 32}

theorem Agree.store (h : Agree r r') (cell : Nat) (v : BitVec 32) :
    Agree { r with pc := r.pc + 1, mem := update r.mem cell v, log := .write cell :: r.log }
      { r' with pc := r'.pc + 1, mem := update r'.mem cell v,
                log := .write cell :: r'.log } where
  pc := by rw [h.pc]
  a := h.a
  x := h.x
  log := by rw [h.log]
  mem := by
    intro i hi
    dsimp only at hi ⊢
    by_cases hic : i = cell
    · rw [hic, update_self, update_self]
    · rw [update_of_ne hic, update_of_ne hic]
      refine h.mem i ((mem_cons.mp hi).resolve_left fun hc => hic ?_)
      exact Access.write.inj hc

theorem Agree.regs (h : Agree r r') (pc : Nat) (a x : BitVec 32) (log : List Access)
    (hlog : ∀ i, .write i ∈ log → .write i ∈ r.log) :
    Agree { r with pc := pc, a := a, x := x, log := log }
      { r' with pc := pc, a := a, x := x, log := log } :=
  ⟨rfl, rfl, rfl, rfl, fun i hi => h.mem i (hlog i hi)⟩

theorem mem_log_of_read (h : Access.write i ∈ Access.read cell :: log) : .write i ∈ log := by
  rcases mem_cons.mp h with hc | hmem
  · cases hc
  · exact hmem

/-- The instructions that are not a case of their own in `execInsn`. -/
theorem execInsn_other (hop : ofCode insn.code = some op)
    (hkind : op.kind = .cond ∨ op.kind = .ret ∨ op.kind = .plain) :
    execInsn cpu skb insn r =
      if op.conditional then
        .next { r with pc := r.pc + (if taken op insn.k r.a r.x then insn.jt else
          insn.jf).toNat + 1 }
      else
        match execPlain cpu skb op insn.k r.a r.x with
        | .regs a x => .next { r with pc := r.pc + 1, a := a, x := x }
        | .ret value => .ret value := by
  rw [execInsn, hop]
  cases op <;> first | rfl | simp [kind] at hkind

theorem conditional_iff : op.conditional = true ↔ op.kind = .cond := by
  cases op <;> simp [kind, conditional]

theorem execPlain_ret (cpu : Cpu) (skb : SkBuff) (h : op.kind = .ret) (k a x : BitVec 32) :
    ∃ v, execPlain cpu skb op k a x = .ret v := by
  cases op <;> first | exact ⟨_, rfl⟩ | simp [kind, conditional] at h

/-- **One turn of the loop.** A read must be of a cell that has been written. -/
theorem execInsn_alike (cpu : Cpu) (skb : SkBuff) (h : Agree r r')
    (hload : insn.kind = .load → .write insn.k.toNat ∈ r.log) :
    StepsAlike insn r (execInsn cpu skb insn r) (execInsn cpu skb insn r') := by
  cases hop : ofCode insn.code with
  | none => exact .inl ⟨0, by simp only [execInsn, hop], by simp only [execInsn, hop]⟩
  | some op =>
    have hkind : insn.kind = op.kind := by rw [SockFilter.kind, hop]
    cases hk : op.kind with
    | load =>
      have hlead : Leads insn r.pc (r.pc + 1) := by simp only [Leads, hkind, hk]
      have hmem := h.mem _ (hload (hkind.trans hk))
      have hread : ∀ a x, StepsAlike insn r
          (.next { r with pc := r.pc + 1, a := a, x := x, log := .read insn.k.toNat :: r.log })
          (.next { r' with pc := r.pc + 1, a := a, x := x, log := .read insn.k.toNat :: r.log }) :=
        fun a x => .inr ⟨_, _, rfl, rfl, h.regs _ a x _ fun _ => mem_log_of_read,
          hlead, by rw [SockFilter.access, hkind, hk]; rfl⟩
      cases op <;> simp [kind, conditional] at hk
      · simp only [execInsn, hop, h.pc, h.x, h.log, hmem]
        exact hread _ _
      · simp only [execInsn, hop, h.pc, h.a, h.log, hmem]
        exact hread _ _
    | store =>
      have hlead : Leads insn r.pc (r.pc + 1) := by simp only [Leads, hkind, hk]
      have hwrite : ∀ v v', v' = v → StepsAlike insn r
          (.next { r with pc := r.pc + 1, mem := update r.mem insn.k.toNat v,
                          log := .write insn.k.toNat :: r.log })
          (.next { r' with pc := r'.pc + 1, mem := update r'.mem insn.k.toNat v',
                           log := .write insn.k.toNat :: r'.log }) := by
        intro v v' hv
        subst hv
        exact .inr ⟨_, _, rfl, rfl, h.store _ _, hlead, by rw [SockFilter.access, hkind, hk]; rfl⟩
      cases op <;> simp [kind, conditional] at hk
      · simp only [execInsn, hop]
        exact hwrite _ _ h.a
      · simp only [execInsn, hop]
        exact hwrite _ _ h.x
    | ja =>
      have hlead : Leads insn r.pc (r.pc + insn.k.toNat + 1) := by
        simp only [Leads, hkind, hk]
        omega
      have heq : ∀ s : Regs, execInsn cpu skb insn s =
          .next { s with pc := s.pc + insn.k.toNat + 1 } := by
        cases op <;> simp [kind, conditional] at hk
        exact fun s => by simp only [execInsn, hop]
      exact .inr ⟨_, _, heq r, heq r', ⟨by simp only [h.pc], h.a, h.x, h.log, h.mem⟩, hlead,
        by rw [SockFilter.access, hkind, hk]; rfl⟩
    | cond =>
      have hc := conditional_iff.mpr hk
      have heq : ∀ s : Regs, execInsn cpu skb insn s = .next { s with
          pc := s.pc + (if taken op insn.k s.a s.x then insn.jt else insn.jf).toNat + 1 } :=
        fun s => by rw [execInsn_other hop (.inl hk), if_pos hc]
      refine .inr ⟨_, _, heq r, heq r', ⟨by simp only [h.pc, h.a, h.x], h.a, h.x, h.log, h.mem⟩,
        ?_, by rw [SockFilter.access, hkind, hk]; rfl⟩
      simp only [Leads, hkind, hk]
      cases taken op insn.k r.a r.x with
      | true => exact .inl (by simp only [if_true]; omega)
      | false => exact .inr (by simp only [Bool.false_eq_true, if_false]; omega)
    | ret =>
      have hc : ¬ op.conditional = true := fun hc => by simp [conditional_iff.mp hc] at hk
      obtain ⟨v, hv⟩ := execPlain_ret cpu skb hk insn.k r.a r.x
      refine .inl ⟨v, ?_, ?_⟩
      · rw [execInsn_other hop (.inr (.inl hk)), if_neg hc, hv]
      · rw [execInsn_other hop (.inr (.inl hk)), if_neg hc, h.a, h.x, hv]
    | plain =>
      have hlead : Leads insn r.pc (r.pc + 1) := by simp only [Leads, hkind, hk]
      have hc : ¬ op.conditional = true := fun hc => by simp [conditional_iff.mp hc] at hk
      rw [execInsn_other hop (.inr (.inr hk)), execInsn_other hop (.inr (.inr hk)),
        if_neg hc, if_neg hc, h.a, h.x, h.pc]
      cases execPlain cpu skb op insn.k r.a r.x with
      | ret v => exact .inl ⟨v, rfl, rfl⟩
      | regs a x =>
        refine .inr ⟨_, _, rfl, rfl, ?_, hlead, by rw [SockFilter.access, hkind, hk]; rfl⟩
        exact ⟨rfl, rfl, rfl, h.log, h.mem⟩

end

/-! ### The analysis -/

/-- The cells of `v` are among those of `w`. -/
def Sub (v w : BitVec 16) : Prop := ∀ i, v.getLsbD i = true → w.getLsbD i = true

theorem Sub.trans (h : Sub u v) (h' : Sub v w) : Sub u w :=
  fun i hi => h' i (h i hi)

theorem sub_and_left (v w : BitVec 16) : Sub (v &&& w) v := by
  intro i hi
  rw [getLsbD_and, Bool.and_eq_true] at hi
  exact hi.1

theorem sub_and_right (v w : BitVec 16) : Sub (v &&& w) w := by
  intro i hi
  rw [getLsbD_and, Bool.and_eq_true] at hi
  exact hi.2

/-- What is written after the instruction if the cells of `v` were before. -/
def SockFilter.out (insn : SockFilter) (v : BitVec 16) : BitVec 16 :=
  if insn.kind = .store then v ||| cellBit insn.k else v

/-- `V` is right about the instruction at `pc`: a load finds its cell written, and wherever
control goes no more is promised than has been written. -/
structure FlowAt (V : Nat → BitVec 16) (pc : Nat) (insn : SockFilter) : Prop where
  load : insn.kind = .load → (V pc).getLsbD insn.k.toNat = true
  leads : ∀ t, Leads insn pc t → Sub (V t) (insn.out (V pc))

theorem and_cellBit (h : v &&& cellBit k ≠ 0) : v.getLsbD k.toNat = true := by
  by_contra hc
  refine h (eq_of_getLsbD_eq fun i hi => ?_)
  have hzero : (0 : BitVec 16).getLsbD i = false := getLsbD_zero
  rw [getLsbD_and, hzero]
  by_cases hik : i = k.toNat
  · rw [hik, Bool.eq_false_iff.mpr hc, Bool.false_and]
  · rw [cellBit, getLsbD_shiftLeft, getLsbD_one]
    have hne : k.toNat ≤ i → ¬ i - k.toNat = 0 := by omega
    simpa using fun _ _ => hne

/-- The loop of `check_load_and_stores`, by kind of instruction. -/
theorem loadStoreLoop_cons (pc : Nat) (memvalid : BitVec 16) (masks : Nat → BitVec 16)
    (insn : SockFilter) (filter : List SockFilter) :
    loadStoreLoop pc memvalid masks (insn :: filter) =
      match insn.kind with
      | .store => loadStoreLoop (pc + 1) (memvalid &&& masks pc ||| cellBit insn.k) masks filter
      | .load =>
        if memvalid &&& masks pc &&& cellBit insn.k = 0 then false
        else loadStoreLoop (pc + 1) (memvalid &&& masks pc) masks filter
      | .ja =>
        let target := pc + 1 + insn.k.toNat
        loadStoreLoop (pc + 1) (allOnes 16)
          (update masks target (masks target &&& (memvalid &&& masks pc))) filter
      | .cond =>
        let onTrue := pc + 1 + insn.jt.toNat
        let masks' := update masks onTrue (masks onTrue &&& (memvalid &&& masks pc))
        let onFalse := pc + 1 + insn.jf.toNat
        loadStoreLoop (pc + 1) (allOnes 16)
          (update masks' onFalse (masks' onFalse &&& (memvalid &&& masks pc))) filter
      | _ => loadStoreLoop (pc + 1) (memvalid &&& masks pc) masks filter := by
  rw [loadStoreLoop, SockFilter.kind]
  cases ofCode insn.code with
  | none => rfl
  | some op => cases op <;> rfl

/-- A jump narrows what its target may promise. -/
theorem sub_update (masks : Nat → BitVec 16) (t : Nat) (v : BitVec 16) :
    (∀ u, Sub (update masks t (masks t &&& v) u) (masks u)) ∧
      Sub (update masks t (masks t &&& v) t) v := by
  constructor
  · intro u
    by_cases hu : u = t
    · subst hu
      rw [update_self]
      exact sub_and_left _ _
    · rw [update_of_ne hu]
      exact fun i hi => hi
  · rw [update_self]
    exact sub_and_right _ _

/-- What the loop has found out about the rest of the program. -/
structure Found (pc : Nat) (memvalid : BitVec 16) (masks : Nat → BitVec 16)
    (filter : List SockFilter) (V : Nat → BitVec 16) : Prop where
  here : Sub (V pc) memvalid
  masks : ∀ t, pc ≤ t → Sub (V t) (masks t)
  flow : ∀ i insn, filter[i]? = some insn → FlowAt V (pc + i) insn

/-- One more instruction in front: what is promised there is `memvalid & masks[pc]`. -/
theorem Found.cons {next : BitVec 16} (h : Found (pc + 1) next masks' filter V)
    (hmasks : ∀ t, Sub (masks' t) (masks t))
    (hload : insn.kind = .load → (memvalid &&& masks pc).getLsbD insn.k.toNat = true)
    (hleads : ∀ t, Leads insn pc t → pc < t ∧ Sub (V t) (insn.out (memvalid &&& masks pc))) :
    ∃ V, Found pc memvalid masks (insn :: filter) V := by
  refine ⟨update V pc (memvalid &&& masks pc), ?_, ?_, ?_⟩
  · rw [update_self]
    exact sub_and_left _ _
  · intro t ht
    by_cases htp : t = pc
    · subst htp
      rw [update_self]
      exact sub_and_right _ _
    · rw [update_of_ne htp]
      exact (h.masks t (by omega)).trans (hmasks t)
  intro i insn' hi
  cases i with
  | zero =>
    obtain rfl : insn = insn' := by simpa using hi
    refine ⟨fun hk => ?_, fun t ht => ?_⟩
    · rw [Nat.add_zero, update_self]
      exact hload hk
    · obtain ⟨hlt, hsub⟩ := hleads t ht
      rw [Nat.add_zero, update_self, update_of_ne (by omega)]
      exact hsub
  | succ i =>
    have hflow := h.flow i insn' (by simpa using hi)
    rw [show pc + 1 + i = pc + (i + 1) by omega] at hflow
    have hne : ∀ t, Leads insn' (pc + (i + 1)) t → t ≠ pc := by
      intro t ht
      unfold Leads at ht
      cases hk : insn'.kind <;> simp only [hk] at ht <;> omega
    refine ⟨fun hk => ?_, fun t ht => ?_⟩
    · rw [update_of_ne (by omega)]
      exact hflow.load hk
    · rw [update_of_ne (hne t ht), update_of_ne (by omega)]
      exact hflow.leads t ht

theorem loadStoreLoop_found (h : loadStoreLoop pc memvalid masks filter = true) :
    ∃ V, Found pc memvalid masks filter V := by
  induction filter generalizing pc memvalid masks with
  | nil => exact ⟨fun _ => 0, fun i hi => by simp at hi, fun t _ i hi => by simp at hi, by simp⟩
  | cons insn filter ih =>
    rw [loadStoreLoop_cons] at h
    have hself : ∀ t, Sub (masks t) (masks t) := fun t i hi => hi
    -- A plain step forward promises what has been written here.
    let valid := memvalid &&& masks pc
    have hstep : ∀ {v V}, Found (pc + 1) v masks filter V → insn.kind ≠ .ja → insn.kind ≠ .cond →
        v = insn.out valid →
        ∀ t, Leads insn pc t → pc < t ∧ Sub (V t) (insn.out valid) := by
      intro v V hV hja hcond hv t ht
      have ht' : t = pc + 1 := by
        unfold Leads at ht
        cases hk : insn.kind <;> simp_all
      subst ht'
      exact ⟨by omega, hv ▸ hV.here⟩
    cases hk : insn.kind with
    | store =>
      simp only [hk] at h
      obtain ⟨V, hV⟩ := ih h
      exact hV.cons hself (by simp [hk])
        (hstep hV (by simp [hk]) (by simp [hk]) (by rw [SockFilter.out, if_pos hk]))
    | load =>
      simp only [hk] at h
      split at h
      · cases h
      next hbit =>
        obtain ⟨V, hV⟩ := ih h
        exact hV.cons hself (fun _ => and_cellBit hbit)
          (hstep hV (by simp [hk]) (by simp [hk]) (by rw [SockFilter.out, if_neg (by simp [hk])]))
    | ja =>
      simp only [hk] at h
      obtain ⟨V, hV⟩ := ih h
      obtain ⟨hle, ht⟩ := sub_update masks (pc + 1 + insn.k.toNat) valid
      refine hV.cons hle (by simp [hk]) fun t hlead => ?_
      obtain rfl : t = pc + 1 + insn.k.toNat := by simpa only [Leads, hk] using hlead
      rw [SockFilter.out, if_neg (by simp [hk])]
      exact ⟨by omega, (hV.masks _ (by omega)).trans ht⟩
    | cond =>
      simp only [hk] at h
      obtain ⟨V, hV⟩ := ih h
      obtain ⟨hle, ht⟩ := sub_update masks (pc + 1 + insn.jt.toNat) valid
      obtain ⟨hle', hf⟩ := sub_update (update masks (pc + 1 + insn.jt.toNat)
        (masks (pc + 1 + insn.jt.toNat) &&& valid)) (pc + 1 + insn.jf.toNat)
        valid
      refine hV.cons (fun u => (hle' u).trans (hle u)) (by simp [hk]) fun t hlead => ?_
      rw [SockFilter.out, if_neg (by simp [hk])]
      simp only [Leads, hk] at hlead
      rcases hlead with rfl | rfl
      · exact ⟨by omega, ((hV.masks _ (by omega)).trans (hle' _)).trans ht⟩
      · exact ⟨by omega, (hV.masks _ (by omega)).trans hf⟩
    | ret | plain =>
      simp only [hk] at h
      obtain ⟨V, hV⟩ := ih h
      exact hV.cons hself (by simp [hk])
        (hstep hV (by simp [hk]) (by simp [hk]) (by rw [SockFilter.out, if_neg (by simp [hk])]))

/-! ### The other checks -/

/-- The cell and the targets of the instruction at `pc` are in range. -/
structure InsnOk (flen pc : Nat) (insn : SockFilter) : Prop where
  cell : insn.kind = .load ∨ insn.kind = .store → insn.k.toNat < BPF_MEMWORDS
  ja : insn.kind = .ja → pc + 1 + insn.k.toNat < flen
  cond : insn.kind = .cond → pc + 1 + insn.jt.toNat < flen ∧ pc + 1 + insn.jf.toNat < flen

theorem InsnOk.of_plain (h : insn.kind = .plain ∨ insn.kind = .ret) : InsnOk flen pc insn := by
  rcases h with h | h
  · exact ⟨by simp [h], by simp [h], by simp [h]⟩
  · exact ⟨by simp [h], by simp [h], by simp [h]⟩

theorem ancillary_kind (h : ancillary k = some op) : op.kind = .plain := by
  rw [ancillary] at h
  obtain ⟨l1, l2, heq, -⟩ := lookup_eq_some_iff.mp h
  have hmem : (k.toInt - SKF_AD_OFF, op) ∈ [(0, ancProtocol), (4, .ancPkttype),
      (8, .ancIfindex), (12, .ancNlattr), (16, .ancNlattrNest), (20, .ancMark), (24, .ancQueue),
      (28, .ancHatype), (32, .ancRxhash), (36, .ancCpu)] := by
    rw [heq]
    simp
  simp only [mem_cons, Prod.mk.injEq, not_mem_nil, or_false] at hmem
  rcases hmem with ⟨-, rfl⟩ | ⟨-, rfl⟩ | ⟨-, rfl⟩ | ⟨-, rfl⟩ | ⟨-, rfl⟩ | ⟨-, rfl⟩ | ⟨-, rfl⟩ |
    ⟨-, rfl⟩ | ⟨-, rfl⟩ | ⟨-, rfl⟩ <;> rfl

theorem kind_of_scratch : op.scratch = true ↔ op.kind = .load ∨ op.kind = .store := by
  cases op <;> simp [kind, scratch, conditional]

theorem kind_of_absolute (h : op.absolute = true) : op.kind = .plain := by
  cases op <;> simp [absolute] at h <;> rfl

theorem kind_eq_ja : op.kind = .ja ↔ op = .jmpJa := by
  cases op <;> simp [kind, conditional]

theorem chkInsn_ok (hpc : pc < flen) (h : chkInsn flen pc ftest = some ftest')
    : InsnOk flen pc ftest' := by
  obtain ⟨code, -, h⟩ := bind_eq_some_iff.mp h
  split at h
  next hdiv =>
    obtain ⟨-, ⟨⟩⟩ := ite_none_left_eq_some.mp h
    exact InsnOk.of_plain (.inl (by rw [kind_toCode, hdiv]; rfl))
  split at h
  next hscratch =>
    obtain ⟨hk, ⟨⟩⟩ := ite_none_left_eq_some.mp h
    have hkind := kind_toCode code ftest.jt ftest.jf ftest.k
    refine ⟨fun _ => Nat.not_le.mp hk, ?_, ?_⟩
    all_goals
      intro hja
      rcases kind_of_scratch.mp hscratch with hc | hc <;> simp [hkind, hc] at hja
  next hscratch =>
  split at h
  next hja =>
    obtain ⟨hk, ⟨⟩⟩ := ite_none_left_eq_some.mp h
    have hkind : SockFilter.kind ⟨code.toCode, ftest.jt, ftest.jf, ftest.k⟩ = .ja := by
      rw [kind_toCode, hja]
      rfl
    exact ⟨by simp [hkind], fun _ => by dsimp only; omega, by simp [hkind]⟩
  next hja =>
  split at h
  next hcond =>
    obtain ⟨hk, ⟨⟩⟩ := ite_none_left_eq_some.mp h
    have hkind : SockFilter.kind ⟨code.toCode, ftest.jt, ftest.jf, ftest.k⟩ = .cond := by
      rw [kind_toCode, conditional_iff.mp hcond]
    exact ⟨by simp [hkind], by simp [hkind], fun _ => by dsimp only; omega⟩
  next hcond =>
  split at h
  next habs =>
    cases h
    refine InsnOk.of_plain (.inl ?_)
    rw [kind_toCode]
    cases hanc : ancillary ftest.k with
    | none => exact kind_of_absolute habs
    | some op => exact ancillary_kind hanc
  next habs =>
    cases h
    refine InsnOk.of_plain ?_
    rw [kind_toCode]
    cases hk : code.kind with
    | store => exact absurd (kind_of_scratch.mpr (.inr hk)) hscratch
    | load => exact absurd (kind_of_scratch.mpr (.inl hk)) hscratch
    | ja => exact absurd (kind_eq_ja.mp hk) hja
    | cond => exact absurd (conditional_iff.mpr hk) hcond
    | ret => exact .inr rfl
    | plain => exact .inl rfl

theorem chkLoop_ok
    (hlen : pc + filter.length ≤ flen) (h : chkLoop flen pc filter = some filter') :
    filter'.length = filter.length ∧
      ∀ i insn, filter'[i]? = some insn → InsnOk flen (pc + i) insn := by
  induction filter generalizing pc filter' with
  | nil =>
    cases h
    exact ⟨rfl, by simp⟩
  | cons ftest filter ih =>
    obtain ⟨ftest', hf, h⟩ := bind_eq_some_iff.mp h
    obtain ⟨rest, hrest, h⟩ := bind_eq_some_iff.mp h
    cases h
    rw [length_cons] at hlen
    obtain ⟨hl, hok⟩ := ih (by omega) hrest
    refine ⟨by simp [hl], fun i insn hi => ?_⟩
    cases i with
    | zero =>
      obtain rfl : ftest' = insn := by simpa using hi
      exact chkInsn_ok (by omega) hf
    | succ i =>
      rw [show pc + (i + 1) = pc + 1 + i by omega]
      exact hok i insn (by simpa using hi)

/-! ### Whole runs -/

/-- Every cell used is one of the array. -/
def CellsInRange (log : List Access) : Prop := ∀ use ∈ log, use.cell < BPF_MEMWORDS

/-- Every read of a cell comes after a write to it; the log has the last use first. -/
def ReadsWritten (log : List Access) : Prop :=
  ∀ cell later earlier, log = later ++ .read cell :: earlier → .write cell ∈ earlier

theorem ReadsWritten.cons (h : ReadsWritten log)
    (huse : ∀ cell, use = .read cell → .write cell ∈ log) : ReadsWritten (use :: log) := by
  intro cell later earlier heq
  cases later with
  | nil =>
    obtain ⟨rfl, rfl⟩ := cons.inj heq
    exact huse cell rfl
  | cons u later => exact h cell later earlier (cons.inj heq).2

/-- What the checks establish about a program. -/
structure Accepted (filter : List SockFilter) (V : Nat → BitVec 16) : Prop where
  start : Sub (V 0) 0
  flow : ∀ pc insn, filter[pc]? = some insn → FlowAt V pc insn
  ok : ∀ pc insn, filter[pc]? = some insn → InsnOk filter.length pc insn
  last : ∀ insn, filter[filter.length - 1]? = some insn → insn.kind = .ret
  pos : 0 < filter.length

/-- Control stays inside the program and moves forward. -/
theorem Accepted.leads (h : Accepted filter V) (hpc : filter[pc]? = some insn)
    (ht : Leads insn pc t) :
    pc < t ∧ t < filter.length := by
  have hlt : pc < filter.length := (List.getElem?_eq_some_iff.mp hpc).1
  have hok := h.ok pc insn hpc
  have hnext : insn.kind ≠ .ret → pc + 1 < filter.length := by
    intro hret
    by_contra hc
    refine hret (h.last insn ?_)
    rwa [show filter.length - 1 = pc by omega]
  unfold Leads at ht
  cases hk : insn.kind with
  | store => simp only [hk] at ht; have := hnext (by simp [hk]); omega
  | load => simp only [hk] at ht; have := hnext (by simp [hk]); omega
  | plain => simp only [hk] at ht; have := hnext (by simp [hk]); omega
  | ja => simp only [hk] at ht; have := hok.ja hk; omega
  | cond => simp only [hk] at ht; have := hok.cond hk; omega
  | ret => simp only [hk] at ht

theorem mem_access_append (h : (insn.out v).getLsbD i = true)
    (hv : ∀ i, v.getLsbD i = true → .write i ∈ log) :
    .write i ∈ insn.access ++ log := by
  rw [SockFilter.out] at h
  split at h
  next hk =>
    rw [getLsbD_or, Bool.or_eq_true] at h
    rcases h with h | h
    · exact mem_append_right _ (hv i h)
    have hi : i = insn.k.toNat := by
      rw [cellBit, getLsbD_shiftLeft, getLsbD_one] at h
      simp only [Bool.and_eq_true, decide_eq_true_eq, Bool.not_eq_true',
        decide_eq_false_iff_not] at h
      omega
    simp [SockFilter.access, hk, hi]
  next => exact mem_append_right _ (hv i h)

/-- **Two runs of an accepted program** from states that cannot be told apart return the same
value, within as many instructions as are left, with every use of a cell in order. -/
theorem skRunFilter_flow (cpu : Cpu) (skb : SkBuff)
    (h : Accepted filter V) (fuel : Nat) (r r' : Regs) (hagree : Agree r r')
    (hpc : r.pc < filter.length) (hfuel : filter.length - r.pc ≤ fuel)
    (hV : ∀ i, (V r.pc).getLsbD i = true → .write i ∈ r.log) (hcells : CellsInRange r.log)
    (hreads : ReadsWritten r.log) :
    ∃ v log, skRunFilter cpu skb filter fuel r = some (v, log) ∧
      skRunFilter cpu skb filter fuel r' = some (v, log) ∧ CellsInRange log ∧ ReadsWritten log := by
  induction fuel generalizing r r' with
  | zero => omega
  | succ fuel ih =>
    have hget : filter[r.pc]? = some filter[r.pc] := getElem?_eq_getElem hpc
    generalize filter[r.pc] = insn at hget
    have hflow := h.flow r.pc insn hget
    have hload : insn.kind = .load → .write insn.k.toNat ∈ r.log := fun hk => hV _ (hflow.load hk)
    rw [skRunFilter, skRunFilter, hagree.pc, hget, bind_some, bind_some]
    rcases execInsn_alike cpu skb hagree hload with
      ⟨v, hv, hv'⟩ | ⟨s, s', hs, hs', hagree', hlead, hlog⟩
    · rw [hv, hv']
      exact ⟨v, r.log, rfl, by rw [hagree.log], hcells, hreads⟩
    rw [hs, hs']
    obtain ⟨hlt, hin⟩ := h.leads hget hlead
    refine ih s s' hagree' hin (by omega) ?_ ?_ ?_
    · intro i hi
      rw [hlog]
      exact mem_access_append (hflow.leads _ hlead i hi) hV
    · rw [hlog]
      intro use huse
      rcases mem_append.mp huse with huse | huse
      · have hcell := (h.ok r.pc insn hget).cell
        unfold SockFilter.access at huse
        cases hk : insn.kind <;> simp [hk] at huse <;> subst huse
        · exact hcell (.inr hk)
        · exact hcell (.inl hk)
      · exact hcells use huse
    · rw [hlog]
      unfold SockFilter.access
      cases hk : insn.kind with
      | load =>
        refine hreads.cons fun cell hc => ?_
        cases hc
        exact hload hk
      | store => exact hreads.cons nofun
      | ja => exact hreads
      | cond => exact hreads
      | ret => exact hreads
      | plain => exact hreads

theorem checkLoadAndStores_found (h : checkLoadAndStores mem filter = .ok u) :
    ∃ V, Found 0 0 (fun _ => allOnes 16) filter V := by
  rw [checkLoadAndStores] at h
  split at h
  · cases h
  split at h
  next hloop => exact loadStoreLoop_found hloop
  next => cases h

/-- `sk_chk_filter` rewrites the codes, and accepts a program only after all its tests. -/
theorem skChkFilter_accepted (h : skChkFilter mem filter = .ok filter') :
    filter'.length = filter.length ∧ ∃ V, Accepted filter' V := by
  rw [skChkFilter] at h
  split at h
  · cases h
  next hlen =>
  split at h
  · cases h
  next checked hloop =>
  obtain ⟨hl, hok⟩ := chkLoop_ok (by omega) hloop
  have haccept : ∀ op : BpfS, op.kind = .ret →
      (checked.getLast?.bind fun last => ofCode last.code) = some op →
      checkLoadAndStores mem checked = .ok () → ∃ V, Accepted checked V := by
    intro op hret hlast hstores
    obtain ⟨V, hV⟩ := checkLoadAndStores_found hstores
    refine ⟨V, hV.here, fun pc insn hpc => ?_, fun pc insn hpc => ?_,
      fun insn hinsn => ?_, by omega⟩
    · simpa using hV.flow pc insn hpc
    · rw [hl]
      simpa using hok pc insn hpc
    · obtain ⟨last, hlast, hcode⟩ := bind_eq_some_iff.mp hlast
      rw [getLast?_eq_getElem?] at hlast
      obtain rfl : last = insn := some.inj (hlast.symm.trans hinsn)
      rw [SockFilter.kind, hcode]
      exact hret
  cases hstores : checkLoadAndStores mem checked with
  | error e =>
    rw [hstores] at h
    split at h <;> cases h
  | ok u =>
    rw [hstores] at h
    split at h
    next hlast =>
      obtain rfl := Except.ok.inj h
      exact ⟨hl, haccept _ rfl hlast hstores⟩
    next hlast =>
      obtain rfl := Except.ok.inj h
      exact ⟨hl, haccept _ rfl hlast hstores⟩
    next => cases h

theorem agree_start (mem mem' : Nat → BitVec 32) : Agree (Regs.start mem) (Regs.start mem') :=
  ⟨rfl, rfl, rfl, rfl, fun _ hi => absurd hi not_mem_nil⟩

/-- **A program that `sk_chk_filter` accepts is safe to run.** On every machine and for every
packet and every content of the scratch cells it returns after at most as many instructions as
it has, all fetched from the program; it uses scratch cells of the array only and reads none
before it has written it; and nothing about the run depends on what the cells held. -/
theorem skRunFilter_safe (allocated : Bool) (filter filter' : List SockFilter)
    (h : skChkFilter allocated filter = .ok filter') (cpu : Cpu) (skb : SkBuff)
    (mem : Nat → BitVec 32) :
    filter'.length = filter.length ∧
      ∃ v log, skRunFilter cpu skb filter' filter'.length (Regs.start mem) = some (v, log) ∧
        CellsInRange log ∧ ReadsWritten log ∧
        ∀ mem', skRunFilter cpu skb filter' filter'.length (Regs.start mem') = some (v, log) := by
  obtain ⟨hlen, V, hV⟩ := skChkFilter_accepted h
  have hstart : ∀ i, (V 0).getLsbD i = true → Access.write i ∈ ([] : List Access) := by
    intro i hi
    have := hV.start i hi
    simp at this
  have hruns := fun mem' => skRunFilter_flow cpu skb hV filter'.length (Regs.start mem)
    (Regs.start mem') (agree_start mem mem') hV.pos (by simp [Regs.start]) hstart
    (fun use huse => absurd huse not_mem_nil)
    (fun cell later earlier heq => by simp [Regs.start] at heq)
  obtain ⟨v, log, hrun, -, hcells, hreads⟩ := hruns mem
  refine ⟨hlen, v, log, hrun, hcells, hreads, fun mem' => ?_⟩
  obtain ⟨v', log', hrun', hrun'', -⟩ := hruns mem'
  obtain ⟨rfl, rfl⟩ := Prod.mk.inj (some.inj (hrun.symm.trans hrun'))
  exact hrun''

/-- Store the length of the packet, and return it from the cell on both branches. -/
def lengthFilter : List SockFilter :=
  [⟨0x80, 0, 0, 0⟩, ⟨0x02, 0, 0, 5⟩, ⟨0x25, 1, 0, 60⟩, ⟨0x05, 0, 0, 0⟩, ⟨0x61, 0, 0, 5⟩,
    ⟨0x87, 0, 0, 0⟩, ⟨0x16, 0, 0, 0⟩]

/-- A machine and a packet without data. -/
def plainCpu : Cpu where
  bigEndian := false
  id := 0
  lsh := fun _ _ => 0
  rsh := fun _ _ => 0

def emptySkb : SkBuff where
  len := 0
  dataLen := 0
  protocol := 0
  pktType := 0
  dev := none
  mark := 0
  queueMapping := 0
  rxhash := 0
  byte := fun _ => 0
  head := 0
  tail := 0
  networkHeader := 0
  macHeader := 0
  copyBits := fun _ _ => none

theorem skRunFilter_safe_length :
    ∃ filter', skChkFilter true lengthFilter = .ok filter' ∧
      ∃ v log, skRunFilter plainCpu emptySkb filter' filter'.length (Regs.start fun _ => 7) =
          some (v, log) ∧ CellsInRange log ∧ ReadsWritten log ∧
        ∀ mem', skRunFilter plainCpu emptySkb filter' filter'.length (Regs.start mem') =
          some (v, log) := by
  refine ⟨_, rfl, ?_⟩
  exact (skRunFilter_safe true lengthFilter _ rfl plainCpu emptySkb fun _ => 7).2

end SilanKernel.Net
