import RiscvOs.Sbi.Ctrap
import RiscvOs.Semantics.Cpu

/-! `trap.S`, the trap vector of the SBI, around `c_trap_handler`: what a trap to
machine mode does to the registers of the code that it interrupts. -/
namespace Sbi.TrapVector

open Semantics Function Table Svccall Ctrap Cpu

/-- The control registers that the vector reads and writes. -/
inductive Csr where
  | mscratch
  | mhartid
  deriving DecidableEq

/-- Machine mode has no address translation. -/
def bare : Translation Csr :=
  fun _ a => a

/-- The addresses `_stack_end` and `__global_pointer$`. -/
structure Symbols where
  stackEnd : Word
  globalPointer : Word

/-- The instructions of the vector that give the hart its own stack. -/
def ownStack (symbols : Symbols) (c : Cpu Csr) : Cpu Csr :=
  let c := li sp symbols.stackEnd c
  let c := li gp symbols.globalPointer c
  let c := csrr t0 .mhartid c
  let c := slli t0 t0 12 c
  sub sp sp t0 c

/-- `sbi_trap_vector` up to its `mret`, around a call. -/
def sbiTrapVector (symbols : Symbols) (call : Cpu Csr → Cpu Csr) (c : Cpu Csr) : Cpu Csr :=
  let c := saveAll bare .mscratch c
  let c := call (ownStack symbols c)
  let c := csrr t6 .mscratch c
  loadX bare t6 upTo31 c

/-- The stack page of a hart. -/
def stackOf (symbols : Symbols) (hart : Hart) : Word :=
  symbols.stackEnd - BitVec.ofNat 64 (4096 * (hart + 1))

/-- A call of `c_trap_handler` that returns. It leaves any values in the registers
and on its stack, and the rest of memory as the handler has it. -/
structure Returns (b : Tables) (park : Word) (symbols : Symbols) (hart : Hart) (trap : Trap)
    (s : Ctrap.State) (c c' : Cpu Csr) : Prop where
  exit : (cTrapHandler b park hart trap { s with table.mem := c.mem }).1 = .returned
  csr : c'.csr = c.csr
  mem : ∀ a, ¬ InRange (stackOf symbols hart) 4096 a →
    c'.mem a = (cTrapHandler b park hart trap { s with table.mem := c.mem }).2.table.mem a

/-- The frame of a hart in `SBI_GPREGS` shares nothing with the tables and the
stack. -/
structure FrameApart (b : Tables) (symbols : Symbols) (hart : Hart) (frame : Word) : Prop where
  tables : RegistersApart b frame
  stack : Apart (stackOf symbols hart) 4096 frame 256

/-- Only `a0` can differ, and only behind a call that has something to say there. -/
structure Transparent (trap : Trap) (before after : Cpu Csr) : Prop where
  others : ∀ i : Reg, i ≠ 0 → i ≠ xregA0 → after.x i = before.x i
  interrupt : trap.isAsync = true → after.x xregA0 = before.x xregA0
  silent : trap.isAsync = false → returnsValue (service (before.x xregA7)) = false →
    service (before.x xregA7) ≠ .ackTimer → after.x xregA0 = before.x xregA0
  mscratch : after.csr .mscratch = before.csr .mscratch

/-- The registers come from the frame as the handler leaves it, and the rest of memory
is as the handler leaves it but for the stack of the hart. -/
structure Delivers (symbols : Symbols) (hart : Hart) (frame : Word) (handled : Memory)
    (after : Cpu Csr) : Prop where
  regs : ∀ i : Reg, i ≠ 0 → after.x i = reg handled frame i
  mem : ∀ a, ¬ InRange (stackOf symbols hart) 4096 a → after.mem a = handled a

variable {b : Tables} {park frame : Word} {symbols : Symbols} {hart : Hart} {trap : Trap} {s : Ctrap.State}
  {c c' : Cpu Csr} {i : Reg} {m : Memory}

/-! ## The two halves of the vector -/

theorem maps_bare (csr : Csr → Word) (frame : Word) (size : Nat) :
    Maps bare csr frame frame size :=
  fun _ _ => rfl

/-- A hart's stack pointer is at the end of its own page. -/
theorem ownStack_sp (symbols : Symbols) (c : Cpu Csr) :
    (ownStack symbols c).x sp = symbols.stackEnd - c.csr .mhartid <<< 12 :=
  rfl

theorem ownStack_gp (symbols : Symbols) (c : Cpu Csr) :
    (ownStack symbols c).x gp = symbols.globalPointer :=
  rfl

/-- The page of the hart is behind those of the harts with larger numbers. -/
theorem stackEnd_sub (symbols : Symbols) (hart : Hart) :
    symbols.stackEnd - BitVec.ofNat 64 hart <<< 12 = stackOf symbols hart + 4096 := by
  have hShift : BitVec.ofNat 64 (hart : Nat) <<< 12 + 4096 =
      BitVec.ofNat 64 (4096 * (hart + 1)) := by
    revert hart
    decide
  rw [stackOf, ← hShift]
  grind

/-- The state in which the vector calls: the registers are in the frame, and the stack
of the hart is empty. -/
theorem entry (symbols : Symbols) (hScratch : c.csr .mscratch = frame) :
    ∃ x : Reg → Word, x sp = symbols.stackEnd - c.csr .mhartid <<< 12 ∧
      x gp = symbols.globalPointer ∧
      ∀ call, sbiTrapVector symbols call c =
        loadX bare t6 upTo31
          (csrr t6 .mscratch (call { c with x := x, mem := savedX frame c })) := by
  have hSave := saveAll_eq hScratch (fun _ => maps_bare _ frame 256) le_rfl
  refine ⟨(ownStack symbols { c with
    x := update (update (update c.x t6 frame) t5 frame) t6 (c.x t6)
    mem := savedX frame c }).x, ownStack_sp .., ownStack_gp .., fun call => ?_⟩
  rw [sbiTrapVector, hSave]
  rfl

theorem regAddr_eq_slot (frame : Word) (i : Reg) : regAddr frame i = slot frame 0 i := by
  rw [regAddr, slot, Nat.zero_add]

/-- The frame holds the registers when the handler is called. -/
theorem reg_saved (hi : i ≠ 0) : reg (savedX frame c) frame i = c.x i := by
  rw [reg, regAddr_eq_slot]
  exact load64_savedX hi

/-- The registers that the vector leaves are those in the frame. -/
theorem exit_regs (hScratch : c.csr .mscratch = frame) (hi : i ≠ 0) :
    (loadX bare t6 upTo31 (csrr t6 .mscratch c)).x i = reg c.mem frame i := by
  have hT6 : (csrr t6 .mscratch c).x t6 = frame := by
    simp only [csrr, update_self, hScratch]
  have hMaps : Maps bare (csrr t6 .mscratch c).csr ((csrr t6 .mscratch c).x t6) frame 256 := by
    rw [hT6]
    exact maps_bare _ frame 256
  rw [loadX_upTo31 hMaps le_rfl hi, reg, regAddr_eq_slot]
  rfl

/-! ## The handler and the frame -/

/-- A call that returns leaves the saved registers but `a0`, and `a0` too when it
has nothing to say. -/
theorem svccall_regs {mscratch : Word} {hartId : BitVec 32} {answers : Answers} {s : Svccall.State}
    (hApart : RegistersApart b mscratch) (hHart : hartId.toNat < 8)
    (hStart : service (reg s.table.mem mscratch xregA7) = .hartStart →
      ((reg s.table.mem mscratch xregA0).setWidth 32).toNat < 8)
    (hi : i ≠ 0)
    (hKept : i ≠ xregA0 ∨ returnsValue (service (reg s.table.mem mscratch xregA7)) = false ∧
      service (reg s.table.mem mscratch xregA7) ≠ .ackTimer) :
    reg (svccallHandle b park mscratch hartId answers s).2.table.mem mscratch i =
      reg s.table.mem mscratch i := by
  have hSet (m : Memory) (value : Word) (hA0 : i ≠ xregA0) :
      reg (m.store64 (regAddr mscratch xregA0) value) mscratch i = reg m mscratch i :=
    reg_congr (agreeOn_setReg hA0)
  unfold svccallHandle
  cases hService : service (reg s.table.mem mscratch xregA7) with
  | hartStatus =>
      have hA0 : i ≠ xregA0 := hKept.resolve_right (by simp [hService, returnsValue])
      refine (hSet _ _ hA0).trans ?_
      change reg (hartGetStatus b _ s.table).2.mem mscratch i = _
      unfold hartGetStatus
      split
      · rfl
      · rfl
  | hartStart =>
      have hA0 : i ≠ xregA0 := hKept.resolve_right (by simp [hService, returnsValue])
      refine (hSet _ _ hA0).trans ?_
      exact hartStart_regs_iff.mpr (fun _ => startSpares_of_lt hApart (hStart hService)) i hi hA0
  | hartStop =>
      have hA0 : i ≠ xregA0 := hKept.resolve_right (by simp [hService, returnsValue])
      have hRegs := @hartStop_regs b park mscratch hartId s.table hApart hHart
      have hSame : reg (Table.hartStop b park hartId s.table).2.mem mscratch i =
          reg s.table.mem mscratch i := reg_congr fun x hx => hRegs x (inRange_regs hx)
      simp only []
      split
      · exact hSame
      · exact (hSet _ _ hA0).trans hSame
  | getTime | rtcGetTime | whoami | getchar =>
      exact hSet _ _ (hKept.resolve_right (by simp [hService, returnsValue]))
  | ackTimer => exact hSet _ _ (hKept.resolve_right (by simp [hService]))
  | setTimecmp | addTimecmp =>
      simp only []
      unfold clintSetMtimecmp
      split
      · rfl
      · rfl
  | putchar | unknown => rfl

/-- An interrupt that returns leaves the table and the control registers. -/
theorem interrupt_table (hAsync : trap.isAsync = true)
    (hExit : (cTrapHandler b park hart trap s).1 = .returned) :
    (cTrapHandler b park hart trap s).2.table = s.table := by
  unfold cTrapHandler at hExit ⊢
  rw [if_pos hAsync] at hExit ⊢
  split
  next hCause =>
    simp only [hCause] at hExit
    split at hExit
    · cases hExit
    · cases hExit
  next =>
    change (clintSetMtimecmp _ _ _).table = _
    unfold clintSetMtimecmp
    split
    · rfl
    · rfl
  next =>
    change (plicHandleIrq trap.irq s).table = _
    unfold plicHandleIrq
    split
    · rfl
    · rfl
  next => rfl

/-- A synchronous trap that returns is a call. -/
theorem sync_call (hSync : trap.isAsync = false)
    (hExit : (cTrapHandler b park hart trap s).1 = .returned) :
    ∃ char, (cTrapHandler b park hart trap s).2.table.mem =
        (svccallHandle b park trap.mscratch (BitVec.ofNat 32 hart) ⟨trap.time, trap.rtc, char⟩
          s.toState).2.table.mem ∧
      (cTrapHandler b park hart trap s).2.table.csr.mepc = trap.mepc + 4 := by
  refine ⟨(getChar trap s).1, ?_⟩
  unfold cTrapHandler at hExit ⊢
  rw [if_neg (by simp [hSync])] at hExit ⊢
  split
  next hCause =>
    simp only [hCause] at hExit ⊢
    split
    next hMret =>
      rw [if_pos hMret] at hExit
      cases hExit
    next => exact ⟨rfl, rfl⟩
  next hCause =>
    split at hExit
    next hNine => exact absurd hNine hCause
    next => cases hExit

/-! ## Whole traps -/

/-- The stack does not hold the frame. -/
theorem Returns.reg (h : Returns b park symbols hart trap s c c')
    (hApart : FrameApart b symbols hart frame) (i : Reg) :
    Svccall.reg c'.mem frame i =
      Svccall.reg (cTrapHandler b park hart trap { s with table.mem := c.mem }).2.table.mem
        frame i := by
  apply reg_congr
  intro x hx
  exact h.mem x fun hStack => (hApart.stack.symm.not_inRange hStack) (inRange_regs hx)

/-- The vector calls the handler on the stack of the hart, and leaves what the handler
left. -/
theorem delivers (hScratch : c.csr .mscratch = trap.mscratch)
    (hHartId : c.csr .mhartid = BitVec.ofNat 64 hart)
    (hApart : FrameApart b symbols hart trap.mscratch) (call : Cpu Csr → Cpu Csr)
    (hCall : ∀ entered, entered.csr = c.csr → entered.mem = savedX trap.mscratch c →
      entered.x sp = stackOf symbols hart + 4096 → entered.x gp = symbols.globalPointer →
      Returns b park symbols hart trap s entered (call entered)) :
    (cTrapHandler b park hart trap { s with table.mem := savedX trap.mscratch c }).1 = .returned ∧
      Delivers symbols hart trap.mscratch (cTrapHandler b park hart trap
        { s with table.mem := savedX trap.mscratch c }).2.table.mem (sbiTrapVector symbols call c) ∧
      (sbiTrapVector symbols call c).csr = c.csr := by
  obtain ⟨x, hSp, hGp, hEntry⟩ := entry symbols hScratch
  have hReturns := hCall { c with x := x, mem := savedX trap.mscratch c } rfl rfl
    (hSp.trans (hHartId ▸ stackEnd_sub symbols hart)) hGp
  have hScratch' : (call { c with x := x, mem := savedX trap.mscratch c }).csr .mscratch =
      trap.mscratch := by
    rw [hReturns.csr]
    exact hScratch
  refine ⟨hReturns.exit, ⟨fun i hi => ?_, fun a ha => ?_⟩, ?_⟩
  · rw [hEntry, exit_regs hScratch' hi]
    exact hReturns.reg hApart i
  · rw [hEntry, loadX_mem]
    exact hReturns.mem a ha
  · rw [hEntry, loadX_csr]
    exact hReturns.csr

/-- An interrupt restores all that was saved. -/
theorem Delivers.interrupt {after : Cpu Csr} (hAsync : trap.isAsync = true)
    (hExit : (cTrapHandler b park hart trap
      { s with table.mem := savedX trap.mscratch c }).1 = .returned)
    (h : Delivers symbols hart trap.mscratch (cTrapHandler b park hart trap
      { s with table.mem := savedX trap.mscratch c }).2.table.mem after) (hi : i ≠ 0) :
    after.x i = c.x i := by
  have hMem := congrArg (·.mem) (interrupt_table hAsync hExit)
  rw [h.regs i hi]
  refine (congrArg (reg · trap.mscratch i) hMem).trans ?_
  exact reg_saved hi

/-- A call changes no register but `a0`, and `a0` only to answer. -/
theorem Delivers.call {after : Cpu Csr} (hSync : trap.isAsync = false)
    (hApart : RegistersApart b trap.mscratch)
    (hStart : service (c.x xregA7) = .hartStart → ((c.x xregA0).setWidth 32).toNat < 8)
    (hExit : (cTrapHandler b park hart trap
      { s with table.mem := savedX trap.mscratch c }).1 = .returned)
    (h : Delivers symbols hart trap.mscratch (cTrapHandler b park hart trap
      { s with table.mem := savedX trap.mscratch c }).2.table.mem after) (hi : i ≠ 0)
    (hKept : i ≠ xregA0 ∨ returnsValue (service (c.x xregA7)) = false ∧
      service (c.x xregA7) ≠ .ackTimer) : after.x i = c.x i := by
  have hHart : (BitVec.ofNat 32 (hart : Nat)).toNat < 8 := by
    rw [BitVec.toNat_ofNat]
    omega
  have hA7 : reg (savedX trap.mscratch c) trap.mscratch xregA7 = c.x xregA7 := reg_saved (by decide)
  have hA0 : reg (savedX trap.mscratch c) trap.mscratch xregA0 = c.x xregA0 := reg_saved (by decide)
  obtain ⟨char, hMem, -⟩ := sync_call hSync hExit
  rw [h.regs i hi]
  refine (congrArg (reg · trap.mscratch i) hMem).trans ?_
  refine (svccall_regs hApart hHart ?_ hi ?_).trans (reg_saved hi)
  · change service (reg (savedX trap.mscratch c) trap.mscratch xregA7) = _ →
      ((reg (savedX trap.mscratch c) trap.mscratch xregA0).setWidth 32).toNat < 8
    rw [hA7, hA0]
    exact hStart
  · change i ≠ xregA0 ∨ returnsValue (service (reg (savedX trap.mscratch c) trap.mscratch xregA7)) =
      false ∧ service (reg (savedX trap.mscratch c) trap.mscratch xregA7) ≠ .ackTimer
    rw [hA7]
    exact hKept

/-- A trap to the SBI that returns changes no register of the code that it
interrupts but `a0`, and that only to answer a call; it goes on where an interrupt
happened, or behind the call. What the handler did to the frame and to memory is what
the code finds. -/
theorem transparent (hScratch : c.csr .mscratch = trap.mscratch)
    (hHartId : c.csr .mhartid = BitVec.ofNat 64 hart)
    (hApart : FrameApart b symbols hart trap.mscratch)
    (hStart : trap.isAsync = false → service (c.x xregA7) = .hartStart →
      ((c.x xregA0).setWidth 32).toNat < 8)
    (call : Cpu Csr → Cpu Csr)
    (hCall : ∀ entered, entered.csr = c.csr → entered.mem = savedX trap.mscratch c →
      entered.x sp = stackOf symbols hart + 4096 → entered.x gp = symbols.globalPointer →
      Returns b park symbols hart trap s entered (call entered)) :
    let handled := (cTrapHandler b park hart trap
      { s with table.mem := savedX trap.mscratch c }).2.table
    Transparent trap c (sbiTrapVector symbols call c) ∧
      Delivers symbols hart trap.mscratch handled.mem (sbiTrapVector symbols call c) ∧
      handled.csr.mepc = if trap.isAsync then s.table.csr.mepc else trap.mepc + 4 := by
  obtain ⟨hExit, hDelivers, hCsr⟩ := delivers hScratch hHartId hApart call hCall
  refine ⟨⟨fun i hi hNot => ?_, fun hAsync => ?_, fun hSync hSilent hAck => ?_, ?_⟩, hDelivers, ?_⟩
  · cases hAsync : trap.isAsync with
    | true => exact hDelivers.interrupt hAsync hExit hi
    | false => exact hDelivers.call hAsync hApart.tables (hStart hAsync) hExit hi (.inl hNot)
  · exact hDelivers.interrupt hAsync hExit (by decide)
  · exact hDelivers.call hSync hApart.tables (hStart hSync) hExit (by decide)
      (.inr ⟨hSilent, hAck⟩)
  · rw [hCsr]
  · cases hAsync : trap.isAsync with
    | true => exact congrArg (·.csr.mepc) (interrupt_table hAsync hExit)
    | false =>
        obtain ⟨-, -, hMepc⟩ := sync_call hAsync hExit
        exact hMepc

/-- Hart 0 asks for its number, with the numbers of the other registers in them. -/
def whoamiTrap : Trap where
  mcause := 9
  mepc := 0x80050010
  mscratch := 0x80004000
  time := 0
  rtc := 0
  irq := 0

def whoamiCpu : Cpu Csr where
  x i := if i = xregA7 then 9 else BitVec.ofNat 64 i
  f _ := 0
  csr
    | .mscratch => 0x80004000
    | .mhartid => 0
  mem _ := 0

def whoamiState : Ctrap.State where
  toState := callOf 9
  received := []
  ring := ⟨fun _ => 0, 0, 0⟩
  completed := []

/-- The handler with no stack. -/
def whoamiCall (entered : Cpu Csr) : Cpu Csr :=
  { entered with
    mem := (cTrapHandler bootTables 0x80000100 0 whoamiTrap
      { whoamiState with table.mem := entered.mem }).2.table.mem }

example :
    let after := sbiTrapVector ⟨0x80010000, 0x80003000⟩ whoamiCall whoamiCpu
    let handled := (cTrapHandler bootTables 0x80000100 0 whoamiTrap
      { whoamiState with table.mem := savedX whoamiTrap.mscratch whoamiCpu }).2.table
    Transparent whoamiTrap whoamiCpu after ∧
      Delivers ⟨0x80010000, 0x80003000⟩ 0 whoamiTrap.mscratch handled.mem after ∧
      handled.csr.mepc = whoamiTrap.mepc + 4 := by
  have hStack : Apart (stackOf ⟨0x80010000, 0x80003000⟩ 0) 4096 whoamiTrap.mscratch 256 := by
    unfold Apart
    decide
  have hAsync : whoamiTrap.isAsync = false := by decide
  have hCause : whoamiTrap.cause = 9 := by decide
  refine (@transparent bootTables 0x80000100 ⟨0x80010000, 0x80003000⟩ 0 whoamiTrap whoamiState
    whoamiCpu rfl rfl ⟨registersApart_boot, hStack⟩ (fun _ hService => ?_) whoamiCall
    fun entered hCsr hMem _ _ => ?_)
  · exact absurd hService (by decide)
  · refine ⟨?_, rfl, fun _ _ => rfl⟩
    have hService : service (reg entered.mem whoamiTrap.mscratch xregA7) = .whoami := by
      rw [hMem, reg_saved (by decide)]
      rfl
    simp [cTrapHandler, hAsync, hCause, svccallHandle, hService]

end Sbi.TrapVector
