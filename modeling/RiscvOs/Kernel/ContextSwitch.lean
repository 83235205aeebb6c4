import RiscvOs.Semantics.Cpu

/-! `spawn.S`: the trap vector of the kernel, the trap vector of processes, and the
code that enters a process from its frame. -/
namespace Kernel.ContextSwitch

open Semantics Function Cpu

/-- The control registers that `spawn.S` names. -/
inductive Csr where
  | sscratch
  | sstatus
  | sepc
  | sie
  | satp
  | stvec
  deriving DecidableEq

/-- `FP_BASE` -/
def fpBase : Nat := 32 * 8

/-- `f0` to `f31` -/
def allF : List Reg :=
  List.finRange 32

/-- The field `FS` of `sstatus`, in `t0`, `t4` or `t5`. -/
def fieldFs (rd rs : Reg) (c : Cpu Csr) : Cpu Csr :=
  andi rd rd 3 (srli rd rs 13 c)

variable (phys : Translation Csr)

/-- `asm_trap_vector` up to its call. -/
def asmTrapEnter (c : Cpu Csr) : Cpu Csr :=
  let c := saveAll phys .sscratch c
  let c := fieldFs t0 t0 (csrr t0 .sstatus c)
  if c.x t0 = 0 then c else saveF phys fpBase t5 allF c

/-- `asm_trap_vector` behind its call, up to its `sret`. -/
def asmTrapLeave (c : Cpu Csr) : Cpu Csr :=
  let c := csrr t6 .sscratch c
  let c := fieldFs t0 t0 (csrr t0 .sstatus c)
  let c := li t1 2 c
  let c := if (c.x t0).slt (c.x t1) then c else loadF phys fpBase t6 allF c
  loadX phys t6 upTo31 c

def asmTrapVector (call : Cpu Csr → Cpu Csr) (c : Cpu Csr) : Cpu Csr :=
  asmTrapLeave phys (call (asmTrapEnter phys c))

/-- `_spawn_trap` up to its first branch. -/
def spawnTrapSave (c : Cpu Csr) : Cpu Csr :=
  srli t6 t6 13 (csrr t6 .sstatus (saveAll phys .sscratch c))

/-- `_spawn_trap` from its first branch up to its call. -/
def spawnTrapEnter (c : Cpu Csr) : Cpu Csr :=
  let c := csrr t6 .sscratch c
  let c := saveF phys fpBase t6 allF c
  let c := ld phys t5 560 t6 c
  let c := ld phys sp 568 t6 c
  csrw .satp t5 c

/-- `_spawn_trap` behind its call, up to its `sret`. -/
def spawnTrapLeave (c : Cpu Csr) : Cpu Csr :=
  let c := csrr t6 .sscratch c
  let c := ld phys t5 536 t6 c
  let c := csrw .satp t5 c
  let c := fieldFs t5 t5 (csrr t5 .sstatus c)
  let c := if c.x t5 = 0 then c else loadF phys fpBase t6 allF c
  loadX phys t6 upTo31 c

/-- `_spawn_trap`. Its first branch goes to the loads at its end, past the call. -/
def spawnTrap (call : Cpu Csr → Cpu Csr) (c : Cpu Csr) : Cpu Csr :=
  let c := spawnTrapSave phys c
  if c.x t6 = 0 then loadX phys t6 upTo31 c
  else spawnTrapLeave phys (call (spawnTrapEnter phys c))

/-- `_spawn_kthread` up to its `sret`. -/
def spawnKthread (c : Cpu Csr) : Cpu Csr :=
  let c := csrr t6 .sscratch c
  let c := csrw .sepc t0 (ld phys t0 512 t6 c)
  let c := csrw .sstatus t4 (ld phys t4 520 t6 c)
  let c := csrw .sie t0 (ld phys t0 528 t6 c)
  let c := csrw .stvec t0 (ld phys t0 552 t6 c)
  let c := ld phys t1 536 t6 c
  let c := csrw .sscratch t6 (ld phys t6 544 t6 c)
  let c := csrw .satp t1 c
  let c := fieldFs t4 t4 c
  let c := if c.x t4 = 0 then c else loadF phys fpBase t6 allF c
  loadX phys t6 upTo31 c

/-! ## Frames -/

/-- A field of the frame behind the registers. -/
def field (m : Memory) (frame : Word) (offset : Nat) : Word :=
  m.load64 (frame + BitVec.ofNat 64 offset)

/-- `FS` of a value of `sstatus`. -/
def fs (sstatus : Word) : Word :=
  (sstatus >>> 13) &&& 3

/-- Memory with all registers in a frame. -/
def savedAll (frame : Word) (c : Cpu Csr) : Memory :=
  storeSlots frame fpBase c.f allF (savedX frame c)

/-- The frame is at its own address, under every value of `satp` in the list. -/
def FrameMapped (frame : Word) (satps : List Word) : Prop :=
  ∀ csr : Csr → Word, csr .satp ∈ satps → Maps phys csr frame frame 576

variable {phys} {frame : Word} {c : Cpu Csr} {satps : List Word} {i : Reg}

theorem mem_allF (i : Reg) : i ∈ allF :=
  List.mem_finRange i

theorem load64_savedAll_x (hi : i ≠ 0) : (savedAll frame c).load64 (slot frame 0 i) = c.x i := by
  rw [savedAll, load64_storeSlots_apart fun j _ => ?_]
  · exact load64_savedX hi
  · exact (slot_apart_groups (by decide) (by decide)).symm

theorem load64_savedAll_f (i : Reg) :
    (savedAll frame c).load64 (slot frame fpBase i) = c.f i :=
  load64_storeSlots (by decide) (mem_allF i)

/-- A register in its slot is in the first 512 bytes of the frame. -/
theorem load64_slot_congr {m m' : Memory} (h : ∀ a, InRange frame 512 a → m' a = m a) {offset : Nat}
    (hOffset : offset + 256 ≤ 512) : m'.load64 (slot frame offset i) = m.load64 (slot frame offset i) :=
  Memory.load64_congr fun _ hx => h _ (hx.part (by omega) (by decide))

theorem savedAll_outside {a : Word} (h : ¬ InRange frame 512 a) : savedAll frame c a = c.mem a := by
  rw [savedAll, storeSlots_outside (by decide) (by decide) h]
  exact savedX_outside (by decide) (by decide) h

/-- The registers do not reach the fields behind them. -/
theorem field_savedAll {offset : Nat} (h : 512 ≤ offset) (hLt : offset + 8 ≤ 2 ^ 63) :
    field (savedAll frame c) frame offset = field c.mem frame offset := by
  apply Memory.load64_congr
  intro x hx
  apply savedAll_outside
  intro hIn
  have hDistance := hx.distance (by omega)
  unfold InRange at hIn
  omega

theorem FrameMapped.mono {satps' : List Word} (h : FrameMapped phys frame satps)
    (hSub : satps' ⊆ satps) : FrameMapped phys frame satps' :=
  fun csr hSatp => h csr (hSub hSatp)

theorem FrameMapped.maps (h : FrameMapped phys frame satps) {csr : Csr → Word}
    (hSatp : csr .satp ∈ satps) {size : Nat} (hSize : size ≤ 576) : Maps phys csr frame frame size :=
  fun k hk => h csr hSatp k (by omega)

theorem ld_field (h : FrameMapped phys frame satps) {rd : Reg} {offset : Nat} (hT6 : c.x t6 = frame)
    (hSatp : c.csr .satp ∈ satps) (hOffset : offset < 576) :
    ld phys rd offset t6 c = li rd (field c.mem frame offset) c := by
  rw [ld, hT6, h _ hSatp _ hOffset, field]

/-- The loads of all registers from the frame. -/
theorem loadX_frame (h : FrameMapped phys frame satps) (hT6 : c.x t6 = frame)
    (hSatp : c.csr .satp ∈ satps) :
    loadX phys t6 upTo31 c =
      { c with x := fun i => if i = 0 then c.x 0 else c.mem.load64 (slot frame 0 i) } := by
  have hMaps : Maps phys c.csr (c.x t6) frame 256 := hT6 ▸ h.maps hSatp (by decide)
  rw [upTo31, loadX_append_base hMaps le_rfl t6_not_mem]
  congr 1
  funext i
  by_cases hi : i = 0
  · rw [if_pos hi, hi]
    exact if_neg fun hMem => (mem_upTo31 0).mp hMem rfl
  · rw [if_neg hi]
    exact if_pos ((mem_upTo31 i).mpr hi)

theorem loadF_frame (h : FrameMapped phys frame satps) (hT6 : c.x t6 = frame)
    (hSatp : c.csr .satp ∈ satps) :
    loadF phys fpBase t6 allF c =
      { c with f := fun i => c.mem.load64 (slot frame fpBase i) } := by
  have hMaps : Maps phys c.csr (c.x t6) frame 512 := hT6 ▸ h.maps hSatp (by decide)
  rw [loadF_eq hMaps (by decide)]
  simp only [mem_allF, ↓reduceIte]

theorem saveF_frame (h : FrameMapped phys frame satps) {base : Reg} (hBase : c.x base = frame)
    (hSatp : c.csr .satp ∈ satps) :
    saveF phys fpBase base allF c = { c with mem := storeSlots frame fpBase c.f allF c.mem } := by
  have hMaps : Maps phys c.csr (c.x base) frame 512 := hBase ▸ h.maps hSatp (by decide)
  exact saveF_eq hMaps (by decide)

/-- What all code that leaves by a frame ends in. -/
theorem restore (h : FrameMapped phys frame satps) (hT6 : c.x t6 = frame)
    (hSatp : c.csr .satp ∈ satps) (keep : Prop) [Decidable keep] :
    loadX phys t6 upTo31 (if keep then c else loadF phys fpBase t6 allF c) =
      { c with
        x := fun i => if i = 0 then c.x 0 else c.mem.load64 (slot frame 0 i)
        f := if keep then c.f else fun i => c.mem.load64 (slot frame fpBase i) } := by
  rw [loadF_frame h hT6 hSatp]
  split
  · exact loadX_frame h hT6 hSatp
  · exact @loadX_frame phys frame _ satps h hT6 hSatp

/-- What the code that enters a process takes from its frame. -/
def fromFrame (frame : Word) (c : Cpu Csr) : Csr → Word
  | .sscratch => frame
  | .sstatus => field c.mem frame 520
  | .sepc => field c.mem frame 512
  | .sie => field c.mem frame 528
  | .satp => field c.mem frame 536
  | .stvec => field c.mem frame 552

theorem csrw_field (h : FrameMapped phys frame satps) {rd : Reg} {csr : Csr} {offset : Nat}
    (hT6 : c.x t6 = frame) (hSatp : c.csr .satp ∈ satps) (hOffset : offset < 576) :
    csrw csr rd (ld phys rd offset t6 c) =
      { c with
        x := update c.x rd (field c.mem frame offset)
        csr := update c.csr csr (field c.mem frame offset) } := by
  simp only [ld_field h hT6 hSatp hOffset, csrw, li, update_self]

theorem spawnKthread_eq (hScratch : c.csr .sscratch = frame)
    (hFrame : field c.mem frame 544 = frame)
    (hMapped : FrameMapped phys frame [c.csr .satp, field c.mem frame 536]) :
    spawnKthread phys c =
      { x := fun i => if i = 0 then c.x 0 else c.mem.load64 (slot frame 0 i)
        f := if fs (field c.mem frame 520) = 0 then c.f
          else fun i => c.mem.load64 (slot frame fpBase i)
        csr := fromFrame frame c
        mem := c.mem } := by
  unfold spawnKthread
  simp (disch := simp [update, t0, t1, t4, t6]) only [csrr, hScratch, csrw_field hMapped]
  simp (disch := simp [li, update, t0, t1, t4, t6]) only [ld_field hMapped]
  simp only [li, csrw, fieldFs, srli, andi, hFrame, update_self]
  rw [restore hMapped (by simp [update, t4, t6]) (by simp [update, t1, t6])]
  congr 1
  funext csr
  cases csr <;> simp [fromFrame, update, t1, t6]

/-! ## The trap vectors -/

theorem saveAll_frame (h : FrameMapped phys frame satps) (hScratch : c.csr .sscratch = frame)
    (hSatp : c.csr .satp ∈ satps) :
    saveAll phys .sscratch c =
      { c with
        x := update (update (update c.x t6 frame) t5 frame) t6 (c.x t6)
        mem := savedX frame c } :=
  saveAll_eq hScratch (fun value => @FrameMapped.maps phys frame satps h
    (update c.csr .sscratch value) hSatp 256 (by decide)) le_rfl

theorem asmTrapEnter_eq (hScratch : c.csr .sscratch = frame)
    (hMapped : FrameMapped phys frame [c.csr .satp]) :
    (asmTrapEnter phys c).csr = c.csr ∧ (asmTrapEnter phys c).mem =
      if fs (c.csr .sstatus) = 0 then savedX frame c else savedAll frame c := by
  unfold asmTrapEnter
  rw [saveAll_frame hMapped hScratch (by simp)]
  simp (disch := simp [update, t0, t5, t6]) only [csrr, fieldFs, srli, andi, li, saveF_frame hMapped]
  simp only [update_self]
  split
  next hOff => exact ⟨rfl, (if_pos hOff).symm⟩
  next hOn => exact ⟨rfl, (if_neg hOn).symm⟩

theorem asmTrapLeave_eq (hScratch : c.csr .sscratch = frame)
    (hMapped : FrameMapped phys frame [c.csr .satp]) :
    asmTrapLeave phys c =
      { c with
        x := fun i => if i = 0 then c.x 0 else c.mem.load64 (slot frame 0 i)
        f := if (fs (c.csr .sstatus)).slt 2 then c.f
          else fun i => c.mem.load64 (slot frame fpBase i) } := by
  unfold asmTrapLeave
  simp only [csrr, fieldFs, srli, andi, li, hScratch]
  rw [restore hMapped (by simp [update, t0, t1, t6]) (by simp)]
  congr 1

/-- What both vectors need of a call: the frame is where it was, and has the
registers that are in it. -/
structure Keeps (frame : Word) (entered left : Cpu Csr) : Prop where
  scratch : left.csr .sscratch = entered.csr .sscratch
  regs : ∀ a, InRange frame 512 a → left.mem a = entered.mem a

/-- A trap in the kernel leaves its code all registers, and the floating-point ones
too unless the call switched them off or to their initial state. -/
theorem asmTrapVector_transparent (hScratch : c.csr .sscratch = frame)
    (call : Cpu Csr → Cpu Csr)
    (hKeeps : Keeps frame (asmTrapEnter phys c) (call (asmTrapEnter phys c)))
    (hMapped : FrameMapped phys frame [c.csr .satp, (call (asmTrapEnter phys c)).csr .satp])
    (hFloat : fs (c.csr .sstatus) = 0 → (fs ((call (asmTrapEnter phys c)).csr .sstatus)).slt 2 = true) :
    let left := call (asmTrapEnter phys c)
    (∀ i, i ≠ 0 → (asmTrapVector phys call c).x i = c.x i) ∧
      (asmTrapVector phys call c).f =
        (if (fs (left.csr .sstatus)).slt 2 then left.f else c.f) ∧
      (asmTrapVector phys call c).csr = left.csr ∧ (asmTrapVector phys call c).mem = left.mem := by
  intro left
  obtain ⟨hCsr, hMem⟩ := @asmTrapEnter_eq phys frame c hScratch
    (hMapped.mono (by simp))
  have hScratch' : left.csr .sscratch = frame := by
    rw [hKeeps.scratch, hCsr, hScratch]
  have hX (i : Reg) (hi : i ≠ 0) : (asmTrapEnter phys c).mem.load64 (slot frame 0 i) = c.x i := by
    rw [hMem]
    split
    · exact load64_savedX hi
    · exact load64_savedAll_x hi
  have hLeave : asmTrapVector phys call c = _ := @asmTrapLeave_eq phys frame left hScratch'
    (hMapped.mono (by simp [left]))
  rw [hLeave]
  refine ⟨fun i hi => ?_, ?_, rfl, rfl⟩
  · exact (if_neg hi).trans ((load64_slot_congr hKeeps.regs (by decide)).trans (hX i hi))
  · change (if (fs (left.csr .sstatus)).slt 2 then left.f else _) = _
    split
    next => rfl
    next hOn =>
      have hSaved : fs (c.csr .sstatus) ≠ 0 := fun hOff => hOn (hFloat hOff)
      funext i
      rw [load64_slot_congr hKeeps.regs (by decide), hMem, if_neg hSaved]
      exact load64_savedAll_f i

/-- The state in which the vector of processes calls the handler. -/
def spawnTrapEntered (phys : Translation Csr) (c : Cpu Csr) : Cpu Csr :=
  spawnTrapEnter phys (spawnTrapSave phys c)

/-- The call is on the stack and in the address space of the kernel, with all
registers of the process in its frame. -/
structure Entered (frame : Word) (c entered : Cpu Csr) : Prop where
  csr : entered.csr = update c.csr .satp (field c.mem frame 560)
  stack : entered.x sp = field c.mem frame 568
  mem : entered.mem = savedAll frame c

theorem spawnTrapSave_eq (hScratch : c.csr .sscratch = frame)
    (hMapped : FrameMapped phys frame [c.csr .satp]) :
    spawnTrapSave phys c =
      { c with
        x := update (update (update c.x t6 frame) t5 frame) t6 (c.csr .sstatus >>> 13)
        mem := savedX frame c } := by
  unfold spawnTrapSave
  rw [saveAll_frame hMapped hScratch (by simp)]
  simp only [csrr, srli, li, update_self, update_idem]

theorem spawnTrapEntered_entered (hScratch : c.csr .sscratch = frame)
    (hMapped : FrameMapped phys frame [c.csr .satp]) :
    Entered frame c (spawnTrapEntered phys c) := by
  unfold spawnTrapEntered spawnTrapEnter
  rw [spawnTrapSave_eq hScratch hMapped]
  simp (disch := simp [li, update, sp, t5, t6]) only [csrr, hScratch, saveF_frame hMapped,
    ld_field hMapped]
  have hSaved : storeSlots frame fpBase c.f allF (savedX frame c) = savedAll frame c := rfl
  simp only [li, csrw]
  rw [hSaved, field_savedAll (by decide) (by decide), field_savedAll (by decide) (by decide)]
  exact ⟨by simp [update, sp, t5], by simp, rfl⟩

theorem spawnTrap_eq (hScratch : c.csr .sscratch = frame)
    (hMapped : FrameMapped phys frame [c.csr .satp]) (hFs : c.csr .sstatus >>> 13 ≠ 0)
    (call : Cpu Csr → Cpu Csr) :
    spawnTrap phys call c = spawnTrapLeave phys (call (spawnTrapEntered phys c)) := by
  have hT6 : (spawnTrapSave phys c).x t6 ≠ 0 := by
    rw [spawnTrapSave_eq hScratch hMapped]
    simpa using hFs
  exact if_neg hT6

theorem spawnTrapLeave_eq (hScratch : c.csr .sscratch = frame)
    (hMapped : FrameMapped phys frame [c.csr .satp, field c.mem frame 536]) :
    spawnTrapLeave phys c =
      { c with
        x := fun i => if i = 0 then c.x 0 else c.mem.load64 (slot frame 0 i)
        f := if fs (c.csr .sstatus) = 0 then c.f else fun i => c.mem.load64 (slot frame fpBase i)
        csr := update c.csr .satp (field c.mem frame 536) } := by
  unfold spawnTrapLeave
  simp (disch := simp [update, t5, t6]) only [csrr, hScratch, csrw_field hMapped]
  simp only [li, fieldFs, srli, andi, update_self]
  rw [restore hMapped (by simp [update, t5, t6]) (by simp)]
  congr 1

/-- A trap of a process that the handler returns from: the call is in the kernel's
address space, and behind it the process has its registers and its own space again. -/
theorem spawnTrap_transparent (hScratch : c.csr .sscratch = frame)
    (hFs : c.csr .sstatus >>> 13 ≠ 0) (call : Cpu Csr → Cpu Csr)
    (hKeeps : Keeps frame (spawnTrapEntered phys c) (call (spawnTrapEntered phys c)))
    (hSatp : field (call (spawnTrapEntered phys c)).mem frame 536 = c.csr .satp)
    (hMapped : FrameMapped phys frame [c.csr .satp, (call (spawnTrapEntered phys c)).csr .satp]) :
    let left := call (spawnTrapEntered phys c)
    Entered frame c (spawnTrapEntered phys c) ∧
      (∀ i, i ≠ 0 → (spawnTrap phys call c).x i = c.x i) ∧
      (spawnTrap phys call c).f = (if fs (left.csr .sstatus) = 0 then left.f else c.f) ∧
      (spawnTrap phys call c).csr = update left.csr .satp (c.csr .satp) ∧
      (spawnTrap phys call c).mem = left.mem := by
  intro left
  have hHere : FrameMapped phys frame [c.csr .satp] := hMapped.mono (by simp)
  have hEntered := spawnTrapEntered_entered hScratch hHere
  have hScratch' : left.csr .sscratch = frame := by
    rw [hKeeps.scratch, hEntered.csr, update_of_ne (by decide), hScratch]
  have hLeave := @spawnTrapLeave_eq phys frame left hScratch' (by
    rw [hSatp]
    exact hMapped.mono (by simp [left]))
  rw [spawnTrap_eq hScratch hHere hFs, hLeave]
  refine ⟨hEntered, fun i hi => ?_, ?_, congrArg (update left.csr .satp) hSatp, rfl⟩
  · refine (if_neg hi).trans ((load64_slot_congr hKeeps.regs (by decide)).trans ?_)
    rw [hEntered.mem]
    exact load64_savedAll_x hi
  · change (if fs (left.csr .sstatus) = 0 then left.f else _) = _
    congr 1
    funext i
    rw [load64_slot_congr hKeeps.regs (by decide), hEntered.mem]
    exact load64_savedAll_f i

/-- A process that is switched away from in a trap, and entered again from its
frame, on any hart, has all its registers; control registers come from the fields. -/
theorem resumed (hScratch : c.csr .sscratch = frame)
    (hMapped : FrameMapped phys frame [c.csr .satp]) (hFs : c.csr .sstatus >>> 13 ≠ 0)
    {c' : Cpu Csr} (hScratch' : c'.csr .sscratch = frame)
    (hRegs : ∀ a, InRange frame 512 a → c'.mem a = (spawnTrapEntered phys c).mem a)
    (hFrame : field c'.mem frame 544 = frame)
    (hMapped' : FrameMapped phys frame [c'.csr .satp, field c'.mem frame 536]) :
    (∀ call, spawnTrap phys call c = spawnTrapLeave phys (call (spawnTrapEntered phys c))) ∧
      (∀ i, i ≠ 0 → (spawnKthread phys c').x i = c.x i) ∧
      (spawnKthread phys c').f = (if fs (field c'.mem frame 520) = 0 then c'.f else c.f) ∧
      (spawnKthread phys c').csr = fromFrame frame c' ∧ (spawnKthread phys c').mem = c'.mem := by
  have hEntered := spawnTrapEntered_entered hScratch hMapped
  rw [spawnKthread_eq hScratch' hFrame hMapped']
  refine ⟨spawnTrap_eq hScratch hMapped hFs, fun i hi => ?_, ?_, rfl, rfl⟩
  · refine (if_neg hi).trans ((load64_slot_congr hRegs (by decide)).trans ?_)
    rw [hEntered.mem]
    exact load64_savedAll_x hi
  · change (if fs (field c'.mem frame 520) = 0 then c'.f else _) = _
    congr 1
    funext i
    rw [load64_slot_congr hRegs (by decide), hEntered.mem]
    exact load64_savedAll_f i

/-- A process of the kernel with the number of each register in it, under an identity
map. -/
def processFrame : Word := 0x80200000

def processCpu : Cpu Csr where
  x i := BitVec.ofNat 64 i
  f i := BitVec.ofNat 64 (i + 32)
  csr
    | .sscratch => processFrame
    | .sstatus => 0x200006100
    | .satp => 0x8000100000080300
    | _ => 0
  mem := ((Memory.store64 (fun _ => 0) (processFrame + 520) 0x200006100).store64 (processFrame + 536)
    0x8000100000080300).store64 (processFrame + 544) processFrame

theorem processMapped (satps : List Word) : FrameMapped (fun _ a => a) processFrame satps :=
  fun _ _ _ _ => rfl

theorem processSatp : field processCpu.mem processFrame 536 = processCpu.csr .satp := by
  have hApart : Apart (processFrame + 544) 8 (processFrame + 536) 8 := by
    unfold Apart
    decide
  exact (Memory.load64_store64_apart _ _ hApart).trans (Memory.load64_store64 ..)

example :
    (asmTrapVector (fun _ a => a) id processCpu).f = processCpu.f :=
  (@asmTrapVector_transparent (fun _ a => a) processFrame processCpu rfl id ⟨rfl, fun _ _ => rfl⟩
    (processMapped _) (fun hOff => absurd hOff (by decide))).2.1.trans (ite_self _)

example :
    (spawnTrap (fun _ a => a) id processCpu).x 17 = 17 := by
  have hEntered := @spawnTrapEntered_entered (fun _ a => a) processFrame processCpu rfl
    (processMapped _)
  refine (@spawnTrap_transparent (fun _ a => a) processFrame processCpu rfl (by decide) id
    ⟨rfl, fun _ _ => rfl⟩ ?_ (processMapped _)).2.1 17 (by decide)
  change field (spawnTrapEntered _ processCpu).mem processFrame 536 = _
  rw [hEntered.mem, field_savedAll (by decide) (by decide)]
  exact processSatp

/-- Another hart, with nothing in its registers. -/
def otherHart : Cpu Csr where
  x _ := 0
  f _ := 0
  csr := update (fun _ => 0) .sscratch processFrame
  mem := savedAll processFrame processCpu

example : (spawnKthread (fun _ a => a) otherHart).x 17 = 17 := by
  have hEntered := @spawnTrapEntered_entered (fun _ a => a) processFrame processCpu rfl
    (processMapped _)
  refine (@resumed (fun _ a => a) processFrame processCpu rfl (processMapped _) (by decide)
    otherHart rfl (fun a _ => ?_) ?_ (processMapped _)).2.1 17 (by decide)
  · rw [hEntered.mem]
    rfl
  · exact (field_savedAll (by decide) (by decide)).trans (Memory.load64_store64 ..)

end Kernel.ContextSwitch
