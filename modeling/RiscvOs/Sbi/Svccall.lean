import RiscvOs.Sbi.HartTableRuns

/-! `svccall.c`, the dispatcher of the SBI calls, over the registers that the
trap vector saved in memory, and the wrappers of `sbi.c` that make the calls. -/
namespace Sbi.Svccall

open Semantics Function Table

/-- The calls of `sbicalls.h`; any other number is `unknown`. -/
inductive Service where
  | hartStatus
  | hartStart
  | hartStop
  | getTime
  | setTimecmp
  | addTimecmp
  | rtcGetTime
  | whoami
  | putchar
  | getchar
  | ackTimer
  | unknown
  deriving DecidableEq

/-- The case that a value of `a7` selects. -/
def service (a7 : Word) : Service :=
  match a7.toNat with
  | 1 => .hartStatus
  | 2 => .hartStart
  | 3 => .hartStop
  | 5 => .getTime
  | 6 => .setTimecmp
  | 7 => .addTimecmp
  | 8 => .rtcGetTime
  | 9 => .whoami
  | 10 => .putchar
  | 11 => .getchar
  | 12 => .ackTimer
  | _ => .unknown

def xregA0 : Fin 32 := 10

def xregA1 : Fin 32 := 11

def xregA2 : Fin 32 := 12

def xregA7 : Fin 32 := 17

/-- `mscratch + i` -/
def regAddr (mscratch : Word) (i : Fin 32) : Word :=
  mscratch + BitVec.ofNat 64 (8 * i)

/-- `mscratch[i]` -/
def reg (m : Memory) (mscratch : Word) (i : Fin 32) : Word :=
  m.load64 (regAddr mscratch i)

/-- The hart table, the words `mtimecmp` of the CLINT, the register `mip`, and
the characters for the UART. -/
structure State where
  table : Machine
  mtimecmp : Nat → Word
  mip : Word
  output : List Byte

/-- What the devices answer: `rdtime`, the clock, and the ring buffer. -/
structure Answers where
  time : Word
  rtc : Word
  char : Byte

/-- `SIP_STIP` -/
def sipStip : Word := 1 <<< 5

def setReg (mscratch : Word) (i : Fin 32) (value : Word) (s : State) : State :=
  { s with table.mem := s.table.mem.store64 (regAddr mscratch i) value }

def clintSetMtimecmp (hart : BitVec 32) (val : Word) (s : State) : State :=
  if hart.toNat ≥ 8 then s else { s with mtimecmp := update s.mtimecmp hart.toNat val }

/-- A `bool` as a `long`. -/
def boolWord (b : Bool) : Word :=
  if b then 1 else 0

/-- `svccall_handle` of the given hart. A call returns to its caller, or leaves
the trap in `hart_stop`. -/
def svccallHandle (b : Tables) (park mscratch : Word) (hart : BitVec 32) (answers : Answers)
    (s : State) : Leave × State :=
  let a0 := reg s.table.mem mscratch xregA0
  let a1 := reg s.table.mem mscratch xregA1
  let a2 := reg s.table.mem mscratch xregA2
  let setA0 (value : Word) (s : State) := (Leave.returned true, setReg mscratch xregA0 value s)
  match service (reg s.table.mem mscratch xregA7) with
  | .hartStatus =>
      let r := hartGetStatus b (a0.setWidth 32) s.table
      setA0 (r.1.setWidth 64) { s with table := r.2 }
  | .hartStart =>
      let r := Table.hartStart b (a0.setWidth 32) a1 a2 s.table
      setA0 (boolWord (r.1 = .returned true)) { s with table := r.2 }
  | .hartStop =>
      let r := Table.hartStop b park hart s.table
      if r.1 = .mret then (.mret, { s with table := r.2 })
      else setA0 (boolWord (r.1 = .returned true)) { s with table := r.2 }
  | .getTime => setA0 answers.time s
  | .setTimecmp => (.returned true, clintSetMtimecmp (a0.setWidth 32) a1 s)
  | .addTimecmp => (.returned true, clintSetMtimecmp (a0.setWidth 32) (answers.time + a1) s)
  -- This case has no `break`, and goes on to the next one.
  | .ackTimer => setA0 answers.rtc { s with mip := s.mip &&& ~~~sipStip }
  | .rtcGetTime => setA0 answers.rtc s
  | .putchar => (.returned true, { s with output := s.output ++ [a0.setWidth 8] })
  | .getchar => setA0 (answers.char.setWidth 64) s
  | .whoami => setA0 (hart.signExtend 64) s
  | .unknown => (.returned true, s)

/-- The calls that return a value in `a0`. -/
def returnsValue : Service → Bool
  | .hartStatus | .hartStart | .hartStop | .getTime | .rtcGetTime | .whoami | .getchar => true
  | .setTimecmp | .addTimecmp | .putchar | .ackTimer | .unknown => false

/-- The registers that a wrapper of `sbi.c` lists as clobbered. -/
def clobbers : Service → List (Fin 32)
  | .hartStart => [xregA0, xregA1, xregA2, xregA7]
  | .setTimecmp | .addTimecmp => [xregA0, xregA1, xregA7]
  | .ackTimer => [xregA7]
  | .hartStatus | .hartStop | .getTime | .rtcGetTime | .whoami | .putchar | .getchar =>
      [xregA0, xregA7]
  | .unknown => []

/-- A call that returns changes no saved register but `a0`, and not `a0` when
it returns no value; so it keeps to what its wrapper lists. -/
def KeepsRegisters (mscratch : Word) (m : Memory) (leave : Leave) (m' : Memory) : Prop :=
  leave ≠ .mret →
    (∀ i, i ≠ 0 → i ≠ xregA0 → reg m' mscratch i = reg m mscratch i) ∧
    (returnsValue (service (reg m mscratch xregA7)) = false →
      reg m' mscratch xregA0 = reg m mscratch xregA0) ∧
    ∀ i, i ≠ 0 → reg m' mscratch i ≠ reg m mscratch i →
      i ∈ clobbers (service (reg m mscratch xregA7))

/-- The byte that `hart_start` leaves at an address: 0 in the lock's word, and
the new status, the target and the scratch value in an entry that reads as
stopped. -/
def startByte (b : Tables) (hart : BitVec 32) (target scratch : Word) (m : Memory) (x : Word) :
    Option Byte :=
  if InRange (b.lockAt hart) 4 x then some 0
  else if (taken b hart m).load32 (b.dataAt hart) = hsStopped then
    if InRange (b.dataAt hart + 16) 8 x then
      some (scratch.extractLsb' (8 * (x - (b.dataAt hart + 16)).toNat) 8)
    else if InRange (b.dataAt hart + 8) 8 x then
      some (target.extractLsb' (8 * (x - (b.dataAt hart + 8)).toNat) 8)
    else if InRange (b.dataAt hart) 4 x then
      some (hsStarting.extractLsb' (8 * (x - b.dataAt hart).toNat) 8)
    else none
  else none

/-- The stores of `hart_start` write to no saved register but `a0`, or what is
there already. -/
def StartSpares (b : Tables) (hart : BitVec 32) (target scratch mscratch : Word) (m : Memory) : Prop :=
  ∀ i : Fin 32, i ≠ 0 → i ≠ xregA0 → ∀ x value, InRange (regAddr mscratch i) 8 x →
    startByte b hart target scratch m x = some value → m x = value

section Registers

variable {b : Tables} {park mscratch target scratch : Word} {hart : BitVec 32} {m m' : Memory}
  {i j : Fin 32} {x value : Word}

theorem regAddr_apart (h : i ≠ j) : Apart (regAddr mscratch i) 8 (regAddr mscratch j) 8 := by
  have hValue : (i : Nat) ≠ j := fun hSame => h (Fin.ext hSame)
  have hi := i.isLt
  have hj := j.isLt
  exact apart_of_offsets (by decide) (by decide) (by omega) (by omega) (by omega)

theorem reg_congr (h : Memory.AgreeOn m m' (regAddr mscratch i) 8) :
    reg m' mscratch i = reg m mscratch i :=
  Memory.load64_congr h

/-- Writing a register leaves the others. -/
theorem agreeOn_setReg (h : i ≠ j) :
    Memory.AgreeOn m (m.store64 (regAddr mscratch j) value) (regAddr mscratch i) 8 :=
  Memory.agreeOn_store64 m value (regAddr_apart h.symm)

theorem reg_setReg : reg (m.store64 (regAddr mscratch i) value) mscratch i = value :=
  Memory.load64_store64 ..

/-- What a free `hart_start` leaves, byte by byte. -/
theorem hartStart_byte {s : Machine} (hFree : s.mem.load32 (b.lockAt hart) ≠ mutexLocked) (x : Word) :
    (Table.hartStart b hart target scratch s).2.mem x =
      (startByte b hart target scratch s.mem x).getD (s.mem x) := by
  rw [(hartStart_free target scratch hFree).2, startByte, Memory.store32]
  by_cases hLock : InRange (b.lockAt hart) 4 x
  · have hOffset : (x - b.lockAt hart).toNat < 4 := hLock
    rw [if_pos hLock, if_pos hLock]
    simp
  · rw [if_neg hLock, if_neg hLock]
    have hTaken : taken b hart s.mem x = s.mem x := if_neg hLock
    by_cases hStatus : (taken b hart s.mem).load32 (b.dataAt hart) = hsStopped
    · rw [if_pos hStatus, if_pos hStatus, Memory.store64]
      by_cases hScratch : InRange (b.dataAt hart + 16) 8 x
      · rw [if_pos hScratch, if_pos hScratch]
        rfl
      · rw [if_neg hScratch, if_neg hScratch, Memory.store64]
        by_cases hTarget : InRange (b.dataAt hart + 8) 8 x
        · rw [if_pos hTarget, if_pos hTarget]
          rfl
        · rw [if_neg hTarget, if_neg hTarget, Memory.store32]
          by_cases hEntry : InRange (b.dataAt hart) 4 x
          · rw [if_pos hEntry, if_pos hEntry]
            rfl
          · rw [if_neg hEntry, if_neg hEntry]
            exact hTaken
    · rw [if_neg hStatus, if_neg hStatus]
      exact hTaken

/-- A held lock keeps its value. -/
theorem hartStart_held_mem {s : Machine} (hHeld : s.mem.load32 (b.lockAt hart) = mutexLocked) :
    (Table.hartStart b hart target scratch s).2.mem = s.mem := by
  rw [hartStart_held hHeld, mutexTrylock_mem]
  exact Memory.store32_eq_self hHeld

/-- The tables hold no byte of the saved registers. -/
structure RegistersApart (b : Tables) (mscratch : Word) : Prop where
  data : Apart b.data 192 mscratch 256
  lock : Apart b.lock 32 mscratch 256

theorem RegistersApart.lockAt (h : RegistersApart b mscratch) (hHart : hart.toNat < 8) :
    Apart (b.lockAt hart) 4 mscratch 256 := by
  rw [lockAt_eq]
  exact (h.lock.symm.part_right (by omega) (by decide) (by decide)).symm

theorem RegistersApart.dataAt (h : RegistersApart b mscratch) (hHart : hart.toNat < 8) {k n : Nat}
    (hn : 0 < n) (hk : k + n ≤ 24) : Apart (b.dataAt hart + BitVec.ofNat 64 k) n mscratch 256 := by
  rw [dataAt_eq, BitVec.add_assoc, ← BitVec.ofNat_add]
  exact (h.data.symm.part_right (by omega) (by decide) hn).symm

theorem inRange_regs (h : InRange (regAddr mscratch i) 8 x) : InRange mscratch 256 x :=
  h.part (by omega) (by decide)

/-- In the tables `hart_start` stores nothing to the saved registers. -/
theorem startSpares_of_lt (h : RegistersApart b mscratch) (hHart : hart.toNat < 8) :
    StartSpares b hart target scratch mscratch m := by
  intro i _ _ x value hx hByte
  have hIn := inRange_regs hx
  have hEntry {k n : Nat} (hn : 0 < n) (hk : k + n ≤ 24) :
      ¬ InRange (b.dataAt hart + BitVec.ofNat 64 k) n x := (h.dataAt hHart hn hk).not_inRange hIn
  have hStatus : ¬ InRange (b.dataAt hart) 4 x := by
    have hFirst := hEntry (k := 0) (n := 4) (by decide) (by decide)
    rwa [show b.dataAt hart + BitVec.ofNat 64 0 = b.dataAt hart by simp] at hFirst
  have hTarget : ¬ InRange (b.dataAt hart + 8) 8 x := hEntry (k := 8) (by decide) (by decide)
  have hScratch : ¬ InRange (b.dataAt hart + 16) 8 x := hEntry (k := 16) (by decide) (by decide)
  rw [startByte, if_neg ((h.lockAt hHart).not_inRange hIn), if_neg hScratch, if_neg hTarget,
    if_neg hStatus] at hByte
  split at hByte
  · cases hByte
  · cases hByte

/-- Nor does `hart_stop`. -/
theorem hartStop_regs {s : Machine} (h : RegistersApart b mscratch) (hHart : hart.toNat < 8) :
    Memory.AgreeOn s.mem (Table.hartStop b park hart s).2.mem mscratch 256 := by
  have hLock (m : Memory) (value : BitVec 32) :
      Memory.AgreeOn m (m.store32 (b.lockAt hart) value) mscratch 256 :=
    Memory.agreeOn_store32 m value (h.lockAt hHart)
  have hStatus (m : Memory) (value : BitVec 32) :
      Memory.AgreeOn m (m.store32 (b.dataAt hart) value) mscratch 256 := by
    have hFirst := h.dataAt hHart (k := 0) (n := 4) (by decide) (by decide)
    rw [show b.dataAt hart + BitVec.ofNat 64 0 = b.dataAt hart by simp] at hFirst
    exact Memory.agreeOn_store32 m value hFirst
  by_cases hFree : s.mem.load32 (b.lockAt hart) = mutexLocked
  · rw [hartStop_held hFree]
    exact hLock _ _
  · rw [(hartStop_free park hFree).2]
    split
    · exact ((hLock _ _).trans (hStatus _ _)).trans (hLock _ _)
    · exact hLock _ _

theorem keepsRegisters_of_eq {leave : Leave} : KeepsRegisters mscratch m leave m :=
  fun _ => ⟨fun _ _ _ => rfl, fun _ => rfl, fun _ _ hChanged => absurd rfl hChanged⟩

/-- A call that stores its value in `a0`. -/
theorem keepsRegisters_setReg_iff (hReturns : returnsValue (service (reg m mscratch xregA7)) = true)
    (leave : Leave) (hLeave : leave ≠ .mret) :
    KeepsRegisters mscratch m leave (m'.store64 (regAddr mscratch xregA0) value) ↔
      ∀ i, i ≠ 0 → i ≠ xregA0 → reg m' mscratch i = reg m mscratch i := by
  have hOther (i : Fin 32) (hi : i ≠ xregA0) :
      reg (m'.store64 (regAddr mscratch xregA0) value) mscratch i = reg m' mscratch i :=
    reg_congr (agreeOn_setReg hi)
  constructor
  · intro h i hi hA0
    rw [← hOther i hA0]
    exact (h hLeave).1 i hi hA0
  · intro h _
    refine ⟨fun i hi hA0 => (hOther i hA0).trans (h i hi hA0), fun hNone => ?_, ?_⟩
    · rw [hReturns] at hNone
      cases hNone
    · intro i hi hChanged
      obtain rfl : i = xregA0 := by
        by_contra hA0
        exact hChanged ((hOther i hA0).trans (h i hi hA0))
      generalize service (reg m mscratch xregA7) = called at hReturns
      cases called with
      | setTimecmp | addTimecmp | putchar | ackTimer | unknown => cases hReturns
      | _ => simp [clobbers]

/-- The registers behind `hart_start`. -/
theorem hartStart_regs_iff {s : Machine} :
    (∀ i, i ≠ 0 → i ≠ xregA0 →
      reg (Table.hartStart b hart target scratch s).2.mem mscratch i = reg s.mem mscratch i) ↔
      (s.mem.load32 (b.lockAt hart) ≠ mutexLocked →
        StartSpares b hart target scratch mscratch s.mem) := by
  by_cases hHeld : s.mem.load32 (b.lockAt hart) = mutexLocked
  · rw [hartStart_held_mem hHeld]
    exact iff_of_true (fun _ _ _ => rfl) fun hFree => absurd hHeld hFree
  · simp only [ne_eq, hHeld, not_false_eq_true, true_implies]
    constructor
    · intro h i hi hA0 x value hx hByte
      have hSame := Memory.agreeOn_of_load64 (h i hi hA0) x hx
      rwa [hartStart_byte hHeld, hByte, Option.getD_some, eq_comm] at hSame
    · intro h i hi hA0
      refine reg_congr fun x hx => ?_
      rw [hartStart_byte hHeld]
      cases hByte : startByte b hart target scratch s.mem x with
      | none => rfl
      | some value => exact (h i hi hA0 x value hx hByte).symm

end Registers

section Calls

variable {b : Tables} {park mscratch : Word} {hart : BitVec 32} {answers : Answers} {s : State}

/-- `ACK_TIMER` answers with the clock. -/
theorem keepsRegisters_ackTimer_iff
    (hService : service (reg s.table.mem mscratch xregA7) = .ackTimer) :
    KeepsRegisters mscratch s.table.mem (svccallHandle b park mscratch hart answers s).1
        (svccallHandle b park mscratch hart answers s).2.table.mem ↔
      reg s.table.mem mscratch xregA0 = answers.rtc := by
  simp only [svccallHandle, hService]
  constructor
  · intro h
    have hA0 := (h (by simp)).2.1 (by rw [hService]; rfl)
    exact hA0.symm.trans reg_setReg
  · intro hClock _
    have hSame (i : Fin 32) : reg (s.table.mem.store64 (regAddr mscratch xregA0) answers.rtc)
        mscratch i = reg s.table.mem mscratch i := by
      by_cases hi : i = xregA0
      · rw [hi, hClock]
        exact reg_setReg
      · exact reg_congr (agreeOn_setReg hi)
    exact ⟨fun i _ _ => hSame i, fun _ => hSame _, fun i _ hChanged => absurd (hSame i) hChanged⟩

/-- A call of the SBI keeps the saved registers of its caller when it is not
`ACK_TIMER`, which falls into the case of the clock, or the clock happens to say
what `a0` holds; and when a `hart_start` of a hart that does not exist stores
nothing to them. -/
theorem keepsRegisters_iff (hApart : RegistersApart b mscratch) (hHart : hart.toNat < 8) :
    KeepsRegisters mscratch s.table.mem (svccallHandle b park mscratch hart answers s).1
        (svccallHandle b park mscratch hart answers s).2.table.mem ↔
      (service (reg s.table.mem mscratch xregA7) = .ackTimer →
        reg s.table.mem mscratch xregA0 = answers.rtc) ∧
      (service (reg s.table.mem mscratch xregA7) = .hartStart →
        8 ≤ ((reg s.table.mem mscratch xregA0).setWidth 32).toNat →
        s.table.mem.load32 (b.lockAt ((reg s.table.mem mscratch xregA0).setWidth 32)) ≠ mutexLocked →
          StartSpares b ((reg s.table.mem mscratch xregA0).setWidth 32)
            (reg s.table.mem mscratch xregA1) (reg s.table.mem mscratch xregA2) mscratch
            s.table.mem) := by
  have hReturned : Leave.returned true ≠ .mret := by simp
  have hSet (hValue : returnsValue (service (reg s.table.mem mscratch xregA7)) = true)
      (m' : Memory) (value : Word) := @keepsRegisters_setReg_iff mscratch s.table.mem m' value hValue
        (.returned true) hReturned
  unfold svccallHandle
  cases hService : service (reg s.table.mem mscratch xregA7) with
  | hartStatus =>
      have hMem (h : BitVec 32) : (hartGetStatus b h s.table).2.mem = s.table.mem := by
        unfold hartGetStatus
        split
        · rfl
        · rfl
      simp only [reduceCtorEq, false_implies, and_true, iff_true]
      refine (hSet (by rw [hService]; rfl) _ _).mpr fun i _ _ => ?_
      rw [hMem]
  | hartStart =>
      simp only [reduceCtorEq, false_implies, true_and, true_implies]
      refine (hSet (by rw [hService]; rfl) _ _).trans (hartStart_regs_iff.trans ?_)
      refine ⟨fun h _ hFree => h hFree, fun h hFree => ?_⟩
      by_cases hBeyond : 8 ≤ ((reg s.table.mem mscratch xregA0).setWidth 32).toNat
      · exact h hBeyond hFree
      · exact startSpares_of_lt hApart (not_le.mp hBeyond)
  | hartStop =>
      have hRegs := @hartStop_regs b park mscratch hart s.table hApart hHart
      simp only [reduceCtorEq, false_implies, and_true, iff_true]
      split
      · exact fun hLeave => absurd rfl hLeave
      · refine (hSet (by rw [hService]; rfl) _ _).mpr fun i _ _ => ?_
        exact reg_congr fun x hx => hRegs x (inRange_regs hx)
  | getTime | rtcGetTime | whoami | getchar =>
      simp only [reduceCtorEq, false_implies, and_true, iff_true]
      exact (hSet (by rw [hService]; rfl) _ _).mpr fun _ _ _ => rfl
  | setTimecmp | addTimecmp =>
      have hMem (h : BitVec 32) (val : Word) : (clintSetMtimecmp h val s).table.mem = s.table.mem := by
        unfold clintSetMtimecmp
        split
        · rfl
        · rfl
      simp only [reduceCtorEq, false_implies, and_true, iff_true, hMem]
      exact keepsRegisters_of_eq
  | putchar | unknown =>
      simp only [reduceCtorEq, false_implies, and_true, iff_true]
      exact keepsRegisters_of_eq
  | ackTimer =>
      have hClock := @keepsRegisters_ackTimer_iff b park mscratch hart answers s hService
      simp only [svccallHandle, hService] at hClock
      simp only [reduceCtorEq, false_implies, and_true, true_implies]
      exact hClock

end Calls

section Timer

/-- The registers of hart 0 at 0x80004000, with a service number in `a7` and
zero in the others. -/
def callOf (number : Word) : State where
  table := { bootMachine with
    mem := bootMachine.mem.store64 (regAddr 0x80004000 xregA7) number }
  mtimecmp := fun _ => 0
  mip := sipStip
  output := []

theorem service_callOf (number : Word) :
    reg (callOf number).table.mem 0x80004000 xregA7 = number :=
  reg_setReg

theorem registersApart_boot : RegistersApart bootTables 0x80004000 := by
  refine ⟨?_, ?_⟩
  · unfold Apart
    decide
  · unfold Apart
    decide

/-- A call of `WHOAMI` keeps the registers of its caller. -/
theorem keepsRegisters_whoami :
    KeepsRegisters 0x80004000 (callOf 9).table.mem
      (svccallHandle bootTables 0x80000100 0x80004000 0 ⟨0, 0, 0⟩ (callOf 9)).1
      (svccallHandle bootTables 0x80000100 0x80004000 0 ⟨0, 0, 0⟩ (callOf 9)).2.table.mem := by
  refine (keepsRegisters_iff registersApart_boot (by decide)).mpr ⟨fun hAck => ?_, fun hStart => ?_⟩
  · rw [service_callOf] at hAck
    cases hAck
  · rw [service_callOf] at hStart
    cases hStart

/-- Acknowledging the timer leaves the time of the clock in `a0`. -/
theorem not_keepsRegisters_ackTimer :
    ¬ KeepsRegisters 0x80004000 (callOf 12).table.mem
      (svccallHandle bootTables 0x80000100 0x80004000 0 ⟨0, 0x1234, 0⟩ (callOf 12)).1
      (svccallHandle bootTables 0x80000100 0x80004000 0 ⟨0, 0x1234, 0⟩ (callOf 12)).2.table.mem := by
  have hA0 : reg (callOf 12).table.mem 0x80004000 xregA0 = 0 := by decide +kernel
  rw [keepsRegisters_ackTimer_iff (by rw [service_callOf]; rfl), hA0]
  decide

end Timer

end Sbi.Svccall
