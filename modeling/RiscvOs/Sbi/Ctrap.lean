import RiscvOs.Sbi.Svccall
import RiscvOs.Sbi.RingBuff
import RiscvOs.Semantics.Transition

/-! `ctrap.c`, the handler of all traps to machine mode, with `uart.c` and the
part of `plic.c` and `clint.c` that it calls. A trap is one step of its hart. -/
namespace Sbi.Ctrap

open Semantics Function Table Svccall

/-- `CLINT_MTIMECMP_INFINITE` -/
def clintMtimecmpInfinite : Word := 0x7FFFFFFFFFFFFFFF

/-- `uart_get`, with the characters that the UART has received; 255 when there is
none. -/
def uartGet : List Byte → Byte × List Byte
  | [] => (255, [])
  | c :: received => (c, received)

/-- `uart_handle_irq`. Every turn of its loop takes a character from the UART. -/
def uartHandleIrq (received : List Byte) (ring : RingBuff.Ring) : List Byte × RingBuff.Ring :=
  match received with
  | [] => ([], ring)
  | c :: rest =>
      if c ≠ 0xff then uartHandleIrq rest (RingBuff.ringPut ring c) else (rest, ring)

/-- The loop of the source; an empty UART answers with the character that ends it. -/
theorem uartHandleIrq_uartGet (received : List Byte) (ring : RingBuff.Ring) :
    uartHandleIrq received ring =
      if (uartGet received).1 ≠ 0xff then
        uartHandleIrq (uartGet received).2 (RingBuff.ringPut ring (uartGet received).1)
      else ((uartGet received).2, ring) := by
  cases received with
  | nil => rfl
  | cons c rest => rfl

/-- What the SBI of one hart works on; `completed` are the arguments of
`plic_complete`. -/
structure State extends Svccall.State where
  received : List Byte
  ring : RingBuff.Ring
  completed : List (BitVec 32)

/-- `plic_handle_irq`, where `plic_claim` returns `irq`. -/
def plicHandleIrq (irq : BitVec 32) (s : State) : State :=
  let s :=
    if irq = 10 then
      let (received, ring) := uartHandleIrq s.received s.ring
      { s with received := received, ring := ring }
    else s
  { s with completed := s.completed ++ [irq] }

/-- How the handler leaves; it also hangs where it waits for a lock that is not
given back. -/
inductive Exit where
  | returned
  | mret
  | hangs
  deriving DecidableEq

/-- What a trap finds: the registers `mcause`, `mepc` and `mscratch`, and the
answers of `rdtime`, of the clock and of `plic_claim`. -/
structure Trap where
  mcause : Word
  mepc : Word
  mscratch : Word
  time : Word
  rtc : Word
  irq : BitVec 32

def Trap.isAsync (trap : Trap) : Bool :=
  trap.mcause.getLsbD 63

/-- `mcause & 0xff` -/
def Trap.cause (trap : Trap) : Nat :=
  (trap.mcause &&& 0xff).toNat

/-- `SBI_SVCCALL_GETCHAR` takes its character from the ring. -/
def getChar (trap : Trap) (s : State) : Byte × RingBuff.Ring :=
  match service (reg s.table.mem trap.mscratch xregA7) with
  | .getchar => RingBuff.ringGet s.ring
  | _ => (0xff, s.ring)

def cTrapHandler (b : Tables) (park : Word) (hart : Hart) (trap : Trap) (s : State) : Exit × State :=
  let hartId := BitVec.ofNat 32 hart
  if trap.isAsync then
    match trap.cause with
    | 3 =>
        let r := Table.hartHandleMsip b hartId s.table
        (if r.1 = .mret then .mret else .hangs, { s with table := r.2 })
    | 7 =>
        let s := { s with mip := s.mip ||| sipStip }
        (.returned, { s with
          toState := clintSetMtimecmp hartId clintMtimecmpInfinite s.toState })
    | 11 => (.returned, plicHandleIrq trap.irq s)
    | _ => (.returned, s)
  else
    match trap.cause with
    | 9 =>
        let (char, ring) := getChar trap s
        let r := svccallHandle b park trap.mscratch hartId ⟨trap.time, trap.rtc, char⟩ s.toState
        let s := { s with toState := r.2, ring := ring }
        if r.1 = .mret then (.mret, s)
        else (.returned, { s with table.csr.mepc := trap.mepc + 4 })
    | _ => (.hangs, s)

/-! ## All harts -/

/-- The SBI of all harts, and the time. -/
structure Machine where
  mem : Memory
  msip : Nat → Bool
  mtimecmp : Nat → Word
  output : List Byte
  received : List Byte
  ring : RingBuff.Ring
  completed : List (BitVec 32)
  csr : Hart → Csrs
  mip : Hart → Word
  time : Word

/-- What the handler finds when it runs on a hart. -/
def Machine.on (m : Machine) (hart : Hart) : State where
  table := { mem := m.mem, msip := m.msip, csr := m.csr hart, touched := [] }
  mtimecmp := m.mtimecmp
  mip := m.mip hart
  output := m.output
  received := m.received
  ring := m.ring
  completed := m.completed

/-- What the handler leaves. -/
def Machine.back (m : Machine) (hart : Hart) (s : State) : Machine where
  mem := s.table.mem
  msip := s.table.msip
  mtimecmp := s.mtimecmp
  output := s.output
  received := s.received
  ring := s.ring
  completed := s.completed
  csr := update m.csr hart s.table.csr
  mip := update m.mip hart s.mip
  time := m.time

/-- The timer interrupt of machine mode is pending. -/
def Machine.TimerPending (m : Machine) (hart : Hart) : Prop :=
  m.mtimecmp hart ≤ m.time

inductive Event where
  | tick (now : Word)
  | receive (c : Byte)
  | trap (hart : Hart) (trap : Trap)

/-- Time passes, a character arrives, or a hart traps; a timer interrupt is
pending when it is taken. The clock does not reach the value that stands for no
deadline. -/
inductive Step (b : Tables) (park : Word) : Machine → Event → Machine → Prop where
  | tick {m : Machine} {now : Word} (hLe : m.time ≤ now) (hFinite : now < clintMtimecmpInfinite) :
      Step b park m (.tick now) { m with time := now }
  | receive {m : Machine} (c : Byte) :
      Step b park m (.receive c) { m with received := m.received ++ [c] }
  | trap {m : Machine} {hart : Hart} {trap : Trap} (hTime : trap.time = m.time)
      (hPending : trap.isAsync = true → trap.cause = 7 → m.TimerPending hart) :
      Step b park m (.trap hart trap) (m.back hart (cTrapHandler b park hart trap (m.on hart)).2)

end Sbi.Ctrap
