import RiscvOs.Sbi.HartTableRuns
import RiscvOs.Sbi.Plic
import RiscvOs.Semantics.Threads

/-! `main.c` of the SBI with `clear_bss`, from the reset of the eight harts to the
`mret` of each. Every statement is a step of its hart, a turn of the loop of
`clear_bss` and a try of `mutex_spinlock` too. -/
namespace Sbi.Boot

open Semantics Function Table

/-- The control registers that `main` writes. -/
structure Control extends Csrs where
  mscratch : Word
  mtvec : Word
  pmpaddr0 : Word
  pmpcfg0 : Word

inductive Csr where
  | mscratch
  | sscratch
  | mepc
  | mideleg
  | medeleg
  | mie
  | mstatus
  | mtvec
  | pmpaddr0
  | pmpcfg0

/-- `CSR_WRITE` -/
def Control.write (c : Control) : Csr → Word → Control
  | .mscratch, value => { c with mscratch := value }
  | .sscratch, value => { c with sscratch := value }
  | .mepc, value => { c with mepc := value }
  | .mideleg, value => { c with mideleg := value }
  | .medeleg, value => { c with medeleg := value }
  | .mie, value => { c with mie := value }
  | .mstatus, value => { c with mstatus := value }
  | .mtvec, value => { c with mtvec := value }
  | .pmpaddr0, value => { c with pmpaddr0 := value }
  | .pmpcfg0, value => { c with pmpcfg0 := value }

/-- Where `sbi.lds` puts the variables and the code. `.data`, with `hart0lock`, is
behind `.bss` and starts a page, so the last store of `clear_bss` does not reach
it. -/
structure Image extends Tables where
  bssStart : Word
  bssEnd : Word
  hart0lock : Word
  gpregs : Word
  park : Word
  sbiTrapVector : Word
  start_le : bssStart.toNat ≤ bssEnd.toNat
  lock_behind : bssStart.toNat + 8 * ((bssEnd.toNat - bssStart.toNat + 7) / 8) ≤ hart0lock.toNat
  top : hart0lock.toNat + 4 ≤ 2 ^ 63
  data_in : bssStart.toNat ≤ data.toNat ∧ data.toNat + 192 ≤ bssEnd.toNat
  lock_in : bssStart.toNat ≤ lock.toNat ∧ lock.toNat + 32 ≤ bssEnd.toNat
  apart : data.toNat + 192 ≤ lock.toNat ∨ lock.toNat + 32 ≤ data.toNat

/-- The memory, the registers of the devices and of the harts, and where a hart
is after its `mret`. -/
structure Shared where
  mem : Memory
  device : Memory
  msip : Nat → Bool
  csr : Hart → Control
  place : Hart → Option Place

/-- What the harts execute. `setStatus`, `setTarget` and `setPriv` are assignments
to `sbi_hart_data[hart]`; `hartStart` is a call that the operating system makes. -/
inductive Statement where
  /-- The loop of `clear_bss`, with the register `t0`. -/
  | clear (t0 : Word)
  /-- `uart[offset] = value` -/
  | uart (offset : Nat) (value : Byte)
  | plic (c : Plic.Call)
  | spinlock
  | unlock
  | setStatus (status : BitVec 32)
  | setTarget (target : Word)
  | setPriv (mode : BitVec 32)
  | csrWrite (r : Csr) (value : Word)
  | mret
  | hartStart (hart : Hart) (target scratch : Word)

/-- `uart_init` -/
def uartInit : List Statement :=
  [.uart 3 3, .uart 2 1, .uart 1 1]

/-- `plic_init` -/
def plicInit : List Statement :=
  Plic.sbiPlicInit.map .plic

def pmpInit : List Statement :=
  [.csrWrite .pmpaddr0 (0xffffffff >>> 2),
    .csrWrite .pmpcfg0 ((0b01 <<< 3) ||| (1 <<< 2) ||| (1 <<< 1) ||| (1 <<< 0))]

/-- `HPM_MACHINE` -/
def hpmMachine : BitVec 32 := 3

/-- `&SBI_GPREGS[hart][0]` -/
def gpregsOf (l : Image) (hart : Hart) : Word :=
  l.gpregs + BitVec.ofNat 64 (256 * hart)

/-- `main` of a hart other than hart 0. -/
def mainOther (l : Image) (hart : Hart) : List Statement :=
  [.spinlock, .unlock] ++ pmpInit ++
  [.setStatus hsStopped, .setTarget 0, .setPriv hpmMachine,
    .csrWrite .mscratch (gpregsOf l hart),
    .csrWrite .sscratch (hartWord hart),
    .csrWrite .mepc l.park,
    .csrWrite .mideleg 0,
    .csrWrite .medeleg 0,
    .csrWrite .mie mieMsie,
    .csrWrite .mstatus (mstatusFsInitial ||| (3 <<< mstatusMppBit) ||| mstatusMpie),
    .csrWrite .mtvec l.sbiTrapVector,
    .mret]

/-- `main` of hart 0 behind its `mutex_unlock`. -/
def mainSetup (l : Image) : List Statement :=
  plicInit ++ pmpInit ++
  [.setStatus hsStarted, .setTarget 0, .setPriv hpmMachine,
    .csrWrite .mscratch (gpregsOf l 0),
    .csrWrite .sscratch (hartWord 0),
    .csrWrite .mepc osLoadAddr,
    .csrWrite .mtvec l.sbiTrapVector,
    .csrWrite .mie (mieMeie ||| mieSeie ||| mieMtie ||| mieStie ||| mieMsie ||| mieSsie),
    .csrWrite .mideleg (mieSeie ||| mieStie ||| mieSsie),
    .csrWrite .medeleg medelegAll,
    .csrWrite .mstatus (mstatusFsInitial ||| (1 <<< mstatusMppBit) ||| mstatusMpie),
    .mret]

def main (l : Image) (hart : Hart) : List Statement :=
  if hart ≠ 0 then mainOther l hart
  else .clear l.bssStart :: (uartInit ++ .unlock :: mainSetup l)

/-- The number of a hart as an argument of `hart_start`. -/
def hartId (hart : Hart) : BitVec 32 :=
  BitVec.ofNat 32 hart

/-- `UART` of `uart.c` -/
def uartBase : Word := 0x10000000

def act (l : Image) : Action Hart Statement Shared := fun hart statement s =>
  let entry := l.dataAt (hartId hart)
  match statement with
  | .clear t0 =>
      if l.bssEnd.sle t0 then ([], s)
      else ([.clear (t0 + 8)], { s with mem := s.mem.store64 t0 0 })
  | .uart offset value =>
      ([], { s with device := s.device.store (uartBase + BitVec.ofNat 64 offset) value })
  | .plic c => ([], { s with device := Plic.call s.device c })
  | .spinlock =>
      let old := s.mem.load32 l.hart0lock
      let s := { s with mem := s.mem.store32 l.hart0lock mutexLocked }
      if old ≠ mutexLocked then ([], s) else ([.spinlock], s)
  | .unlock => ([], { s with mem := s.mem.store32 l.hart0lock 0 })
  | .setStatus status => ([], { s with mem := s.mem.store32 entry status })
  | .setTarget target => ([], { s with mem := s.mem.store64 (entry + 8) target })
  | .setPriv mode => ([], { s with mem := s.mem.store32 (entry + 4) mode })
  | .csrWrite r value => ([], { s with csr := update s.csr hart ((s.csr hart).write r value) })
  | .mret =>
      ([], { s with
        place := update s.place hart (some (.code (s.csr hart).mepc (mpp (s.csr hart).mstatus))) })
  | .hartStart other target scratch =>
      let r := Table.hartStart l.toTables (hartId other) target scratch
        { mem := s.mem, msip := s.msip, csr := (s.csr hart).toCsrs, touched := [] }
      ([], { s with mem := r.2.mem, msip := r.2.msip })

/-- The calls of `hart_start` that the operating system makes on hart 0. -/
abbrev OsCalls := List (Hart × Word × Word)

def osCalls (calls : OsCalls) : List Statement :=
  calls.map fun (hart, target, scratch) => .hartStart hart target scratch

/-- All harts are at the start of `main`. -/
def start (l : Image) (calls : OsCalls) (s : Shared) : Threads Hart Statement Shared where
  rest hart := if hart = 0 then main l hart ++ osCalls calls else main l hart
  shared := s

/-- The image is loaded, with `hart0lock` locked, and no hart has been
interrupted; the other bytes are any. -/
structure Reset (l : Image) (s : Shared) : Prop where
  locked : s.mem.load32 l.hart0lock = mutexLocked
  msip : ∀ hart, s.msip hart = false

/-- The operating system calls `hart_start` for a hart that has not yet stored its
status. -/
def Early (s : Threads Hart Statement Shared) (hart : Hart) : Prop :=
  ∀ other target scratch tail, s.rest hart = .hartStart other target scratch :: tail →
    ∃ status, .setStatus status ∈ s.rest other

/-- A status as it is in memory. -/
def HartStatus.number : HartStatus → BitVec 32
  | .invalid => 0
  | .stopped => hsStopped
  | .starting => hsStarting
  | .started => hsStarted
  | .stopping => 4

/-- The memory and the registers are those of a state of the table. -/
structure Shows (l : Image) (s : Shared) (t : System) : Prop where
  status : ∀ hart, s.mem.load32 (l.dataAt (hartId hart)) = HartStatus.number (t.data hart).status
  privMode : ∀ hart, (s.mem.load32 (l.dataAt (hartId hart) + 4)).setWidth 64 =
    (t.data hart).privMode.bits
  target : ∀ hart, s.mem.load64 (l.dataAt (hartId hart) + 8) = (t.data hart).targetAddress
  scratch : ∀ hart, s.mem.load64 (l.dataAt (hartId hart) + 16) = (t.data hart).scratch
  locked : ∀ hart, s.mem.load32 (l.lockAt (hartId hart)) = if t.locked hart then mutexLocked else 0
  msip : ∀ hart : Hart, s.msip hart = t.msip hart
  csr : ∀ hart, (s.csr hart).toCsrs = t.csr hart
  place : ∀ hart, s.place hart = some (t.place hart)

/-- What an interleaving of the harts has come to. -/
structure Booted (l : Image) (calls : OsCalls) (t : Threads Hart Statement Shared) : Prop where
  /-- A hart that has entered finds `.bss` cleared and the UART initialised. -/
  ordered : ∀ hart, hart ≠ 0 → t.rest hart ≠ main l hart → t.rest 0 <:+ mainSetup l ++ osCalls calls
  /-- A hart that has left has its own trap frame and the trap vector. -/
  left : ∀ hart, t.rest hart = [] → (t.shared.csr hart).mscratch = gpregsOf l hart ∧
    (t.shared.csr hart).mtvec = l.sbiTrapVector ∧ (t.shared.csr hart).pmpcfg0 = 0xf
  /-- When all have left, the table is the one that the calls of `hart.c` start with. -/
  shows : t.Done → Shows l t.shared (afterMain l.park)

end Sbi.Boot
