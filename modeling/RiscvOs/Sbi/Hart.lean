import RiscvOs.Semantics.Memory
import RiscvOs.Semantics.Transition
import Mathlib.Logic.Function.Basic

/-! `sbi/src/hart.c`, the hart table of the SBI, with the software interrupts
of `clint.c` and the state in which `main` leaves the harts. A critical section
under `sbi_hart_lock` is one step; a trap and the `mret` that leaves it are
steps of their own. -/
namespace Sbi

open Semantics Function

/-- `HartStatus` -/
inductive HartStatus where
  | invalid
  | stopped
  | starting
  | started
  | stopping
  deriving DecidableEq

/-- `HartPrivMode` -/
inductive HartPrivMode where
  | user
  | supervisor
  | hypervisor
  | machine
  deriving DecidableEq

/-- The value of the enumeration, as the field `MPP` of `mstatus` has it. -/
def HartPrivMode.bits : HartPrivMode → Word
  | user => 0
  | supervisor => 1
  | hypervisor => 2
  | machine => 3

structure HartData where
  status : HartStatus
  privMode : HartPrivMode
  targetAddress : Word
  scratch : Word

/-- The control registers of a hart that this code writes. -/
structure Csrs where
  mepc : Word
  mstatus : Word
  mie : Word
  mideleg : Word
  medeleg : Word
  sscratch : Word

/-- What a hart executes: code at an address, or the trap handler of the SBI. -/
inductive Place where
  | code (pc : Word) (mode : HartPrivMode)
  | trap

abbrev Hart := Fin 8

/-- `sbi_hart_data`, `sbi_hart_lock`, the words of the CLINT, and the harts. -/
structure System where
  data : Hart → HartData
  locked : Hart → Bool
  msip : Hart → Bool
  csr : Hart → Csrs
  place : Hart → Place

/-- `MSTATUS_MPP_BIT` -/
def mstatusMppBit : Nat := 11

/-- `MSTATUS_MPIE` -/
def mstatusMpie : Word := 1 <<< 7

/-- `MSTATUS_FS_INITIAL` -/
def mstatusFsInitial : Word := 1 <<< 13

/-- `MIE_SSIE`, `MIE_MSIE`, `MIE_STIE`, `MIE_MTIE`, `MIE_SEIE` and `MIE_MEIE`;
`SIP_SSIP`, `SIP_STIP` and `SIP_SEIP` are the same bits. -/
def mieSsie : Word := 1 <<< 1

def mieMsie : Word := 1 <<< 3

def mieStie : Word := 1 <<< 5

def mieMtie : Word := 1 <<< 7

def mieSeie : Word := 1 <<< 9

def mieMeie : Word := 1 <<< 11

/-- `MEDELEG_ALL` -/
def medelegAll : Word := 0xb1f7

/-- `OS_LOAD_ADDR` -/
def osLoadAddr : Word := 0x80050000

/-- The number of a hart as a register has it. -/
def hartWord (hart : Hart) : Word :=
  BitVec.ofNat 64 hart

/-- The mode in the field `MPP`, to which `mret` returns. -/
def mpp (mstatus : Word) : HartPrivMode :=
  match ((mstatus >>> mstatusMppBit) &&& 3#64).toNat with
  | 0 => .user
  | 1 => .supervisor
  | 2 => .hypervisor
  | _ => .machine

def clintSetMsip (hart : Hart) (s : System) : System :=
  { s with msip := update s.msip hart true }

def clintClearMsip (hart : Hart) (s : System) : System :=
  { s with msip := update s.msip hart false }

def mutexLock (hart : Hart) (s : System) : System :=
  { s with locked := update s.locked hart true }

def mutexUnlock (hart : Hart) (s : System) : System :=
  { s with locked := update s.locked hart false }

/-- `mutex_trylock`; it also fails when another hart is in its critical
section. -/
def mutexTrylock (hart : Hart) (contended : Bool) (s : System) : Option System :=
  if s.locked hart || contended then none else some (mutexLock hart s)

def setData (hart : Hart) (d : HartData) (s : System) : System :=
  { s with data := update s.data hart d }

def setCsr (hart : Hart) (c : Csrs) (s : System) : System :=
  { s with csr := update s.csr hart c }

def setPlace (hart : Hart) (p : Place) (s : System) : System :=
  { s with place := update s.place hart p }

def hartStart (hart : Hart) (target scratch : Word) (contended : Bool) (s : System) :
    Bool × System :=
  match mutexTrylock hart contended s with
  | none => (false, s)
  | some s =>
      if (s.data hart).status ≠ .stopped then (false, mutexUnlock hart s)
      else
        (true, mutexUnlock hart (clintSetMsip hart (setData hart { s.data hart with
          status := .starting, targetAddress := target, scratch := scratch } s)))

/-- The registers with which `hart_stop` leaves its trap. -/
def parkCsrs (park : Word) (c : Csrs) : Csrs :=
  { c with
    mepc := park
    mstatus := (3 <<< mstatusMppBit) ||| mstatusMpie
    mie := mieMsie }

/-- `hart_stop` of the hart that runs it. It returns `false`, with the lock
still taken where the hart is not started, or it does not return and leaves the
trap with `mret`. -/
def hartStop (park : Word) (hart : Hart) (contended : Bool) (s : System) : Option Bool × System :=
  match mutexTrylock hart contended s with
  | none => (some false, s)
  | some s =>
      if (s.data hart).status ≠ .started then (some false, s)
      else
        (none, setPlace hart .trap (mutexUnlock hart (setCsr hart (parkCsrs park (s.csr hart))
          (setData hart { s.data hart with status := .stopped } s))))

/-- The registers that `hart_handle_msip` writes for a hart that starts. -/
def startCsrs (hart : Hart) (d : HartData) (c : Csrs) : Csrs :=
  { c with
    mepc := d.targetAddress
    mstatus := (d.privMode.bits <<< mstatusMppBit) ||| mstatusMpie ||| mstatusFsInitial
    mie := mieSsie ||| mieStie ||| mieMtie
    mideleg := mieSeie ||| mieSsie ||| mieStie
    medeleg := medelegAll
    sscratch := hartWord hart }

/-- `hart_handle_msip`, from a free lock to the `mret` that leaves it. -/
def hartHandleMsip (hart : Hart) (s : System) : System :=
  let s := clintClearMsip hart (mutexLock hart s)
  if (s.data hart).status = .starting then
    mutexUnlock hart (setData hart { s.data hart with status := .started }
      (setCsr hart (startCsrs hart (s.data hart) (s.csr hart)) s))
  else mutexUnlock hart s

/-- What a trap from code saves. -/
def trapCsrs (pc : Word) (mode : HartPrivMode) (c : Csrs) : Csrs :=
  { c with
    mepc := pc
    mstatus := (c.mstatus &&& ~~~(3#64 <<< mstatusMppBit)) ||| (mode.bits <<< mstatusMppBit) }

def takeTrap (hart : Hart) (pc : Word) (mode : HartPrivMode) (s : System) : System :=
  setPlace hart .trap (setCsr hart (trapCsrs pc mode (s.csr hart)) s)

def mret (hart : Hart) (s : System) : System :=
  setPlace hart (.code (s.csr hart).mepc (mpp (s.csr hart).mstatus)) s

/-- The hart executes code of the operating system, not the loop of `park`. -/
def RunsOs (park : Word) (s : System) (hart : Hart) : Prop :=
  ∃ pc mode, s.place hart = .code pc mode ∧ pc ≠ park

/-- What can happen, with what a call of `hart_start` or `hart_stop` comes
to; `none` is a call that does not return. -/
inductive Event where
  | start (hart : Hart) (target scratch : Word) (result : Bool)
  | stop (hart : Hart) (result : Option Bool)
  | msip (hart : Hart)
  | mret (hart : Hart)
  | run (hart : Hart)
  deriving DecidableEq

/-- The steps of the harts. Any hart may call `hart_start`; a hart stops only
itself, from code of the operating system. A software interrupt is taken from
any code, whether or not it is pending. -/
inductive Step (park : Word) : System → Event → System → Prop where
  | start {s t : System} {hart : Hart} {target scratch : Word} {contended result : Bool}
      (h : hartStart hart target scratch contended s = (result, t)) :
      Step park s (.start hart target scratch result) t
  | stop {s t : System} {hart : Hart} {contended : Bool} {result : Option Bool}
      (running : RunsOs park s hart)
      (h : hartStop park hart contended s = (result, t)) : Step park s (.stop hart result) t
  | msip {s : System} {hart : Hart} {pc : Word} {mode : HartPrivMode}
      (place : s.place hart = .code pc mode) (free : s.locked hart = false) :
      Step park s (.msip hart) (hartHandleMsip hart (takeTrap hart pc mode s))
  | mret {s : System} {hart : Hart} (place : s.place hart = .trap) :
      Step park s (.mret hart) (Sbi.mret hart s)
  | run {s : System} {hart : Hart} (running : RunsOs park s hart) (pc : Word)
      (mode : HartPrivMode) : Step park s (.run hart) (setPlace hart (.code pc mode) s)

/-- What `main` leaves in the table: hart 0 runs the operating system, the
others are parked. -/
def mainData (hart : Hart) : HartData where
  status := if hart = 0 then .started else .stopped
  privMode := .machine
  targetAddress := 0
  scratch := 0

def mainCsrs (park : Word) (hart : Hart) : Csrs :=
  if hart = 0 then
    { mepc := osLoadAddr
      mstatus := mstatusFsInitial ||| (1 <<< mstatusMppBit) ||| mstatusMpie
      mie := mieMeie ||| mieSeie ||| mieMtie ||| mieStie ||| mieMsie ||| mieSsie
      mideleg := mieSeie ||| mieStie ||| mieSsie
      medeleg := medelegAll
      sscratch := hartWord hart }
  else
    { mepc := park
      mstatus := mstatusFsInitial ||| (3 <<< mstatusMppBit) ||| mstatusMpie
      mie := mieMsie
      mideleg := 0
      medeleg := 0
      sscratch := hartWord hart }

/-- Every hart has left `main` with its `mret`. -/
def afterMain (park : Word) : System where
  data := mainData
  locked := fun _ => false
  msip := fun _ => false
  csr := mainCsrs park
  place := fun hart => .code (mainCsrs park hart).mepc (mpp (mainCsrs park hart).mstatus)

/-- Hart 1 after a first `hart_start`, and in the trap of its interrupt. -/
def firstStarting : System :=
  (hartStart 1 0x80060000 0x80200000 false (afterMain 0x80000100)).2

def firstTrap : System :=
  hartHandleMsip 1 (takeTrap 1 0x80000100 .machine firstStarting)

/-- Hart 1 at its target, and in its trap behind a first `hart_stop`. -/
def firstRunning : System :=
  Sbi.mret 1 firstTrap

def firstStopped : System :=
  (hartStop 0x80000100 1 false firstRunning).2

end Sbi
