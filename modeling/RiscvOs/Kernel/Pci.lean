import RiscvOs.Semantics.Word
import RiscvOs.Semantics.Transition
import Mathlib.Logic.Function.Basic

/-! `pci.c`, the addresses of the base address registers (BARs). The devices are
hardware: of every register some bits can be written and the others read as
fixed values, which is how the kernel finds the size of a BAR. -/
namespace Kernel.Pci

open Semantics Function

/-- Bus, slot and function, which select the `EcamHeader` of a device. -/
structure Address where
  bus : BitVec 8
  slot : BitVec 5
  function : BitVec 3
  deriving DecidableEq

/-- One of the registers `bar` of a device. A BAR decodes `2 ^ log` bytes of
memory; a 64-bit BAR takes two registers. -/
inductive BarRegister where
  | empty
  | low32 (log : Nat) (prefetch : Bool) (least : 4 ≤ log) (most : log < 32)
  | low64 (log : Nat) (prefetch : Bool) (least : 4 ≤ log) (most : log < 64)
  | high64 (log : Nat)

/-- A device with its registers. The upper half of a 64-bit BAR follows the
lower one, and no BAR leaves the six registers. -/
structure Device where
  vendorId : BitVec 16
  deviceId : BitVec 16
  reg : Nat → BarRegister
  paired : ∀ i log prefetch least most,
    reg i = .low64 log prefetch least most → reg (i + 1) = .high64 log
  upper : ∀ i log, reg (i + 1) = .high64 log →
    ∃ prefetch least most, reg i = .low64 log prefetch least most
  first : ∀ log, reg 0 ≠ .high64 log
  last : ∀ i, 5 < i → reg i = .empty

/-- The address bits that a BAR of `2 ^ log` bytes compares. -/
def mask32 (log : Nat) : BitVec 32 :=
  BitVec.allOnes 32 <<< log

def mask64 (log : Nat) : Word :=
  BitVec.allOnes 64 <<< log

def prefetchBit (prefetch : Bool) : BitVec 32 :=
  if prefetch then 8 else 0

/-- What a register reads as, if `latch` was written to it. -/
def BarRegister.read : BarRegister → BitVec 32 → BitVec 32
  | .empty, _ => 0
  | .low32 log prefetch _ _, latch => (latch &&& mask32 log) ||| prefetchBit prefetch
  | .low64 log prefetch _ _, latch =>
      (latch &&& (mask64 log).setWidth 32) ||| (4 ||| prefetchBit prefetch)
  | .high64 log, latch => latch &&& (mask64 log >>> 32).setWidth 32

/-- The bytes that a BAR decodes. -/
structure Range where
  base : Word
  size : Nat
  deriving DecidableEq

/-- Where the loops over the BARs of a device are. -/
inductive Place where
  | idle
  /-- `i` of `for (int i = 0; i < count; i++)`. -/
  | allocating (a : Address) (count i : Nat)
  deriving DecidableEq

/-- The values written to the registers, the globals, and as a record the ranges
that were given to BARs, the latest first. -/
structure State where
  latch : Address → Nat → BitVec 32
  barAddressFree : Word
  devCount : Word
  drivers : List (BitVec 16 × BitVec 16)
  place : Place
  given : List Range

variable (devices : Address → Device)

/-- `ecam->type0.bar[bar]` -/
def readBar (s : State) (a : Address) (bar : Nat) : BitVec 32 :=
  ((devices a).reg bar).read (s.latch a bar)

def writeBar (s : State) (a : Address) (bar : Nat) (value : BitVec 32) : State :=
  { s with latch := update s.latch a (update (s.latch a) bar value) }

/-- `(ecam->type0.bar[bar] >> 1) & 0b11` -/
def barType (value : BitVec 32) : BitVec 32 :=
  (value >>> 1) &&& 3

def pciGetBar (s : State) (a : Address) (bar : Nat) : Word :=
  let bartype := barType (readBar devices s a bar)
  if bar > 5 then 0
  else if bartype = 2 then
    ((readBar devices s a (bar + 1)).setWidth 64 <<< 32) ||| (readBar devices s a bar).setWidth 64
  else if bartype = 0 then (readBar devices s a bar).setWidth 64
  else -1

def pciSetBar (s : State) (a : Address) (bar : Nat) (value : Word) : State :=
  let bartype := barType (readBar devices s a bar)
  if bartype = 2 then
    writeBar (writeBar s a bar (value.setWidth 32)) a (bar + 1) ((value >>> 32).setWidth 32)
  else if bartype = 0 then writeBar s a bar (value.setWidth 32)
  else s

/-- The range that a BAR decodes. -/
def decodes (s : State) (a : Address) (bar : Nat) : Option Range :=
  match (devices a).reg bar with
  | .low32 log _ _ _ => some ⟨(s.latch a bar &&& mask32 log).setWidth 64, 2 ^ log⟩
  | .low64 log _ _ _ => some ⟨(s.latch a (bar + 1) ++ s.latch a bar) &&& mask64 log, 2 ^ log⟩
  | _ => none

/-- `pci_allocate_bar`, with its result. -/
def pciAllocateBar (s : State) (a : Address) (which : Nat) : Nat × State :=
  let s := pciSetBar devices s a which (-1)
  let bar := pciGetBar devices s a which &&& ~~~0xf#64
  if bar = 0 then (1, s)
  else
    let s := pciSetBar devices s a which (s.barAddressFree &&& bar)
    let s := { s with
      barAddressFree := s.barAddressFree + ((-bar &&& 0xffffffff#64) + 0x10000)
      given := (decodes devices s a which).toList ++ s.given }
    (if bar > 0xffffffff#64 then 2 else 1, s)

/-- One iteration of a loop over BARs; it skips the upper half of a 64-bit BAR. -/
def allocateIteration (s : State) (a : Address) (count i : Nat) : State :=
  let allocated := pciAllocateBar devices s a i
  { allocated.2 with
    place := .allocating a count (if allocated.1 = 2 then i + 2 else i + 1) }

/-- `bar_address_free` and `dev_count` at the end of every loop over BARs. -/
def nextDevice (s : State) : State :=
  let devCount := s.devCount + 1
  { s with devCount := devCount, barAddressFree := 0x40000000 + 0x100000 * devCount, place := .idle }

/-- `pci_register_driver` up to its loop. -/
def pciRegisterDriver (s : State) (a : Address) : State :=
  let id := ((devices a).vendorId, (devices a).deviceId)
  if id ∈ s.drivers then s
  else { s with drivers := id :: s.drivers, place := .allocating a 6 0 }

inductive Event where
  | register (a : Address)
  | configT1 (a : Address)
  | init (a : Address)
  | allocate
  | done

/-- `pci_register_driver`, `pci_config_t1` and the loops in `pci_init` itself,
for any devices in any order; every call of `pci_allocate_bar` is a step. -/
inductive Step : State → Event → State → Prop where
  | register {s : State} (a : Address) (hIdle : s.place = .idle) :
      Step s (.register a) (pciRegisterDriver devices s a)
  | configT1 {s : State} (a : Address) (hIdle : s.place = .idle) :
      Step s (.configT1 a) { s with place := .allocating a 2 0 }
  | init {s : State} (a : Address) (hIdle : s.place = .idle)
      (hLoop : a ∈ [⟨2, 2, 0⟩, ⟨2, 3, 0⟩, ⟨1, 1, 0⟩]) :
      Step s (.init a) { s with place := .allocating a 6 0 }
  | allocate {s : State} (a : Address) (count i : Nat) (hPlace : s.place = .allocating a count i)
      (hMore : i < count) : Step s .allocate (allocateIteration devices s a count i)
  | done {s : State} (a : Address) (count i : Nat) (hPlace : s.place = .allocating a count i)
      (hEnd : ¬ i < count) : Step s .done (nextDevice s)

/-- The globals before `pci_init`. -/
def start (latch : Address → Nat → BitVec 32) : State where
  latch := latch
  barAddressFree := 0x40000000
  devCount := 0
  drivers := []
  place := .idle
  given := []

/-- Between the ranges that were given and `bar_address_free` lies a multiple of
the size. -/
def Reaches (s : State) (size : Nat) : Prop :=
  ∃ address, size ∣ address ∧ address ≤ s.barAddressFree.toNat ∧
    ∀ r ∈ s.given, r.base.toNat + r.size ≤ address

/-- The condition for `pci_allocate_bar`; a 32-bit BAR also needs a free address
of 32 bits. -/
def Room (s : State) : Event → Prop
  | .allocate =>
      match s.place with
      | .idle => True
      | .allocating a _ i =>
          match (devices a).reg i with
          | .low32 log _ _ _ => s.barAddressFree.toNat < 2 ^ 32 ∧ Reaches s (2 ^ log)
          | .low64 log _ _ _ => Reaches s (2 ^ log)
          | _ => True
  | _ => True

end Kernel.Pci
