import RiscvOs.Kernel.Virtio
import RiscvOs.Semantics.Circular

/-! `virtio_inp.c`, the event queue of an input device, and the branch of
`PciDriver_claim_irq` (`pci.c`) that reads it. The branch for the keyboard is a
copy of the one for the pointer. -/
namespace Kernel.VirtioInp

open Semantics Function Virtio

/-- `VirtioIptDevice`, with the queue size of its `common`. -/
structure VirtioIptDevice where
  queueSize : BitVec 16
  qdesc : Nat → VirtqDesc
  driverRing : Nat → BitVec 16
  driverIdx : BitVec 16
  deviceRing : Nat → VirtqUsedElem
  deviceIdx : BitVec 16
  drvidx : BitVec 16
  devidx : BitVec 16

/-- A device whose structure and rings are zero. -/
def VirtioIptDevice.zero (queueSize : BitVec 16) : VirtioIptDevice where
  queueSize := queueSize
  qdesc := fun _ => ⟨0, 0, 0, 0⟩
  driverRing := fun _ => 0
  driverIdx := 0
  deviceRing := fun _ => ⟨0, 0⟩
  deviceIdx := 0
  drvidx := 0
  devidx := 0

/-- `evts + i` -/
def eventAddr (evts : Word) (i : Nat) : Word :=
  evts + BitVec.ofNat 64 (8 * i)

/-- One iteration of the loop of `virtio_input_init`. -/
def inputDesc (translate : Word → Word) (evts : Word) (ipt : VirtioIptDevice) (i : Nat) :
    VirtioIptDevice :=
  { ipt with
    qdesc := update ipt.qdesc i
      { addr := translate (eventAddr evts i), len := 8, flags := descWrite, next := 0 }
    driverRing := update ipt.driverRing (ipt.drvidx.toNat % ipt.queueSize.toNat) (BitVec.ofNat 16 i)
    drvidx := ipt.drvidx + 1 }

/-- `virtio_input_init` with the queue size that the device grants; `evts` is
the page of the events, `translate` the translation by the kernel table. -/
def virtioInputInit (translate : Word → Word) (evts : Word) (queueSize : BitVec 16) :
    VirtioIptDevice :=
  let ipt := (List.range queueSize.toNat).foldl (inputDesc translate evts) (.zero queueSize)
  { ipt with driverIdx := ipt.driverIdx + ipt.queueSize }

/-- Where the branch of `PciDriver_claim_irq` is. -/
inductive IrqPlace where
  | idle
  /-- At the test of the loop. -/
  | testing
  /-- At the call of `ring_push`. -/
  | pushing
  /-- At `qdriver->idx += 1`. -/
  | offering
  /-- At `devidx += 1`. -/
  | advancing
  deriving DecidableEq

/-- The physical memory, the queue, the place of the branch, and the side of
the device: how many buffers it has taken from the driver ring (as an index),
and the descriptors taken and not returned. -/
structure Input where
  mem : Memory
  ipt : VirtioIptDevice
  place : IrqPlace
  lastAvail : BitVec 16
  taken : List (BitVec 16)

/-- The completion at `devidx`. -/
def currentElem (ipt : VirtioIptDevice) : VirtqUsedElem :=
  ipt.deviceRing (ipt.devidx.toNat % ipt.queueSize.toNat)

/-- `pack_event`, a load through the kernel table. -/
def packEvent (translate : Word → Word) (m : Memory) (evaddr : Word) : Word :=
  m.load64 (translate evaddr)

/-- One access of the branch, with the value passed to `ring_push` if it is that
call; from `idle` it is a new interrupt. -/
def irqAccess (translate : Word → Word) (s : Input) : Option Word × Input :=
  match s.place with
  | .idle => (none, { s with place := .testing })
  | .testing =>
      if s.ipt.devidx ≠ s.ipt.deviceIdx then (none, { s with place := .pushing })
      else (none, { s with place := .idle })
  | .pushing =>
      let desc := s.ipt.qdesc (currentElem s.ipt).id.toNat
      (some (packEvent translate s.mem desc.addr), { s with place := .offering })
  | .offering => (none, { s with place := .advancing, ipt.driverIdx := s.ipt.driverIdx + 1 })
  | .advancing => (none, { s with place := .testing, ipt.devidx := s.ipt.devidx + 1 })

/-- The device takes the next buffer of the driver ring. -/
def deviceTake (s : Input) : Input :=
  { s with
    lastAvail := s.lastAvail + 1
    taken := s.taken ++ [s.ipt.driverRing (s.lastAvail.toNat % s.ipt.queueSize.toNat)] }

/-- The device writes an event into the buffer of a descriptor and returns it. -/
def deviceReturn (head : BitVec 16) (rest : List (BitVec 16)) (event : Word) (s : Input) : Input :=
  { s with
    mem := s.mem.store64 (s.ipt.qdesc head.toNat).addr event
    ipt.deviceRing := update s.ipt.deviceRing (s.ipt.deviceIdx.toNat % s.ipt.queueSize.toNat)
      ⟨head.setWidth 32, 8⟩
    ipt.deviceIdx := s.ipt.deviceIdx + 1
    taken := rest }

/-- An access of the branch with the value that it passes to `ring_push`, or a
step of the device. -/
inductive InputEvent where
  | irq (push : Option Word)
  | take
  | write (event : Word)
  deriving DecidableEq

/-- The branch and the device, in any order. The device takes the buffers that
are on the driver ring and returns them in that order. -/
inductive InputStep (translate : Word → Word) : Input → InputEvent → Input → Prop where
  | irq {s t : Input} {push : Option Word} (access : irqAccess translate s = (push, t)) :
      InputStep translate s (.irq push) t
  | take {s : Input} (offered : s.lastAvail ≠ s.ipt.driverIdx) :
      InputStep translate s .take (deviceTake s)
  | write {s : Input} {head : BitVec 16} {rest : List (BitVec 16)} (event : Word)
      (taken : s.taken = head :: rest) :
      InputStep translate s (.write event) (deviceReturn head rest event s)

/-- After `virtio_input_init`. -/
def inputInitial (translate : Word → Word) (evts : Word) (queueSize : BitVec 16) (m : Memory) :
    Input where
  mem := m
  ipt := virtioInputInit translate evts queueSize
  place := .idle
  lastAvail := 0
  taken := []

/-- The values passed to `ring_push`. -/
def pushes (events : List InputEvent) : List Word :=
  events.filterMap fun
    | .irq push => push
    | _ => none

/-- The events that the device wrote. -/
def writes (events : List InputEvent) : List Word :=
  events.filterMap fun
    | .write event => some event
    | _ => none

/-- The descriptors that the device may take or has taken. -/
def offered (s : Input) : List (BitVec 16) :=
  s.taken ++ window s.ipt.driverRing s.ipt.queueSize.toNat s.lastAvail.toNat
    (s.ipt.driverIdx - s.lastAvail).toNat

/-- The event of the completion at `devidx` was passed to `ring_push`. -/
def PassedOn (place : IrqPlace) : Prop :=
  place = .offering ∨ place = .advancing

instance (place : IrqPlace) : Decidable (PassedOn place) :=
  inferInstanceAs (Decidable (_ ∨ _))

/-- The completions whose events were not yet passed to `ring_push`. -/
def unread (s : Input) : List VirtqUsedElem :=
  (window s.ipt.deviceRing s.ipt.queueSize.toNat s.ipt.devidx.toNat
    (s.ipt.deviceIdx - s.ipt.devidx).toNat).drop (if PassedOn s.place then 1 else 0)

end Kernel.VirtioInp
