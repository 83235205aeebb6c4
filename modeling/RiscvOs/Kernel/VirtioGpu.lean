import RiscvOs.Kernel.Virtio

/-! `virtio_gpu_wait` (`virtio_gpu.c`) and the GPU branch of
`PciDriver_claim_irq` (`pci.c`). A call puts a chain of descriptors on the
driver ring and then looks for the head of its chain on the device ring, from
the index `devidx` on, which the interrupt branch moves. -/
namespace Kernel.VirtioGpu

open Semantics Function Virtio

/-- `Virt_GPU_Device`, with the queue size of its `common`. -/
structure VirtGpuDevice where
  queueSize : BitVec 16
  qdesc : Nat → VirtqDesc
  driverRing : Nat → BitVec 16
  driverIdx : BitVec 16
  deviceRing : Nat → VirtqUsedElem
  deviceIdx : BitVec 16
  drvidx : BitVec 16
  devidx : BitVec 16

/-- After `virtio_gpu_init`. -/
def VirtGpuDevice.zero (queueSize : BitVec 16) : VirtGpuDevice where
  queueSize := queueSize
  qdesc := fun _ => ⟨0, 0, 0, 0⟩
  driverRing := fun _ => 0
  driverIdx := 0
  deviceRing := fun _ => ⟨0, 0⟩
  deviceIdx := 0
  drvidx := 0
  devidx := 0

/-- The arguments of `virtio_gpu_wait`, with the translation by the kernel
table; a `NULL` buffer is left out of the chain. -/
structure GpuArgs where
  rq : Word
  rqSize : BitVec 32
  data : Word
  dataSize : BitVec 32
  resp : Word
  respSize : BitVec 32
  write : Bool
  translate : Word → Word

/-- `which % queue_size` -/
def slot (dev : VirtGpuDevice) (idx : BitVec 16) : Nat :=
  idx.toNat % dev.queueSize.toNat

/-- `(desc + 1) % queue_size` -/
def nextDesc (dev : VirtGpuDevice) (desc : BitVec 16) : BitVec 16 :=
  (desc + 1) % dev.queueSize

/-- The last descriptor of the chain leads to `next`. -/
def linkDesc (desc next : BitVec 16) (dev : VirtGpuDevice) : VirtGpuDevice :=
  { dev with qdesc := update dev.qdesc desc.toNat { dev.qdesc desc.toNat with
      flags := (dev.qdesc desc.toNat).flags ||| descNext
      next := next } }

/-- The chain gets a descriptor; `drvidx` counts it. -/
def addDesc (desc : BitVec 16) (entry : VirtqDesc) (dev : VirtGpuDevice) : VirtGpuDevice :=
  { dev with
    qdesc := update dev.qdesc desc.toNat entry
    drvidx := dev.drvidx + 1 }

/-- The descriptor of the request. -/
def addRequest (args : GpuArgs) (desc : BitVec 16) (dev : VirtGpuDevice) : VirtGpuDevice :=
  addDesc desc { dev.qdesc desc.toNat with
    addr := args.translate args.rq, len := args.rqSize, flags := 0 } dev

/-- The descriptor of the data, if there are any, after `desc`. -/
def addData (args : GpuArgs) (desc : BitVec 16) (dev : VirtGpuDevice) : BitVec 16 × VirtGpuDevice :=
  if args.data = 0 then (desc, dev)
  else
    let next := nextDesc dev desc
    let dev := linkDesc desc next dev
    (next, addDesc next { dev.qdesc next.toNat with
      addr := args.translate args.data
      len := args.dataSize
      flags := if args.write then 0 else descWrite } dev)

/-- The descriptor of the response, if there is one, after `desc`. -/
def addResponse (args : GpuArgs) (desc : BitVec 16) (dev : VirtGpuDevice) : VirtGpuDevice :=
  if args.resp = 0 then dev
  else
    let next := nextDesc dev desc
    addDesc next
      { addr := args.translate args.resp, len := args.respSize, flags := descWrite, next := 0 }
      (linkDesc desc next dev)

/-- `driver->ring[driver->idx % queue_size] = head; driver->idx += 1` -/
def offerHead (head : BitVec 16) (dev : VirtGpuDevice) : VirtGpuDevice :=
  { dev with
    driverRing := update dev.driverRing (slot dev dev.driverIdx) head
    driverIdx := dev.driverIdx + 1 }

/-- The head of the next chain. -/
def headOf (dev : VirtGpuDevice) : BitVec 16 :=
  dev.drvidx % dev.queueSize

/-- `virtio_gpu_wait` up to its write to the notify register. -/
def gpuSubmit (args : GpuArgs) (dev : VirtGpuDevice) : VirtGpuDevice :=
  let head := headOf dev
  let (desc, dev') := addData args head (addRequest args head dev)
  offerHead head (addResponse args desc dev')

/-- Where a call is. -/
inductive WaitPlace where
  | absent
  /-- The chain is submitted, `gdev->devidx` not yet loaded. -/
  | submitted
  /-- In the loop, at the given element of the device ring. -/
  | scanning (desc : BitVec 16)
  | returned
  deriving DecidableEq

/-- The device, the calls by their numbers, and as a record the chains that the
device has not completed and for each slot of the device ring the chain whose
completion it holds. -/
structure Gpu where
  dev : VirtGpuDevice
  made : Nat
  head : Nat → BitVec 16
  place : Nat → WaitPlace
  pending : Nat → Bool
  owner : Nat → Option Nat

/-- A call submits its chain. -/
def submit (args : GpuArgs) (s : Gpu) : Gpu where
  dev := gpuSubmit args s.dev
  made := s.made + 1
  head := update s.head s.made (headOf s.dev)
  place := update s.place s.made .submitted
  pending := update s.pending s.made true
  owner := s.owner

/-- `desc = gdev->devidx` -/
def load (n : Nat) (s : Gpu) : Gpu :=
  { s with place := update s.place n (.scanning s.dev.devidx) }

/-- One pass of the loop of a call. -/
def scan (n : Nat) (desc : BitVec 16) (s : Gpu) : Gpu :=
  if desc = s.dev.deviceIdx then s
  else if (s.dev.deviceRing (slot s.dev desc)).id = (s.head n).setWidth 32 then
    { s with place := update s.place n .returned }
  else { s with place := update s.place n (.scanning (desc + 1)) }

/-- The device completes a chain. -/
def complete (n : Nat) (len : BitVec 32) (s : Gpu) : Gpu :=
  { s with
    dev.deviceRing := update s.dev.deviceRing (slot s.dev s.dev.deviceIdx)
      ⟨(s.head n).setWidth 32, len⟩
    dev.deviceIdx := s.dev.deviceIdx + 1
    pending := update s.pending n false
    owner := update s.owner (slot s.dev s.dev.deviceIdx) (some n) }

/-- One pass of the loop of the interrupt branch. -/
def irqPass (s : Gpu) : Gpu :=
  { s with dev.devidx := s.dev.devidx + 1 }

inductive GpuEvent where
  | submit (args : GpuArgs)
  | load (n : Nat)
  | scan (n : Nat)
  | complete (n : Nat) (len : BitVec 32)
  | irq

/-- Calls, completions of chains and passes of the interrupt branch, in any
order; the submission of a chain is one step. -/
inductive GpuStep : Gpu → GpuEvent → Gpu → Prop where
  | submit (s : Gpu) (args : GpuArgs) :
      GpuStep s (.submit args) (VirtioGpu.submit args s)
  | load {s : Gpu} {n : Nat} (place : s.place n = .submitted) :
      GpuStep s (.load n) (VirtioGpu.load n s)
  | scan {s : Gpu} {n : Nat} {desc : BitVec 16} (place : s.place n = .scanning desc) :
      GpuStep s (.scan n) (VirtioGpu.scan n desc s)
  | complete {s : Gpu} {n : Nat} (pending : s.pending n = true) (len : BitVec 32) :
      GpuStep s (.complete n len) (VirtioGpu.complete n len s)
  | irq {s : Gpu} (behind : s.dev.devidx ≠ s.dev.deviceIdx) :
      GpuStep s .irq (irqPass s)

def gpuInitial (queueSize : BitVec 16) : Gpu where
  dev := .zero queueSize
  made := 0
  head := fun _ => 0
  place := fun _ => .absent
  pending := fun _ => false
  owner := fun _ => none

/-- The element from which a waiting call goes on. -/
def cursor (s : Gpu) (n : Nat) : Option (BitVec 16) :=
  match s.place n with
  | .submitted => some s.dev.devidx
  | .scanning desc => some desc
  | _ => none

/-- The number of elements that the device has added from an index on. -/
def added (dev : VirtGpuDevice) (idx : BitVec 16) : Nat :=
  (dev.deviceIdx - idx).toNat

end Kernel.VirtioGpu
