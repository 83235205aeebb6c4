import RiscvOs.Semantics.Memory
import RiscvOs.Semantics.Transition
import RiscvOs.Semantics.Counter
import Mathlib.Logic.Function.Basic

/-! `virtio.c`: the rings that a driver shares with a virtio device, and the
entropy device. The table of descriptors and the rings are indexed by numbers;
an index from the queue size on lies outside the memory of its ring. -/
namespace Kernel.Virtio

open Semantics Function

/-- `struct virtq_desc` -/
structure VirtqDesc where
  addr : Word
  len : BitVec 32
  flags : BitVec 16
  next : BitVec 16
  deriving DecidableEq

/-- `struct virtq_used_elem` -/
structure VirtqUsedElem where
  id : BitVec 32
  len : BitVec 32
  deriving DecidableEq

/-- `struct virtio_config_loc`, with the queue size of its `common_cfg`. -/
structure VirtioConfigLoc where
  queueSize : BitVec 16
  desc : Nat → VirtqDesc
  driverRing : Nat → BitVec 16
  driverIdx : BitVec 16
  deviceRing : Nat → VirtqUsedElem
  deviceIdx : BitVec 16
  atIdx : BitVec 16
  enabled : Bool

/-- A device after `pci_init`: its rings are zero. -/
def VirtioConfigLoc.fresh (queueSize : BitVec 16) : VirtioConfigLoc where
  queueSize := queueSize
  desc := fun _ => ⟨0, 0, 0, 0⟩
  driverRing := fun _ => 0
  driverIdx := 0
  deviceRing := fun _ => ⟨0, 0⟩
  deviceIdx := 0
  atIdx := 0
  enabled := true

/-- `VIRTQ_DESC_F_NEXT` -/
def descNext : BitVec 16 := 1

/-- `VIRTQ_DESC_F_WRITE` -/
def descWrite : BitVec 16 := 2

/-- The queue size is a power of two. -/
def PowerOfTwo (queueSize : BitVec 16) : Prop :=
  ∃ k, queueSize.toNat = 2 ^ k

theorem PowerOfTwo.dvd {queueSize : BitVec 16} (h : PowerOfTwo queueSize) :
    queueSize.toNat ∣ 2 ^ 16 := by
  obtain ⟨k, hk⟩ := h
  exact dvd_two_pow_of_lt hk queueSize.isLt

theorem PowerOfTwo.pos {queueSize : BitVec 16} (h : PowerOfTwo queueSize) :
    0 < queueSize.toNat := by
  obtain ⟨k, hk⟩ := h
  rw [hk]
  exact Nat.two_pow_pos k

theorem PowerOfTwo.le {queueSize : BitVec 16} (h : PowerOfTwo queueSize) :
    queueSize.toNat ≤ 2 ^ 15 := by
  obtain ⟨k, hk⟩ := h
  have hLt := queueSize.isLt
  rw [hk] at hLt ⊢
  have hk' := (Nat.pow_lt_pow_iff_right (by decide)).mp hLt
  exact Nat.pow_le_pow_right (by decide) (by omega)

/-- `driver->ring[driver->idx % queue_size] = head; driver->idx += 1` -/
def offer (head : BitVec 16) (dev : VirtioConfigLoc) : VirtioConfigLoc :=
  { dev with
    driverRing := update dev.driverRing (dev.driverIdx.toNat % dev.queueSize.toNat) head
    driverIdx := dev.driverIdx + 1 }

/-- The device puts the completion of a chain on its ring. -/
def addUsed (head : BitVec 16) (len : BitVec 32) (dev : VirtioConfigLoc) : VirtioConfigLoc :=
  { dev with
    deviceRing := update dev.deviceRing (dev.deviceIdx.toNat % dev.queueSize.toNat)
      ⟨head.setWidth 32, len⟩
    deviceIdx := dev.deviceIdx + 1 }

/-- `rng_fill` up to its write to the notify register; `phys` is the physical
address of the buffer. -/
def rngSubmit (phys : Word) (size : BitVec 16) (dev : VirtioConfigLoc) : VirtioConfigLoc :=
  let dev' := offer dev.atIdx { dev with
    desc := update dev.desc dev.atIdx.toNat
      { addr := phys, len := size.setWidth 32, flags := descWrite, next := 0 } }
  { dev' with
    atIdx := BitVec.ofNat 16 ((dev.atIdx.toNat + 1) % dev.queueSize.toNat) }

/-- A request of `rng_fill`, with its number among the requests. -/
structure RngRequest where
  number : Nat
  desc : BitVec 16
  phys : Word
  size : BitVec 16
  deriving DecidableEq

/-- Where `rng_fill` is: in the loop after its request, with the number of
passes of the loop so far. -/
inductive RngPlace where
  | idle
  | spinning (number passes : Nat)
  deriving DecidableEq

/-- The entropy device, `rng_fill`, and as a record the requests that the
device has not completed and those that it has filled. -/
structure Rng where
  dev : VirtioConfigLoc
  place : RngPlace
  made : Nat
  pending : List RngRequest
  filled : List RngRequest

/-- A call of `rng_fill` that finds the device enabled, up to its loop. -/
def rngFill (phys : Word) (size : BitVec 16) (s : Rng) : Rng :=
  { s with
    dev := rngSubmit phys size s.dev
    place := .spinning s.made 0
    made := s.made + 1
    pending := s.pending ++ [⟨s.made, s.dev.atIdx, phys, size⟩] }

/-- One test of the loop of `rng_fill`; the call returns `true` when it fails. -/
def rngPass (number passes : Nat) (s : Rng) : Rng :=
  if s.dev.atIdx ≠ s.dev.deviceIdx then
    { s with dev.atIdx := s.dev.atIdx + 1, place := .spinning number (passes + 1) }
  else { s with place := .idle }

/-- The device completes a request. -/
def rngComplete (r : RngRequest) (s : Rng) : Rng :=
  { s with
    dev := addUsed r.desc (r.size.setWidth 32) s.dev
    pending := s.pending.erase r
    filled := s.filled ++ [r] }

inductive RngEvent where
  | call (phys : Word) (size : BitVec 16)
  | refused
  | pass
  | complete (r : RngRequest)
  deriving DecidableEq

/-- Calls of `rng_fill` one after the other, with completions in between and
during them. -/
inductive RngStep : Rng → RngEvent → Rng → Prop where
  | call {s : Rng} {phys : Word} {size : BitVec 16} (idle : s.place = .idle)
      (enabled : s.dev.enabled = true) : RngStep s (.call phys size) (rngFill phys size s)
  | refused {s : Rng} (idle : s.place = .idle) (disabled : s.dev.enabled = false) :
      RngStep s .refused s
  | pass {s : Rng} {number passes : Nat} (place : s.place = .spinning number passes) :
      RngStep s .pass (rngPass number passes s)
  | complete {s : Rng} {r : RngRequest} (pending : r ∈ s.pending) :
      RngStep s (.complete r) (rngComplete r s)

/-- After `pci_init`; `virtio_rng_device_init` enables the device. -/
def rngInitial (queueSize : BitVec 16) (enabled : Bool) : Rng where
  dev := { VirtioConfigLoc.fresh queueSize with enabled := enabled }
  place := .idle
  made := 0
  pending := []
  filled := []

end Kernel.Virtio
