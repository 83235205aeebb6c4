import RiscvOs.Kernel.Virtio

/-! `virtioblk.c`: requests to the three block devices. The functions for the
minix and the ext4 device are copies of those for the first one. -/
namespace Kernel.Virtioblk

open Semantics Function Virtio

/-- `VirtioBlkHeader` -/
structure VirtioBlkHeader where
  type : BitVec 32
  reserved : BitVec 32
  sector : Word
  deriving DecidableEq

/-- `BlockRequest` -/
structure BlockRequest where
  hdr : VirtioBlkHeader
  data : Word
  status : BitVec 8
  head : BitVec 16
  deriving DecidableEq

/-- `VIRTIO_BLK_T_IN` -/
def virtioBlkTIn : BitVec 32 := 0

/-- `VIRTIO_BLK_T_OUT` -/
def virtioBlkTOut : BitVec 32 := 1

/-- `sizeof(VirtioBlkHeader)` -/
def sizeofHeader : BitVec 32 := 16

/-- The offset of `status` in `BlockRequest`. -/
def statusOffset : Word := 24

/-- The value of the status byte when the request succeeded. -/
def statusOk : BitVec 8 := 0

/-- A request on its way: its number on the device, the value of `at_idx` when
it was made, its descriptors, and the block request. -/
structure DiskRequest where
  number : Nat
  cursor : BitVec 16
  hdrDesc : BitVec 16
  dataDesc : BitVec 16
  statusDesc : BitVec 16
  rq : BlockRequest
  deriving DecidableEq

def DiskRequest.descs (r : DiskRequest) : List (BitVec 16) :=
  [r.hdrDesc, r.dataDesc, r.statusDesc]

/-- A block device with its block size, the number of requests made, and as a
record the requests that the device has not completed and those that it has. -/
structure Disk where
  dev : VirtioConfigLoc
  blkSize : BitVec 32
  made : Nat
  pending : List DiskRequest
  done : List DiskRequest

/-- `(at_idx + i) % (queue_size - 1)` -/
def descIndex (dev : VirtioConfigLoc) (i : Nat) : BitVec 16 :=
  BitVec.ofNat 16 ((dev.atIdx.toNat + i) % (dev.queueSize.toNat - 1))

/-- The arguments of a request, with the address `rq` of the zeroed block
request and the translation by the kernel table. -/
structure RwArgs where
  buff : Word
  byteStart : Word
  byteEnd : Word
  rw : Int
  rq : Word
  translate : Word → Word

/-- What `minix3.c` and `ext4.c` pass when they read a block: the address of its
first byte, and its size as the parameter `byte_end`. -/
structure BlockRead where
  byte : Word
  size : Word
  deriving DecidableEq

/-- `minix_disk_rw(buff, byte, size, 0)` and `ext4_disk_rw(buff, byte, size, 0)` -/
def BlockRead.args (read : BlockRead) (buff rq : Word) (translate : Word → Word) : RwArgs where
  buff := buff
  byteStart := read.byte
  byteEnd := read.size
  rw := 0
  rq := rq
  translate := translate

/-- The block request that is filled in. -/
def blockRequest (blkSize : BitVec 32) (hdrDesc : BitVec 16) (args : RwArgs) : BlockRequest where
  hdr :=
    { type := if args.rw = 0 then virtioBlkTIn else virtioBlkTOut
      reserved := 0
      sector := args.byteStart / blkSize.setWidth 64 }
  data := args.buff
  status := 99
  head := if args.rw = 0 then hdrDesc else 0

/-- The descriptors of the header, the data and the status. -/
def hdrEntry (dataDesc : BitVec 16) (args : RwArgs) : VirtqDesc where
  addr := args.translate args.rq
  len := sizeofHeader
  flags := descNext
  next := dataDesc

def dataEntry (statusDesc : BitVec 16) (args : RwArgs) : VirtqDesc where
  addr := args.translate args.buff
  len := (args.byteEnd - args.byteStart).setWidth 32
  flags := if args.rw = 0 then descNext ||| descWrite else descNext
  next := statusDesc

def statusEntry (args : RwArgs) : VirtqDesc where
  addr := args.translate (args.rq + statusOffset)
  len := 1
  flags := descWrite
  next := 0

/-- A request up to the write to the notify register. -/
def diskRw (args : RwArgs) (disk : Disk) : Disk :=
  let hdrDesc := descIndex disk.dev 0
  let dataDesc := descIndex disk.dev 1
  let statusDesc := descIndex disk.dev 2
  let desc := update (update (update disk.dev.desc
    hdrDesc.toNat (hdrEntry dataDesc args))
    dataDesc.toNat (dataEntry statusDesc args))
    statusDesc.toNat (statusEntry args)
  { disk with
    dev := offer hdrDesc { disk.dev with atIdx := disk.dev.atIdx + 3, desc := desc }
    made := disk.made + 1
    pending := disk.pending ++ [⟨disk.made, disk.dev.atIdx, hdrDesc, dataDesc, statusDesc,
      blockRequest disk.blkSize hdrDesc args⟩] }

/-- The device completes a request with a status. -/
def diskComplete (r : DiskRequest) (status : BitVec 8) (disk : Disk) : Disk :=
  { disk with
    dev := addUsed r.hdrDesc 0 disk.dev
    pending := disk.pending.erase r
    done := disk.done ++ [{ r with rq.status := status }] }

/-- The loop of the interrupt handlers; `2 ^ 16` passes reach the index. -/
def isrLoop : Nat → VirtioConfigLoc → VirtioConfigLoc
  | 0, dev => dev
  | fuel + 1, dev =>
      if dev.atIdx ≠ dev.deviceIdx then isrLoop fuel { dev with atIdx := dev.atIdx + 1 } else dev

def diskIsr (disk : Disk) : Disk :=
  { disk with dev := isrLoop (2 ^ 16) disk.dev }

/-- `pci_blk_device`, `minix_blk_device` and `ext4_blk_device` -/
inductive DiskName where
  | pciBlk
  | minixBlk
  | ext4Blk
  deriving DecidableEq

abbrev Disks := DiskName → Disk

def virtioDiskRw (args : RwArgs) (disks : Disks) : Disks :=
  update disks .pciBlk (diskRw args (disks .pciBlk))

def minixDiskRw (args : RwArgs) (disks : Disks) : Disks :=
  update disks .minixBlk (diskRw args (disks .minixBlk))

def ext4DiskRw (args : RwArgs) (disks : Disks) : Disks :=
  update disks .ext4Blk (diskRw args (disks .ext4Blk))

/-- The request function of a device. -/
def rwOf : DiskName → RwArgs → Disks → Disks
  | .pciBlk => virtioDiskRw
  | .minixBlk => minixDiskRw
  | .ext4Blk => ext4DiskRw

def virtioDiskIsr (disks : Disks) : Disks :=
  update disks .pciBlk (diskIsr (disks .pciBlk))

def minixDiskIsr (disks : Disks) : Disks :=
  update disks .minixBlk (diskIsr (disks .minixBlk))

def ext4DiskIsr (disks : Disks) : Disks :=
  update disks .ext4Blk (diskIsr (disks .ext4Blk))

/-- The interrupt handler of a device. -/
def isrOf : DiskName → Disks → Disks
  | .pciBlk => virtioDiskIsr
  | .minixBlk => minixDiskIsr
  | .ext4Blk => ext4DiskIsr

theorem rwOf_eq (name : DiskName) (args : RwArgs) (disks : Disks) :
    rwOf name args disks = update disks name (diskRw args (disks name)) := by
  cases name <;> rfl

theorem isrOf_eq (name : DiskName) (disks : Disks) :
    isrOf name disks = update disks name (diskIsr (disks name)) := by
  cases name <;> rfl

/-- After `pci_init`. -/
def Disk.fresh (queueSize : BitVec 16) (blkSize : BitVec 32) : Disk where
  dev := .fresh queueSize
  blkSize := blkSize
  made := 0
  pending := []
  done := []

inductive DiskEvent where
  | rw (name : DiskName) (args : RwArgs)
  | complete (name : DiskName) (r : DiskRequest) (status : BitVec 8)
  | isr (name : DiskName)

/-- Requests, completions and interrupts in any order. -/
inductive DiskStep : Disks → DiskEvent → Disks → Prop where
  | rw (disks : Disks) (name : DiskName) (args : RwArgs) :
      DiskStep disks (.rw name args) (rwOf name args disks)
  | complete {disks : Disks} {name : DiskName} {r : DiskRequest} (status : BitVec 8)
      (pending : r ∈ (disks name).pending) :
      DiskStep disks (.complete name r status)
        (update disks name (diskComplete r status (disks name)))
  | isr (disks : Disks) (name : DiskName) : DiskStep disks (.isr name) (isrOf name disks)

/-- Where a call that reads is: in the loop after its request, with the tests
of the loop so far. -/
inductive ReadPlace where
  | idle
  | polling (name : DiskName) (number tests : Nat)
  deriving DecidableEq

structure Reading where
  disks : Disks
  place : ReadPlace

inductive ReadEvent where
  | call (name : DiskName) (args : RwArgs)
  | test
  | complete (name : DiskName) (r : DiskRequest) (status : BitVec 8)
  | isr (name : DiskName)

/-- One test of the loop of a call that reads; it returns `true` when the two
indices differ. -/
def readTest (name : DiskName) (number tests : Nat) (s : Reading) : Reading :=
  if (s.disks name).dev.deviceIdx = (s.disks name).dev.atIdx then
    { s with place := .polling name number (tests + 1) }
  else { s with place := .idle }

/-- Calls that read, one after the other, with completions and interrupts in
between and during them. -/
inductive ReadStep : Reading → ReadEvent → Reading → Prop where
  | call {s : Reading} {name : DiskName} {args : RwArgs} (idle : s.place = .idle)
      (reads : args.rw = 0) :
      ReadStep s (.call name args)
        { disks := rwOf name args s.disks, place := .polling name (s.disks name).made 0 }
  | test {s : Reading} {name : DiskName} {number tests : Nat}
      (place : s.place = .polling name number tests) :
      ReadStep s .test (readTest name number tests s)
  | complete {s : Reading} {name : DiskName} {r : DiskRequest} (status : BitVec 8)
      (pending : r ∈ (s.disks name).pending) :
      ReadStep s (.complete name r status)
        { s with disks := update s.disks name (diskComplete r status (s.disks name)) }
  | isr (s : Reading) (name : DiskName) :
      ReadStep s (.isr name) { s with disks := isrOf name s.disks }

end Kernel.Virtioblk
