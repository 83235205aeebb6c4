import RiscvOs.Semantics.Chain
import RiscvOs.Semantics.Memory
import Mathlib.Data.List.Induction

/-! `pci_cape_ptr_check` of `pci.c`: the walk over the capabilities of a device,
which notes in the device's structure where its registers are. The messages to
the console are left out. -/
namespace Kernel.PciCapes

open Semantics Function

/-- The structures that the kernel keeps for its devices. -/
inductive Location where
  | entropy
  | blk
  | minix
  | ext4
  | gdev
  | ipt
  | keyboard
  deriving DecidableEq

/-- The fields that the walk assigns; `common_cfg`, `notify_cap` and `isr_cap` are
`common`, `notify` and `isr` here. -/
inductive Field where
  | common
  | notify
  | isr
  | t4
  | qnotmult
  | qnotaddr
  | baraddr
  deriving DecidableEq

abbrev Structures := Location → Field → Word

def Structures.assign (d : Structures) (s : Location) (field : Field) (value : Word) : Structures :=
  update d s (update (d s) field value)

@[simp] theorem Structures.assign_same (d : Structures) (s : Location) (field : Field) (value : Word) :
    d.assign s field value s field = value := by
  simp [Structures.assign]

@[simp] theorem Structures.assign_of_ne (d : Structures) (s : Location) {field other : Field}
    (value : Word) (h : other ≠ field) : d.assign s field value s other = d s other := by
  simp [Structures.assign, h]

/-- The cases of `cfg_type` that assign fields. -/
inductive CfgType where
  | common
  | notify
  | isr
  | device
  deriving DecidableEq

/-- `VIRTIO_PCI_CAP_PCI_CFG` and unknown types have no case. -/
def cfgCase (cfgType : Byte) : Option CfgType :=
  match cfgType.toNat with
  | 1 => some .common
  | 2 => some .notify
  | 3 => some .isr
  | 4 => some .device
  | _ => none

def pciGetEcam (bus device function : BitVec 8) (reg : BitVec 16) : Word :=
  0x30000000 ||| (bus.setWidth 64 <<< 20) ||| ((device.setWidth 64 &&& 0x1f) <<< 15) |||
    ((function.setWidth 64 &&& 0x7) <<< 12) ||| ((reg.setWidth 64 &&& 0x3ff) <<< 2)

/-- The arguments of `pci_cape_ptr_check`, and the memory with the configuration
spaces. -/
structure Config where
  m : Memory
  bus : BitVec 16
  slot : BitVec 16

namespace Config

variable (config : Config)

def ecam : Word :=
  pciGetEcam (config.bus.setWidth 8) (config.slot.setWidth 8) 0 0

def deviceId : BitVec 16 :=
  config.m.load16 (config.ecam + 2)

def statusReg : BitVec 16 :=
  config.m.load16 (config.ecam + 6)

def capesPointer : Byte :=
  config.m (config.ecam + 0x34)

/-- The address of a capability, which its distance from the header stands for. -/
def capAddr (cap : Byte) : Word :=
  config.ecam + cap.setWidth 64

def capId (cap : Byte) : Byte :=
  config.m (config.capAddr cap)

def capNext (cap : Byte) : Byte :=
  config.m (config.capAddr cap + 1)

def cfgType (cap : Byte) : Byte :=
  config.m (config.capAddr cap + 3)

/-- `(uint32_t)ecam->type0.bar[v_pci_cap->bar] & 0xFFFFFFF0` -/
def barBase (cap : Byte) : BitVec 32 :=
  let bar := config.m (config.capAddr cap + 4)
  config.m.load32 (config.ecam + 0x10 + 4 * bar.setWidth 64) &&& 0xFFFFFFF0

/-- The base of the BAR and `v_pci_cap->offset`, added in 32 bits. -/
def target (cap : Byte) : Word :=
  (config.barBase cap + config.m.load32 (config.capAddr cap + 8)).setWidth 64

/-- `notify_off_multiplier` -/
def multiplier (cap : Byte) : Word :=
  (config.m.load32 (config.capAddr cap + 16)).setWidth 64

/-- The structure that the branches on the device and the slot select. -/
def selected : Option Location :=
  if config.deviceId = 0x1052 then some (if config.slot = 0 then .ipt else .keyboard)
  else if config.deviceId = 0x1050 then some .gdev
  else if config.deviceId = 0x1044 then some .entropy
  else if config.deviceId = 0x1042 then
    some (if config.slot = 1 then .blk else if config.slot = 2 then .minix else .ext4)
  else none

def commonCfg (s : Location) (cap : Byte) (d : Structures) : Structures :=
  match s with
  | .ipt | .keyboard | .gdev => d.assign s .common (config.target cap)
  | .entropy | .blk | .minix | .ext4 =>
      (d.assign s .baraddr ((config.barBase cap).setWidth 64)).assign s .common (config.target cap)

def notifyCfg (s : Location) (cap : Byte) (d : Structures) : Structures :=
  match s with
  | .ipt | .keyboard | .gdev =>
      ((d.assign s .notify (config.capAddr cap)).assign s .qnotmult (config.multiplier cap)).assign
        s .qnotaddr (config.target cap)
  | .entropy | .blk | .minix | .ext4 => d.assign s .notify (config.capAddr cap)

def isrCfg (s : Location) (cap : Byte) (d : Structures) : Structures :=
  d.assign s .isr (config.target cap)

/-- This case has no branch for the entropy device. -/
def deviceCfg (s : Location) (cap : Byte) (d : Structures) : Structures :=
  match s with
  | .entropy => d
  | .ipt | .keyboard | .gdev | .blk | .minix | .ext4 => d.assign s .t4 (config.target cap)

/-- The case `0x09` of the switch on `cap->id`. -/
def vendorSpecific (cap : Byte) (d : Structures) : Structures :=
  match config.selected, cfgCase (config.cfgType cap) with
  | some s, some .common => config.commonCfg s cap d
  | some s, some .notify => config.notifyCfg s cap d
  | some s, some .isr => config.isrCfg s cap d
  | some s, some .device => config.deviceCfg s cap d
  | _, _ => d

end Config

/-- A capability that the walk has looked at, and the structures after that. -/
structure Visit where
  cap : Byte
  after : Structures

namespace Config

variable (config : Config)

/-- The loop `while (capes_next != 0)`; any other id makes the function return. -/
def walk : Nat → Byte → Structures → Option (List Visit × Structures)
  | 0, _, _ => none
  | fuel + 1, capesNext, d =>
      if capesNext = 0 then some ([], d)
      else if config.capId capesNext = 0x09 then
        let d := config.vendorSpecific capesNext d
        (walk fuel (config.capNext capesNext) d).map (Prod.map (⟨capesNext, d⟩ :: ·) id)
      else if config.capId capesNext = 0x10 ∨ config.capId capesNext = 0x11 then
        (walk fuel (config.capNext capesNext) d).map (Prod.map (⟨capesNext, d⟩ :: ·) id)
      else some ([⟨capesNext, d⟩], d)

def pciCapePtrCheck (fuel : Nat) (d : Structures) : Option (List Visit × Structures) :=
  if config.statusReg &&& (1 <<< 4) ≠ 0 then config.walk fuel config.capesPointer d
  else some ([], d)

/-- The capabilities of the device, in the order of their list, which ends. -/
def Lists (caps : List Byte) : Prop :=
  if config.statusReg &&& (1 <<< 4) ≠ 0 then Chain config.capNext 0 config.capesPointer caps
  else caps = []

/-- The capability is vendor-specific and has the type. -/
def Describes (cap : Byte) (type : CfgType) : Prop :=
  config.capId cap = 0x09 ∧ cfgCase (config.cfgType cap) = some type

/-- The walk goes on behind the capability. -/
def GoesOn (cap : Byte) : Prop :=
  config.capId cap = 0x09 ∨ config.capId cap = 0x10 ∨ config.capId cap = 0x11

instance (cap : Byte) : Decidable (config.GoesOn cap) :=
  inferInstanceAs (Decidable (_ ∨ _))

end Config

/-- The structures with the fields `qnotmult` and `qnotaddr`; the others have
`baraddr`. -/
def Location.notifies : Location → Bool
  | .ipt | .keyboard | .gdev => true
  | .entropy | .blk | .minix | .ext4 => false

/-- What a structure notes of a capability: the address that the capability leads
to, or that of the capability itself for notifications, and what belongs to it. -/
def CfgType.notes (config : Config) (s : Location) (cap : Byte) : CfgType → List (Field × Word)
  | .common =>
      (.common, config.target cap) ::
        if s.notifies then [] else [(.baraddr, (config.barBase cap).setWidth 64)]
  | .notify =>
      (.notify, config.capAddr cap) ::
        if s.notifies then [(.qnotmult, config.multiplier cap), (.qnotaddr, config.target cap)]
        else []
  | .isr => [(.isr, config.target cap)]
  | .device => [(.t4, config.target cap)]

/-- The structure holds the notes. -/
def Structures.Hold (d : Structures) (s : Location) (notes : List (Field × Word)) : Prop :=
  ∀ note ∈ notes, d s note.1 = note.2

/-- A supported device, with its capabilities. -/
structure Device where
  config : Config
  location : Location
  caps : List Byte
  supported : config.selected = some location
  lists : config.Lists caps

namespace Device

variable (device : Device)

/-- The capability is visited and noted in the structure, which keeps the notes
unless a later capability has the same type. -/
def Notes (visits : List Visit) (d' : Structures) (cap : Byte) (after : List Byte)
    (type : CfgType) : Prop :=
  let notes := type.notes device.config device.location cap
  (∃ visit ∈ visits, visit.cap = cap ∧ visit.after.Hold device.location notes) ∧
    ((∀ later ∈ after, ¬ device.config.Describes later type) → d'.Hold device.location notes)

/-- All vendor-specific capabilities of the four types are noted. -/
def NotesAll : Prop :=
  ∀ fuel d, device.caps.length < fuel → ∃ visits d',
    device.config.pciCapePtrCheck fuel d = some (visits, d') ∧
      ∀ before cap after type, device.caps = before ++ cap :: after →
        device.config.Describes cap type → device.Notes visits d' cap after type

/-- No capability with another id precedes one of the four types, and an entropy
device has none for its own configuration. -/
def Plain : Prop :=
  ∀ before cap after type, device.caps = before ++ cap :: after →
    device.config.Describes cap type →
      (∀ earlier ∈ before, device.config.GoesOn earlier) ∧
        ¬ (device.location = .entropy ∧ type = .device)

end Device

/-! ## One capability -/

/-- The fields that a capability of a type is noted in. -/
def CfgType.fields : CfgType → List Field
  | .common => [.common, .baraddr]
  | .notify => [.notify, .qnotmult, .qnotaddr]
  | .isr => [.isr]
  | .device => [.t4]

theorem CfgType.mem_fields {config : Config} {s : Location} {cap : Byte} {type : CfgType}
    {note : Field × Word} (h : note ∈ type.notes config s cap) : note.1 ∈ type.fields := by
  have hFields : (type.notes config s cap).map Prod.fst ⊆ type.fields := by
    cases type <;> cases s <;> simp [notes, fields, Location.notifies]
  exact hFields (List.mem_map_of_mem h)

theorem CfgType.fields_disjoint {type other : CfgType} {field : Field} (hDiffer : type ≠ other)
    (hField : field ∈ type.fields) : field ∉ other.fields := by
  cases field <;> cases type <;> cases other <;> simp_all [fields]

namespace Config

/-- What a visit leaves in the structures. -/
def visit (config : Config) (cap : Byte) (d : Structures) : Structures :=
  if config.capId cap = 0x09 then config.vendorSpecific cap d else d

variable {config : Config} {s : Location} {cap : Byte} {type : CfgType} {d : Structures}

theorem visit_notes (hSelected : config.selected = some s) (hType : config.Describes cap type)
    (hCase : ¬ (s = .entropy ∧ type = .device)) :
    (config.visit cap d).Hold s (type.notes config s cap) := by
  rw [visit, if_pos hType.1]
  unfold Structures.Hold
  cases type with
  | common =>
      simp only [vendorSpecific, hSelected, hType.2]
      cases s <;> simp [commonCfg, CfgType.notes, Location.notifies]
  | notify =>
      simp only [vendorSpecific, hSelected, hType.2]
      cases s <;> simp [notifyCfg, CfgType.notes, Location.notifies]
  | isr =>
      simp only [vendorSpecific, hSelected, hType.2]
      simp [isrCfg, CfgType.notes]
  | device =>
      simp only [vendorSpecific, hSelected, hType.2]
      cases s with
      | entropy => exact absurd ⟨rfl, rfl⟩ hCase
      | _ => simp [deviceCfg, CfgType.notes]

/-- A case assigns its own fields only. -/
theorem vendorSpecific_of_not_mem {field : Field} (hSelected : config.selected = some s)
    (hCase : cfgCase (config.cfgType cap) = some type) (hField : field ∉ type.fields) :
    config.vendorSpecific cap d s field = d s field := by
  cases type with
  | common =>
      simp only [CfgType.fields, List.mem_cons, List.not_mem_nil, or_false, not_or] at hField
      simp only [vendorSpecific, hSelected, hCase]
      cases s <;> simp [commonCfg, hField.1, hField.2]
  | notify =>
      simp only [CfgType.fields, List.mem_cons, List.not_mem_nil, or_false, not_or] at hField
      simp only [vendorSpecific, hSelected, hCase]
      cases s <;> simp [notifyCfg, hField.1, hField.2.1, hField.2.2]
  | isr =>
      simp only [CfgType.fields, List.mem_singleton] at hField
      simp [vendorSpecific, hSelected, hCase, isrCfg, hField]
  | device =>
      simp only [CfgType.fields, List.mem_singleton] at hField
      simp only [vendorSpecific, hSelected, hCase]
      cases s <;> simp [deviceCfg, hField]

/-- A capability of another type leaves the fields of a type. -/
theorem visit_frame {field : Field} (hSelected : config.selected = some s)
    (hOther : ¬ config.Describes cap type) (hField : field ∈ type.fields) :
    config.visit cap d s field = d s field := by
  unfold visit
  split
  next hId =>
    cases hCase : cfgCase (config.cfgType cap) with
    | none => simp only [vendorSpecific, hSelected, hCase]
    | some other =>
        have hDiffer : type ≠ other := fun hSame => hOther ⟨hId, hSame ▸ hCase⟩
        exact vendorSpecific_of_not_mem hSelected hCase (CfgType.fields_disjoint hDiffer hField)
  next => rfl

/-- No case notes the configuration of an entropy device. -/
theorem visit_entropy (hSelected : config.selected = some .entropy) :
    config.visit cap d .entropy .t4 = d .entropy .t4 := by
  unfold visit
  split
  · cases hCase : cfgCase (config.cfgType cap) with
    | none => simp only [vendorSpecific, hSelected, hCase]
    | some type =>
        cases type <;>
          simp [vendorSpecific, hSelected, hCase, commonCfg, notifyCfg, isrCfg, deviceCfg]
  · rfl

/-! ## The walk -/

/-- The walk over a list of capabilities. -/
def trail (config : Config) (d : Structures) : List Byte → List Visit × Structures
  | [] => ([], d)
  | cap :: rest =>
      if config.GoesOn cap then
        Prod.map (⟨cap, config.visit cap d⟩ :: ·) id (trail config (config.visit cap d) rest)
      else ([⟨cap, d⟩], d)

theorem trail_of_goesOn {rest : List Byte} (h : config.GoesOn cap) :
    config.trail d (cap :: rest) =
      Prod.map (⟨cap, config.visit cap d⟩ :: ·) id
        (config.trail (config.visit cap d) rest) := by
  rw [trail, if_pos h]

theorem walk_eq_trail {first : Byte} {caps : List Byte} {fuel : Nat}
    (hChain : Chain config.capNext 0 first caps) (hFuel : caps.length < fuel) :
    config.walk fuel first d = some (config.trail d caps) := by
  induction caps generalizing first d fuel with
  | nil =>
      obtain ⟨fuel, rfl⟩ := Nat.exists_eq_succ_of_ne_zero (Nat.ne_zero_of_lt hFuel)
      have hEnd : first = 0 := hChain
      rw [walk, if_pos hEnd, trail]
  | cons cap rest ih =>
      obtain ⟨fuel, rfl⟩ := Nat.exists_eq_succ_of_ne_zero (Nat.ne_zero_of_lt hFuel)
      obtain ⟨rfl, hMore, hRest⟩ := hChain
      have hRounds : rest.length < fuel := Nat.lt_of_succ_lt_succ hFuel
      rw [walk, if_neg hMore]
      by_cases hVendor : config.capId first = 0x09
      · rw [if_pos hVendor, trail_of_goesOn (.inl hVendor), visit, if_pos hVendor]
        simp only [ih hRest hRounds, Option.map_some]
      · rw [if_neg hVendor]
        by_cases hSkip : config.capId first = 0x10 ∨ config.capId first = 0x11
        · rw [if_pos hSkip, trail_of_goesOn (.inr hSkip), visit, if_neg hVendor,
            ih hRest hRounds, Option.map_some]
        · have hStop : ¬ config.GoesOn first := not_or.mpr ⟨hVendor, hSkip⟩
          rw [if_neg hSkip, trail, if_neg hStop]

theorem pciCapePtrCheck_eq {caps : List Byte} {fuel : Nat} (hLists : config.Lists caps)
    (hFuel : caps.length < fuel) : config.pciCapePtrCheck fuel d = some (config.trail d caps) := by
  unfold Lists at hLists
  unfold pciCapePtrCheck
  split
  next hStatus =>
    rw [if_pos hStatus] at hLists
    exact walk_eq_trail hLists hFuel
  next hStatus =>
    rw [if_neg hStatus] at hLists
    rw [hLists, trail]

theorem trail_frame {caps : List Byte} {field : Field} (hSelected : config.selected = some s)
    (hOther : ∀ cap ∈ caps, ¬ config.Describes cap type) (hField : field ∈ type.fields) :
    (config.trail d caps).2 s field = d s field := by
  induction caps generalizing d with
  | nil => rfl
  | cons cap rest ih =>
      rw [List.forall_mem_cons] at hOther
      by_cases hGoes : config.GoesOn cap
      · rw [trail_of_goesOn hGoes]
        exact (ih hOther.2).trans (visit_frame hSelected hOther.1 hField)
      · rw [trail, if_neg hGoes]

/-- The walk comes to a capability when it goes on behind all before it. -/
theorem trail_visits {before after : List Byte} (hBefore : ∀ cap ∈ before, config.GoesOn cap)
    (hCap : config.GoesOn cap) :
    ∃ d', ⟨cap, config.visit cap d'⟩ ∈ (config.trail d (before ++ cap :: after)).1 ∧
      (config.trail d (before ++ cap :: after)).2 =
        (config.trail (config.visit cap d') after).2 := by
  induction before generalizing d with
  | nil =>
      rw [List.nil_append, trail_of_goesOn hCap]
      exact ⟨d, List.mem_cons_self, rfl⟩
  | cons first before ih =>
      rw [List.forall_mem_cons] at hBefore
      rw [List.cons_append, trail_of_goesOn hBefore.1]
      obtain ⟨d', hMem, hEnd⟩ := ih (d := config.visit first d) hBefore.2
      exact ⟨d', List.mem_cons_of_mem _ hMem, hEnd⟩

/-- The walk has gone on behind all capabilities before one that it comes to. -/
theorem goesOn_of_mem_trail {before after : List Byte} {v : Visit}
    (hNodup : (before ++ v.cap :: after).Nodup)
    (h : v ∈ (config.trail d (before ++ v.cap :: after)).1) :
    ∀ cap ∈ before, config.GoesOn cap := by
  induction before generalizing d with
  | nil => exact fun cap hCap => absurd hCap List.not_mem_nil
  | cons first before ih =>
      rw [List.cons_append, List.nodup_cons] at hNodup
      have hFirst : first ≠ v.cap := by
        rintro rfl
        exact hNodup.1 (List.mem_append_right _ List.mem_cons_self)
      by_cases hGoes : config.GoesOn first
      · rw [List.cons_append, trail_of_goesOn hGoes] at h
        rw [List.forall_mem_cons]
        rcases List.mem_cons.mp h with hHere | hRest
        · exact absurd (congrArg Visit.cap hHere).symm hFirst
        · exact ⟨hGoes, ih hNodup.2 hRest⟩
      · rw [List.cons_append, trail, if_neg hGoes] at h
        exact absurd (congrArg Visit.cap (List.mem_singleton.mp h)).symm hFirst

theorem trail_entropy {caps : List Byte} {v : Visit} (hSelected : config.selected = some .entropy)
    (h : v ∈ (config.trail d caps).1) : v.after .entropy .t4 = d .entropy .t4 := by
  induction caps generalizing d with
  | nil => cases h
  | cons cap rest ih =>
      by_cases hGoes : config.GoesOn cap
      · rw [trail_of_goesOn hGoes] at h
        rcases List.mem_cons.mp h with rfl | hRest
        · exact visit_entropy hSelected
        · exact (ih hRest).trans (visit_entropy hSelected)
      · rw [trail, if_neg hGoes] at h
        rw [List.mem_singleton.mp h]

end Config

/-! ## Devices -/

namespace Device

variable (device : Device)

theorem nodup : device.caps.Nodup := by
  have hLists := device.lists
  unfold Config.Lists at hLists
  split at hLists
  · exact hLists.nodup
  · rw [hLists]
    exact List.nodup_nil

theorem notesAll_of_plain (h : device.Plain) : device.NotesAll := by
  intro fuel d hFuel
  refine ⟨_, _, Config.pciCapePtrCheck_eq device.lists hFuel, ?_⟩
  intro before cap after type hCaps hType
  obtain ⟨hBefore, hCase⟩ := h before cap after type hCaps hType
  obtain ⟨d', hVisit, hEnd⟩ : ∃ d',
      ⟨cap, device.config.visit cap d'⟩ ∈ (device.config.trail d (before ++ cap :: after)).1 ∧
        (device.config.trail d (before ++ cap :: after)).2 =
          (device.config.trail (device.config.visit cap d') after).2 :=
    Config.trail_visits hBefore (.inl hType.1)
  have hNoted := Config.visit_notes (d := d') device.supported hType hCase
  rw [hCaps]
  refine ⟨⟨_, hVisit, rfl, hNoted⟩, fun hLast note hNote => ?_⟩
  rw [hEnd, Config.trail_frame device.supported hLast (CfgType.mem_fields hNote), hNoted note hNote]

theorem plain_of_notesAll (h : device.NotesAll) : device.Plain := by
  intro before cap after type hCaps hType
  -- The field of an entropy device can start with any other value.
  obtain ⟨visits, d', hRun, hNotes⟩ := h _ (fun _ _ => device.config.target cap + 1)
    (Nat.lt_succ_self _)
  rw [Config.pciCapePtrCheck_eq device.lists (Nat.lt_succ_self _), Option.some.injEq] at hRun
  obtain ⟨⟨v, hMem, hCap, hHold⟩, -⟩ := hNotes before cap after type hCaps hType
  obtain rfl : visits = (device.config.trail
      (fun _ _ => device.config.target cap + 1) device.caps).1 := by
    rw [hRun]
  constructor
  · have hNodup := device.nodup
    rw [hCaps, ← hCap] at hNodup hMem
    exact Config.goesOn_of_mem_trail hNodup hMem
  · rintro ⟨hEntropy, rfl⟩
    have hNote := hHold (.t4, device.config.target cap) List.mem_cons_self
    have hSame := Config.trail_entropy (hEntropy ▸ device.supported) hMem
    rw [hEntropy] at hNote
    rw [hSame] at hNote
    bv_omega

/-- All vendor-specific capabilities are noted exactly when no capability with an id
that the function does not know precedes one of them, and the device is not an
entropy device with a configuration of its own. -/
theorem notesAll_iff : device.NotesAll ↔ device.Plain :=
  ⟨device.plain_of_notesAll, device.notesAll_of_plain⟩

/-- An input device whose list has power management (`0x01`) before the place of
its common configuration. -/
def managed : Device where
  config := {
    m := fun x =>
      match (x - 0x30100000).toNat with
      | 0x02 => 0x52
      | 0x03 => 0x10
      | 0x06 => 0x10
      | 0x34 => 0x40
      | 0x40 => 0x01
      | 0x41 => 0x50
      | 0x50 => 0x09
      | 0x53 => 0x01
      | _ => 0
    bus := 1
    slot := 0 }
  location := .ipt
  caps := [0x40, 0x50]
  supported := by decide
  lists := by
    rw [Config.Lists, if_pos (by decide)]
    exact ⟨by decide, by decide, by decide, by decide, rfl⟩

theorem not_notesAll : ¬ ∀ device : Device, device.NotesAll := by
  intro h
  obtain ⟨hBefore, -⟩ := managed.plain_of_notesAll (h managed) [0x40] 0x50 [] .common rfl
    ⟨by decide, by decide⟩
  exact absurd (hBefore 0x40 List.mem_cons_self) (by decide)

end Device

end Kernel.PciCapes
