import RiscvOs.Semantics.Memory
import Mathlib.Logic.Function.Basic

/-! A RISC-V hart as the code sees it that saves and restores registers: integer
and floating-point registers, control registers, and memory behind an address
translation that depends on the control registers. The code never names `x0`. -/
namespace Semantics

open Function

abbrev Reg := Fin 32

namespace Cpu

def sp : Reg := 2

def gp : Reg := 3

def t0 : Reg := 5

def t1 : Reg := 6

def t4 : Reg := 29

def t5 : Reg := 30

def t6 : Reg := 31

/-- `x1` to `x30`. -/
def upTo30 : List Reg :=
  (List.finRange 30).map fun i => ⟨i.val + 1, by omega⟩

/-- `x1` to `x31`; the last is `t6`. -/
def upTo31 : List Reg :=
  upTo30 ++ [t6]

theorem mem_upTo30 (i : Reg) : i ∈ upTo30 ↔ i ≠ 0 ∧ i ≠ t6 := by
  revert i
  decide

theorem mem_upTo31 (i : Reg) : i ∈ upTo31 ↔ i ≠ 0 := by
  revert i
  decide

theorem t6_not_mem : t6 ∉ upTo30 :=
  fun h => ((mem_upTo30 t6).mp h).2 rfl

end Cpu

structure Cpu (Csr : Type*) where
  x : Reg → Word
  f : Reg → Word
  csr : Csr → Word
  mem : Memory

/-- The physical address of an address, under the control registers. -/
abbrev Translation (Csr : Type*) := (Csr → Word) → Word → Word

/-- The words of a frame of registers are behind one another, at `virt` for the
code and at `frame` in memory. -/
def Maps {Csr : Type*} (phys : Translation Csr) (csr : Csr → Word) (virt frame : Word) (size : Nat) :
    Prop :=
  ∀ k < size, phys csr (virt + BitVec.ofNat 64 k) = frame + BitVec.ofNat 64 k

namespace Cpu

variable {Csr : Type*}

/-! ## Instructions -/

section Csrs

variable [DecidableEq Csr]

def csrrw (rd : Reg) (csr : Csr) (rs : Reg) (c : Cpu Csr) : Cpu Csr :=
  { c with x := update c.x rd (c.csr csr), csr := update c.csr csr (c.x rs) }

def csrr (rd : Reg) (csr : Csr) (c : Cpu Csr) : Cpu Csr :=
  { c with x := update c.x rd (c.csr csr) }

def csrw (csr : Csr) (rs : Reg) (c : Cpu Csr) : Cpu Csr :=
  { c with csr := update c.csr csr (c.x rs) }

end Csrs

/-- `li`, and `la` with the address of a symbol. -/
def li (rd : Reg) (value : Word) (c : Cpu Csr) : Cpu Csr :=
  { c with x := update c.x rd value }

def mv (rd rs : Reg) (c : Cpu Csr) : Cpu Csr :=
  li rd (c.x rs) c

def slli (rd rs : Reg) (count : Nat) (c : Cpu Csr) : Cpu Csr :=
  li rd (c.x rs <<< count) c

def srli (rd rs : Reg) (count : Nat) (c : Cpu Csr) : Cpu Csr :=
  li rd (c.x rs >>> count) c

def andi (rd rs : Reg) (value : Word) (c : Cpu Csr) : Cpu Csr :=
  li rd (c.x rs &&& value) c

def sub (rd rs rt : Reg) (c : Cpu Csr) : Cpu Csr :=
  li rd (c.x rs - c.x rt) c

variable (phys : Translation Csr)

/-- `sd rs, offset(base)` -/
def sd (rs : Reg) (offset : Nat) (base : Reg) (c : Cpu Csr) : Cpu Csr :=
  { c with mem := c.mem.store64 (phys c.csr (c.x base + BitVec.ofNat 64 offset)) (c.x rs) }

/-- `ld rd, offset(base)` -/
def ld (rd : Reg) (offset : Nat) (base : Reg) (c : Cpu Csr) : Cpu Csr :=
  li rd (c.mem.load64 (phys c.csr (c.x base + BitVec.ofNat 64 offset))) c

def fsd (rs : Reg) (offset : Nat) (base : Reg) (c : Cpu Csr) : Cpu Csr :=
  { c with mem := c.mem.store64 (phys c.csr (c.x base + BitVec.ofNat 64 offset)) (c.f rs) }

def fld (rd : Reg) (offset : Nat) (base : Reg) (c : Cpu Csr) : Cpu Csr :=
  { c with f := update c.f rd (c.mem.load64 (phys c.csr (c.x base + BitVec.ofNat 64 offset))) }

/-! ## Frames of registers -/

/-- Save the registers of the list, one behind the other, each in its own slot. -/
def saveX (base : Reg) (regs : List Reg) (c : Cpu Csr) : Cpu Csr :=
  regs.foldl (fun c i => sd phys i (8 * i) base c) c

def loadX (base : Reg) (regs : List Reg) (c : Cpu Csr) : Cpu Csr :=
  regs.foldl (fun c i => ld phys i (8 * i) base c) c

def saveF (offset : Nat) (base : Reg) (regs : List Reg) (c : Cpu Csr) : Cpu Csr :=
  regs.foldl (fun c i => fsd phys i (offset + 8 * i) base c) c

def loadF (offset : Nat) (base : Reg) (regs : List Reg) (c : Cpu Csr) : Cpu Csr :=
  regs.foldl (fun c i => fld phys i (offset + 8 * i) base c) c

/-- What trap vectors start with: the control register `scratch` has the address of
the frame, and all registers go there. -/
def saveAll [DecidableEq Csr] (scratch : Csr) (c : Cpu Csr) : Cpu Csr :=
  let c := csrrw t6 scratch t6 c
  let c := saveX phys t6 upTo30 c
  let c := mv t5 t6 c
  let c := csrrw t6 scratch t6 c
  sd phys t6 (8 * 31) t5 c

end Cpu

/-- The slot of a register in a frame. -/
def slot (frame : Word) (offset : Nat) (i : Reg) : Word :=
  frame + BitVec.ofNat 64 (offset + 8 * i)

/-- Memory with the registers of the list in their slots. -/
def storeSlots (frame : Word) (offset : Nat) (values : Reg → Word) (regs : List Reg) (m : Memory) :
    Memory :=
  regs.foldl (fun m i => m.store64 (slot frame offset i) (values i)) m

section Slots

variable {frame : Word} {offset offset' : Nat} {values : Reg → Word} {regs : List Reg} {m : Memory}
  {i j : Reg}

theorem slot_apart (hOffset : offset + 256 ≤ 2 ^ 63) (h : i ≠ j) :
    Apart (slot frame offset i) 8 (slot frame offset j) 8 := by
  have hValue : (i : Nat) ≠ j := fun hSame => h (Fin.ext hSame)
  exact apart_of_offsets (by decide) (by decide) (by omega) (by omega) (by omega)

/-- The slots of two groups of registers. -/
theorem slot_apart_groups (hOffset : offset + 256 ≤ offset') (hLt : offset' + 256 ≤ 2 ^ 63) :
    Apart (slot frame offset i) 8 (slot frame offset' j) 8 :=
  apart_of_offsets (by decide) (by decide) (by omega) (by omega) (by omega)

/-- A word apart from all slots of the list stays. -/
theorem load64_storeSlots_apart {a : Word} (h : ∀ i ∈ regs, Apart (slot frame offset i) 8 a 8) :
    (storeSlots frame offset values regs m).load64 a = m.load64 a := by
  induction regs generalizing m with
  | nil => rfl
  | cons i regs ih =>
      rw [storeSlots, List.foldl_cons]
      refine (ih fun j hj => h j (List.mem_cons_of_mem _ hj)).trans ?_
      exact Memory.load64_store64_apart m _ (h i List.mem_cons_self)

theorem load64_storeSlots (hOffset : offset + 256 ≤ 2 ^ 63) (h : i ∈ regs) :
    (storeSlots frame offset values regs m).load64 (slot frame offset i) = values i := by
  induction regs generalizing m with
  | nil => exact absurd h List.not_mem_nil
  | cons j regs ih =>
      rw [storeSlots, List.foldl_cons]
      by_cases hLater : i ∈ regs
      · exact ih hLater
      · obtain rfl : i = j := (List.mem_cons.mp h).resolve_right hLater
        refine (load64_storeSlots_apart fun k hk => ?_).trans (Memory.load64_store64 ..)
        exact slot_apart hOffset fun hSame => hLater (hSame ▸ hk)

theorem storeSlots_congr {values' : Reg → Word} (h : ∀ i ∈ regs, values i = values' i) :
    storeSlots frame offset values regs m = storeSlots frame offset values' regs m := by
  induction regs generalizing m with
  | nil => rfl
  | cons i regs ih =>
      rw [storeSlots, List.foldl_cons, storeSlots, List.foldl_cons, h i List.mem_cons_self]
      exact ih fun j hj => h j (List.mem_cons_of_mem _ hj)

/-- Bytes outside the frame stay. -/
theorem storeSlots_outside {size : Nat} (hSize : offset + 256 ≤ size) (hFit : size ≤ 2 ^ 64) {a : Word}
    (h : ¬ InRange frame size a) : storeSlots frame offset values regs m a = m a := by
  induction regs generalizing m with
  | nil => rfl
  | cons i regs ih =>
      rw [storeSlots, List.foldl_cons]
      refine ih.trans ?_
      have hOutside : ¬ InRange (slot frame offset i) 8 a := fun hIn => h (hIn.part (by omega) hFit)
      rw [Memory.store64, if_neg hOutside]

end Slots

namespace Cpu

variable {Csr : Type*} {phys : Translation Csr} {frame : Word} {size offset : Nat}
  {base : Reg} {regs : List Reg} {c : Cpu Csr}

/-- Saving registers writes their slots and nothing else. -/
theorem saveX_eq (h : Maps phys c.csr (c.x base) frame size) (hSize : 256 ≤ size) :
    saveX phys base regs c = { c with mem := storeSlots frame 0 c.x regs c.mem } := by
  induction regs generalizing c with
  | nil => rfl
  | cons i regs ih =>
      rw [saveX, List.foldl_cons, ← saveX]
      have hSlot : phys c.csr (c.x base + BitVec.ofNat 64 (8 * i)) = slot frame 0 i := by
        rw [h _ (by omega), slot, Nat.zero_add]
      have hFirst : sd phys i (8 * i) base c =
          { c with mem := c.mem.store64 (slot frame 0 i) (c.x i) } := by
        rw [sd, hSlot]
      rw [hFirst]
      exact ih h

theorem saveF_eq (h : Maps phys c.csr (c.x base) frame size) (hSize : offset + 256 ≤ size) :
    saveF phys offset base regs c = { c with mem := storeSlots frame offset c.f regs c.mem } := by
  induction regs generalizing c with
  | nil => rfl
  | cons i regs ih =>
      rw [saveF, List.foldl_cons, ← saveF]
      have hSlot : phys c.csr (c.x base + BitVec.ofNat 64 (offset + 8 * i)) = slot frame offset i := by
        rw [h _ (by omega), slot]
      have hFirst : fsd phys i (offset + 8 * i) base c =
          { c with mem := c.mem.store64 (slot frame offset i) (c.f i) } := by
        rw [fsd, hSlot]
      rw [hFirst]
      exact ih h

/-- Loading registers other than the base gives them the words of their slots. -/
theorem loadX_eq (h : Maps phys c.csr (c.x base) frame size) (hSize : 256 ≤ size)
    (hBase : base ∉ regs) :
    loadX phys base regs c =
      { c with x := fun i => if i ∈ regs then c.mem.load64 (slot frame 0 i) else c.x i } := by
  induction regs generalizing c with
  | nil => rfl
  | cons i regs ih =>
      rw [loadX, List.foldl_cons, ← loadX]
      have hSlot : phys c.csr (c.x base + BitVec.ofNat 64 (8 * i)) = slot frame 0 i := by
        rw [h _ (by omega), slot, Nat.zero_add]
      have hFirst : ld phys i (8 * i) base c =
          { c with x := update c.x i (c.mem.load64 (slot frame 0 i)) } := by
        rw [ld, hSlot, li]
      have hNe : base ≠ i := by
        rintro rfl
        exact hBase List.mem_cons_self
      have hNext : Maps phys c.csr (update c.x i (c.mem.load64 (slot frame 0 i)) base) frame size := by
        rwa [update_of_ne hNe]
      rw [hFirst]
      refine (ih hNext fun hMem => hBase (List.mem_cons_of_mem _ hMem)).trans ?_
      congr 1
      funext j
      by_cases hLater : j ∈ regs
      · simp [hLater]
      · by_cases hHere : j = i
        · simp [hHere]
        · simp [hLater, hHere]

/-- The base itself is loaded last. -/
theorem loadX_append_base (h : Maps phys c.csr (c.x base) frame size) (hSize : 256 ≤ size)
    (hBase : base ∉ regs) :
    loadX phys base (regs ++ [base]) c =
      { c with x := fun i =>
          if i ∈ regs ++ [base] then c.mem.load64 (slot frame 0 i) else c.x i } := by
  have hLast : loadX phys base (regs ++ [base]) c =
      ld phys base (8 * base) base (loadX phys base regs c) := by
    rw [loadX, List.foldl_append]
    rfl
  have hSlot : phys c.csr (c.x base + BitVec.ofNat 64 (8 * base)) = slot frame 0 base := by
    rw [h _ (by omega), slot, Nat.zero_add]
  rw [hLast, loadX_eq h hSize hBase, ld, li]
  simp only [hBase, ↓reduceIte, hSlot]
  congr 1
  funext i
  by_cases hIs : i = base
  · simp [hIs]
  · simp [hIs]

theorem loadX_csr (phys : Translation Csr) (base : Reg) (regs : List Reg) (c : Cpu Csr) :
    (loadX phys base regs c).csr = c.csr := by
  induction regs generalizing c with
  | nil => rfl
  | cons i regs ih =>
      rw [loadX, List.foldl_cons, ← loadX, ih]
      rfl

theorem loadX_mem (phys : Translation Csr) (base : Reg) (regs : List Reg) (c : Cpu Csr) :
    (loadX phys base regs c).mem = c.mem := by
  induction regs generalizing c with
  | nil => rfl
  | cons i regs ih =>
      rw [loadX, List.foldl_cons, ← loadX, ih]
      rfl

theorem loadF_eq (h : Maps phys c.csr (c.x base) frame size) (hSize : offset + 256 ≤ size) :
    loadF phys offset base regs c =
      { c with f := fun i => if i ∈ regs then c.mem.load64 (slot frame offset i) else c.f i } := by
  induction regs generalizing c with
  | nil => rfl
  | cons i regs ih =>
      rw [loadF, List.foldl_cons, ← loadF]
      have hSlot : phys c.csr (c.x base + BitVec.ofNat 64 (offset + 8 * i)) = slot frame offset i := by
        rw [h _ (by omega), slot]
      have hFirst : fld phys i (offset + 8 * i) base c =
          { c with f := update c.f i (c.mem.load64 (slot frame offset i)) } := by
        rw [fld, hSlot]
      rw [hFirst]
      refine (@ih { c with f := update c.f i (c.mem.load64 (slot frame offset i)) } h).trans ?_
      congr 1
      funext j
      by_cases hLater : j ∈ regs
      · simp [hLater]
      · by_cases hHere : j = i
        · simp [hHere]
        · simp [hLater, hHere]

/-- Memory with the integer registers in a frame. -/
def savedX (frame : Word) (c : Cpu Csr) : Memory :=
  (storeSlots frame 0 c.x upTo30 c.mem).store64 (slot frame 0 t6) (c.x t6)

theorem load64_savedX {i : Reg} (hi : i ≠ 0) : (savedX frame c).load64 (slot frame 0 i) = c.x i := by
  rw [savedX]
  by_cases hLast : i = t6
  · rw [hLast]
    exact Memory.load64_store64 ..
  · rw [Memory.load64_store64_apart _ _ (slot_apart (by decide) fun h => hLast h.symm)]
    exact load64_storeSlots (by decide) ((mem_upTo30 i).mpr ⟨hi, hLast⟩)

/-- Bytes outside the frame stay. -/
theorem savedX_outside (hSize : 256 ≤ size) (hFit : size ≤ 2 ^ 64) {a : Word}
    (h : ¬ InRange frame size a) : savedX frame c a = c.mem a := by
  have hOutside : ¬ InRange (slot frame 0 t6) 8 a := fun hIn => h (hIn.part hSize hFit)
  rw [savedX, Memory.store64, if_neg hOutside]
  exact storeSlots_outside (by omega) hFit h

/-- The vector leaves `t5` with the address of the frame, and all other registers
as they were. -/
theorem saveAll_eq [DecidableEq Csr] {scratch : Csr} {virt : Word} (hScratch : c.csr scratch = virt)
    (hMaps : ∀ value, Maps phys (update c.csr scratch value) virt frame size) (hSize : 256 ≤ size) :
    saveAll phys scratch c =
      { c with
        x := update (update (update c.x t6 virt) t5 virt) t6 (c.x t6)
        mem := savedX frame c } := by
  have hFirst : Maps phys (update c.csr scratch (c.x t6)) (update c.x t6 virt t6) frame size := by
    rw [update_self]
    exact hMaps _
  have hSame : storeSlots frame 0 (update c.x t6 virt) upTo30 c.mem =
      storeSlots frame 0 c.x upTo30 c.mem := by
    apply storeSlots_congr
    intro i hi
    exact update_of_ne ((mem_upTo30 i).mp hi).2 _ _
  have hSave : saveX phys t6 upTo30 (csrrw t6 scratch t6 c) =
      { c with
        x := update c.x t6 virt
        csr := update c.csr scratch (c.x t6)
        mem := storeSlots frame 0 c.x upTo30 c.mem } := by
    rw [csrrw, hScratch, ← hSame]
    exact saveX_eq hFirst hSize
  have hBack : update (update c.csr scratch (c.x t6)) scratch virt = c.csr := by
    rw [update_idem, ← hScratch, update_eq_self]
  have hT6 : update (update c.x t6 virt) t5 virt t6 = virt := by
    rw [update_of_ne (by decide), update_self]
  have hT5 : update (update (update c.x t6 virt) t5 virt) t6 (c.x t6) t5 = virt := by
    rw [update_of_ne (by decide), update_self]
  have hSlot : phys c.csr (virt + BitVec.ofNat 64 (8 * 31)) = slot frame 0 t6 := by
    have hLast := hMaps (c.csr scratch) (8 * 31) (by omega)
    rw [update_eq_self] at hLast
    exact hLast
  rw [saveAll, hSave]
  simp only [mv, li, csrrw, sd, update_self, hT6, hT5, hBack, hSlot]
  rfl

/-- What trap vectors end with: all registers come from the frame that `t6` has
the address of. -/
theorem loadX_upTo31 (h : Maps phys c.csr (c.x t6) frame size) (hSize : 256 ≤ size) {i : Reg}
    (hi : i ≠ 0) : (loadX phys t6 upTo31 c).x i = c.mem.load64 (slot frame 0 i) := by
  rw [upTo31, loadX_append_base h hSize t6_not_mem]
  exact if_pos ((mem_upTo31 i).mpr hi)

end Cpu

end Semantics
