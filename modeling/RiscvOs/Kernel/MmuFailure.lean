import RiscvOs.Kernel.MmuTables
import RiscvOs.Kernel.Lock

/-! `mmu_map` does not look at the answer of `cpage_znalloc`: a `NULL` becomes a
valid entry for address 0, and the call goes on in the page at that address. -/
namespace Kernel.Mmu

open Semantics Lock

/-- `mmu_map` with `kernel_mmu_lock`. -/
def mmuMapLocked (answer : Nat → Word) (lock : Mutex) (w : World) (table vaddr paddr bits : Word) :
    Option (Bool × Mutex × World) := do
  let lock ← mutexSpinlock lock
  let (ok, w) := mmuMap answer w table vaddr paddr bits
  some (ok, mutexUnlock lock, w)

/-- The table and the world with which the loop reaches level `i`. -/
def atLevel (answer : Nat → Word) (w : World) (table vaddr : Word) : Nat → Word × World
  | 0 => mapLoop answer vaddr w table 2
  | 1 => mapLevel answer w table (vpn vaddr 2)
  | _ => (table, w)

/-- Level `i` needs a table. -/
def NeedsTable (answer : Nat → Word) (w : World) (table vaddr : Word) (i : Nat) : Prop :=
  ptEntry (atLevel answer w table vaddr i).2.mem (atLevel answer w table vaddr i).1 (vpn vaddr i)
    &&& pbValid = 0

/-- A needed table at one of the levels is denied. -/
def DeniedTable (answer : Nat → Word) (w : World) (table vaddr : Word) : Prop :=
  ∃ i, (i = 1 ∨ i = 2) ∧ NeedsTable answer w table vaddr i ∧
    answer (atLevel answer w table vaddr i).2.calls = 0

/-- An iteration of the loop makes an entry valid that refers to address 0. -/
def MakesNull (answer : Nat → Word) (w : World) (table vaddr : Word) : Prop :=
  ∃ i < 2, ∃ a,
    (atLevel answer w table vaddr (i + 1)).2.mem.load64 a &&& pbValid = 0 ∧
    (atLevel answer w table vaddr i).2.mem.load64 a &&& pbValid ≠ 0 ∧
    nextTable ((atLevel answer w table vaddr i).2.mem.load64 a) = 0

/-- The call returns false with the lock released, makes no entry for address
0, writes to the pages of the table only, and keeps every translation. -/
def FailsCleanly (answer : Nat → Word) (owned : Set Word) (w : World)
    (table vaddr paddr bits : Word) : Prop :=
  ∃ w', mmuMapLocked answer .unlocked w table vaddr paddr bits = some (false, .unlocked, w') ∧
    ¬ MakesNull answer w table vaddr ∧
    (∀ x, (∀ t ∈ owned, ¬ InRange t 4096 x) → w'.mem x = w.mem x) ∧
    ∀ a, mmuTranslate w'.mem table a = mmuTranslate w.mem table a

variable {answer : Nat → Word} {w : World} {table vaddr paddr bits : Word}

theorem mmuMapLocked_unlocked (answer : Nat → Word) (w : World) (table vaddr paddr bits : Word) :
    mmuMapLocked answer .unlocked w table vaddr paddr bits =
      some (true, .unlocked, (mmuMap answer w table vaddr paddr bits).2) := rfl

theorem atLevel_succ {i : Nat} (hi : i < 2) : atLevel answer w table vaddr i =
    mapLevel answer (atLevel answer w table vaddr (i + 1)).2 (atLevel answer w table vaddr (i + 1)).1
      (vpn vaddr (i + 1)) := by
  rcases (by omega : i = 0 ∨ i = 1) with rfl | rfl
  · rfl
  · rfl

/-- A level with a denied table goes on at address 0. -/
theorem mapLevel_null {index : Word} (hNeeds : ptEntry w.mem table index &&& pbValid = 0)
    (hNull : answer w.calls = 0) :
    mapLevel answer w table index = (0, ⟨setPtEntry w.mem table index pbValid, w.calls + 1⟩) := by
  have hAnswer : cpageZnalloc answer 1 w = (0, ⟨w.mem, w.calls + 1⟩) := if_pos (.inr hNull)
  rw [mapLevel, if_pos hNeeds, hAnswer]
  rfl

/-- The entry of a denied table, and the table of the next level. -/
theorem makesNull_of_denied (hDenied : DeniedTable answer w table vaddr) :
    MakesNull answer w table vaddr ∧ ∃ i < 2, (atLevel answer w table vaddr i).1 = 0 := by
  obtain ⟨i, hLevel, hNeeds, hNull⟩ := hDenied
  obtain ⟨i, rfl⟩ : ∃ j, i = j + 1 := ⟨i - 1, by omega⟩
  have hi : i < 2 := by omega
  have hEntry := mapLevel_null hNeeds hNull
  rw [← atLevel_succ hi] at hEntry
  refine ⟨⟨i, hi, ptEntryAddr (atLevel answer w table vaddr (i + 1)).1 (vpn vaddr (i + 1)), hNeeds,
    ?_⟩, i, hi, by rw [hEntry]⟩
  rw [hEntry]
  simp only [setPtEntry, Memory.load64_store64]
  decide

/-- Whenever a needed table is denied, the call returns true, makes an entry
for address 0 and takes the page there for a table. -/
theorem mmuMap_null (owned : Set Word) (hDenied : DeniedTable answer w table vaddr) :
    (∃ w', mmuMapLocked answer .unlocked w table vaddr paddr bits = some (true, .unlocked, w')) ∧
      MakesNull answer w table vaddr ∧ (∃ i < 2, (atLevel answer w table vaddr i).1 = 0) ∧
      ¬ FailsCleanly answer owned w table vaddr paddr bits := by
  obtain ⟨hMakes, hTable⟩ := makesNull_of_denied hDenied
  refine ⟨⟨_, mmuMapLocked_unlocked _ _ _ _ _ _⟩, hMakes, hTable, ?_⟩
  rintro ⟨w', -, hNone, -⟩
  exact hNone hMakes

section Inputs

/-- There is one page. -/
def onePage (k : Nat) : Word :=
  if k = 0 then 0x80300000 else 0

/-- The table of level 1 gets the page, the table of level 0 is denied. -/
theorem deniedTable_onePage : DeniedTable onePage ⟨fun _ => 0, 0⟩ 0x80200000 0x1000 := by
  refine ⟨1, .inl rfl, ?_, rfl⟩
  unfold NeedsTable
  decide +kernel

theorem mmuMap_null_onePage :
    (∃ w', mmuMapLocked onePage .unlocked ⟨fun _ => 0, 0⟩ 0x80200000 0x1000 0x80000000 0b110 =
        some (true, .unlocked, w')) ∧
      MakesNull onePage ⟨fun _ => 0, 0⟩ 0x80200000 0x1000 ∧
      (∃ i < 2, (atLevel onePage ⟨fun _ => 0, 0⟩ 0x80200000 0x1000 i).1 = 0) ∧
      ¬ FailsCleanly onePage {0x80200000} ⟨fun _ => 0, 0⟩ 0x80200000 0x1000 0x80000000 0b110 :=
  mmuMap_null {0x80200000} deniedTable_onePage

/-- The leaf lands in the page at address 0, and the address translates. -/
theorem mmuMap_into_page_zero :
    (∃ w', mmuMapLocked onePage .unlocked ⟨fun _ => 0, 0⟩ 0x80200000 0x1000 0x80000000 0b110 =
        some (true, .unlocked, w') ∧
      ptEntry w'.mem 0 1 = leafEntry 0x80000000 0b110 ∧
      mmuTranslate w'.mem 0x80200000 0x1000 = 0x80000000) ∧
    mmuTranslate (fun _ => 0) 0x80200000 0x1000 = -1 ∧
    ¬ FailsCleanly onePage {0x80200000, 0x80300000} ⟨fun _ => 0, 0⟩ 0x80200000 0x1000 0x80000000
      0b110 := by
  have hMap (w' : World) (hCall : w' = (mmuMap onePage ⟨fun _ => 0, 0⟩ 0x80200000 0x1000 0x80000000
      0b110).2) : ptEntry w'.mem 0 1 = leafEntry 0x80000000 0b110 ∧
      mmuTranslate w'.mem 0x80200000 0x1000 = 0x80000000 := by
    subst hCall
    decide +kernel
  obtain ⟨hLeaf, hTranslate⟩ := hMap _ rfl
  have hBefore : mmuTranslate (fun _ => 0) 0x80200000 0x1000 = -1 := by decide +kernel
  refine ⟨⟨_, mmuMapLocked_unlocked _ _ _ _ _ _, hLeaf, hTranslate⟩, hBefore, ?_⟩
  rintro ⟨w', hCall, -⟩
  rw [mmuMapLocked_unlocked] at hCall
  cases hCall

end Inputs

end Kernel.Mmu
