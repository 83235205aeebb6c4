import RiscvOs.Semantics.Loop

/-! `fill_rect` (`virtio_gpu.c`): a rectangle is cut at the edges of the screen
and filled. -/
namespace Kernel.FillRect

open Semantics Function

/-- `Pixel` -/
structure Pixel where
  r : BitVec 8
  g : BitVec 8
  b : BitVec 8
  a : BitVec 8
  deriving DecidableEq

/-- `Rectangle` -/
structure Rectangle where
  x : BitVec 32
  y : BitVec 32
  width : BitVec 32
  height : BitVec 32
  deriving DecidableEq

/-- The ends of the rows and of the columns, behind the tests for the screen. -/
def bottom (screenHeight : BitVec 32) (rect : Rectangle) : BitVec 32 :=
  if rect.y + rect.height > screenHeight then screenHeight else rect.y + rect.height

def right (screenWidth : BitVec 32) (rect : Rectangle) : BitVec 32 :=
  if rect.x + rect.width > screenWidth then screenWidth else rect.x + rect.width

def fillRect (screenWidth screenHeight : BitVec 32) (buffer : Nat → Pixel) (rect : Rectangle)
    (fillColor : Pixel) : Nat → Pixel :=
  (counters rect.y (bottom screenHeight rect)).foldl (fun buffer row =>
    (counters rect.x (right screenWidth rect)).foldl (fun buffer col =>
      let offset := row * screenWidth + col
      update buffer offset.toNat fillColor) buffer) buffer

variable {screenWidth screenHeight : BitVec 32} {buffer : Nat → Pixel} {rect : Rectangle}
  {fillColor : Pixel} {i : Nat}

/-- The index belongs to a pixel of the screen and of the rectangle. -/
def InRect (screenWidth screenHeight : BitVec 32) (rect : Rectangle) (i : Nat) : Prop :=
  ∃ col row, i = row * screenWidth.toNat + col ∧
    col < screenWidth.toNat ∧ row < screenHeight.toNat ∧
    rect.x.toNat ≤ col ∧ col < rect.x.toNat + rect.width.toNat ∧
    rect.y.toNat ≤ row ∧ row < rect.y.toNat + rect.height.toNat

/-- The pixels of the rectangle get the colour, and no others change. -/
def FillsExactly (screenWidth screenHeight : BitVec 32) (buffer : Nat → Pixel) (rect : Rectangle)
    (fillColor : Pixel) : Prop :=
  ∀ i, (InRect screenWidth screenHeight rect i →
      fillRect screenWidth screenHeight buffer rect fillColor i = fillColor) ∧
    (¬ InRect screenWidth screenHeight rect i →
      fillRect screenWidth screenHeight buffer rect fillColor i = buffer i)

/-- The sums for the right and the lower edge do not wrap around. -/
def NoWrap (rect : Rectangle) : Prop :=
  rect.x.toNat + rect.width.toNat < 2 ^ 32 ∧ rect.y.toNat + rect.height.toNat < 2 ^ 32

/-- The offsets that the loops write. -/
def offsets (screenWidth screenHeight : BitVec 32) (rect : Rectangle) : List Nat :=
  (counters rect.y (bottom screenHeight rect)).flatMap fun row =>
    (counters rect.x (right screenWidth rect)).map fun col => (row * screenWidth + col).toNat

theorem fillRect_apply : fillRect screenWidth screenHeight buffer rect fillColor i =
    if i ∈ offsets screenWidth screenHeight rect then fillColor else buffer i := by
  have hLoops : fillRect screenWidth screenHeight buffer rect fillColor =
      (offsets screenWidth screenHeight rect).foldl
        (fun buffer offset => update buffer offset fillColor) buffer := by
    simp only [fillRect, offsets, List.foldl_flatMap, List.foldl_map]
  rw [hLoops, foldl_update_const]

theorem toNat_bottom (screenHeight : BitVec 32) (rect : Rectangle) :
    (bottom screenHeight rect).toNat = min screenHeight.toNat (rect.y + rect.height).toNat := by
  unfold bottom
  split
  next hBelow => exact (Nat.min_eq_left (Nat.le_of_lt hBelow)).symm
  next hInside => exact (Nat.min_eq_right (Nat.le_of_not_lt hInside)).symm

theorem toNat_right (screenWidth : BitVec 32) (rect : Rectangle) :
    (right screenWidth rect).toNat = min screenWidth.toNat (rect.x + rect.width).toNat := by
  unfold right
  split
  next hBelow => exact (Nat.min_eq_left (Nat.le_of_lt hBelow)).symm
  next hInside => exact (Nat.min_eq_right (Nat.le_of_not_lt hInside)).symm

/-- Of a rectangle with an edge that wraps around nothing is filled. -/
theorem offsets_of_wrap (hWrap : ¬ NoWrap rect) : offsets screenWidth screenHeight rect = [] := by
  have hWidth := rect.width.isLt
  have hHeight := rect.height.isLt
  refine List.eq_nil_iff_forall_not_mem.mpr fun i hi => hWrap ?_
  obtain ⟨row, hRow, hCols⟩ := List.mem_flatMap.mp hi
  obtain ⟨col, hCol, -⟩ := List.mem_map.mp hCols
  rw [mem_counters, toNat_bottom, BitVec.toNat_add] at hRow
  rw [mem_counters, toNat_right, BitVec.toNat_add] at hCol
  unfold NoWrap
  omega

/-- The offset of a pixel of the screen fits in 32 bits. -/
theorem toNat_offset (hScreen : screenWidth.toNat * screenHeight.toNat < 2 ^ 32)
    {row col : BitVec 32} (hRow : row.toNat < screenHeight.toNat)
    (hCol : col.toNat < screenWidth.toNat) :
    (row * screenWidth + col).toNat = row.toNat * screenWidth.toNat + col.toNat := by
  have hLine : (row.toNat + 1) * screenWidth.toNat ≤ screenHeight.toNat * screenWidth.toNat :=
    Nat.mul_le_mul_right _ hRow
  rw [Nat.add_mul, Nat.one_mul, Nat.mul_comm screenHeight.toNat] at hLine
  rw [BitVec.toNat_add, BitVec.toNat_mul, Nat.mod_add_mod, Nat.mod_eq_of_lt (by omega)]

theorem mem_offsets (hScreen : screenWidth.toNat * screenHeight.toNat < 2 ^ 32)
    (hNoWrap : NoWrap rect) : i ∈ offsets screenWidth screenHeight rect ↔
      InRect screenWidth screenHeight rect i := by
  obtain ⟨hX, hY⟩ := hNoWrap
  have hRows : ∀ row : BitVec 32, row ∈ counters rect.y (bottom screenHeight rect) ↔
      rect.y.toNat ≤ row.toNat ∧ row.toNat < screenHeight.toNat ∧
        row.toNat < rect.y.toNat + rect.height.toNat := by
    intro row
    rw [mem_counters, toNat_bottom, BitVec.toNat_add, Nat.mod_eq_of_lt hY, lt_min_iff]
  have hCols : ∀ col : BitVec 32, col ∈ counters rect.x (right screenWidth rect) ↔
      rect.x.toNat ≤ col.toNat ∧ col.toNat < screenWidth.toNat ∧
        col.toNat < rect.x.toNat + rect.width.toNat := by
    intro col
    rw [mem_counters, toNat_right, BitVec.toNat_add, Nat.mod_eq_of_lt hX, lt_min_iff]
  simp only [offsets, List.mem_flatMap, List.mem_map]
  constructor
  · rintro ⟨row, hRow, col, hCol, rfl⟩
    obtain ⟨hTop, hScreenRow, hBottom⟩ := (hRows row).mp hRow
    obtain ⟨hLeft, hScreenCol, hRight⟩ := (hCols col).mp hCol
    exact ⟨col.toNat, row.toNat, toNat_offset hScreen hScreenRow hScreenCol, hScreenCol,
      hScreenRow, hLeft, hRight, hTop, hBottom⟩
  · rintro ⟨col, row, rfl, hScreenCol, hScreenRow, hLeft, hRight, hTop, hBottom⟩
    have hRow : (BitVec.ofNat 32 row).toNat = row := by
      rw [BitVec.toNat_ofNat, Nat.mod_eq_of_lt (by omega)]
    have hCol : (BitVec.ofNat 32 col).toNat = col := by
      rw [BitVec.toNat_ofNat, Nat.mod_eq_of_lt (by omega)]
    refine ⟨BitVec.ofNat 32 row, (hRows _).mpr (by omega), BitVec.ofNat 32 col,
      (hCols _).mpr (by omega), ?_⟩
    rw [toNat_offset hScreen (by omega) (by omega), hRow, hCol]

/-- A rectangle is filled unless an edge wraps around and a pixel needs the
colour. -/
theorem fillsExactly_iff (screenWidth screenHeight : BitVec 32) (buffer : Nat → Pixel)
    (rect : Rectangle) (fillColor : Pixel)
    (hScreen : screenWidth.toNat * screenHeight.toNat < 2 ^ 32) :
    FillsExactly screenWidth screenHeight buffer rect fillColor ↔
      NoWrap rect ∨ ∀ i, InRect screenWidth screenHeight rect i → buffer i = fillColor := by
  unfold FillsExactly
  by_cases hNoWrap : NoWrap rect
  · refine iff_of_true (fun i => ?_) (.inl hNoWrap)
    rw [fillRect_apply, ← mem_offsets hScreen hNoWrap]
    exact ⟨fun hIn => if_pos hIn, fun hOut => if_neg hOut⟩
  · have hSame : ∀ i, fillRect screenWidth screenHeight buffer rect fillColor i = buffer i := by
      intro i
      rw [fillRect_apply, offsets_of_wrap hNoWrap, if_neg List.not_mem_nil]
    simp only [hSame, implies_true, and_true, hNoWrap, false_or]

/-- A rectangle that reaches over the right edge of a screen of 4 by 3 pixels. -/
theorem fillsExactly_overEdge :
    FillsExactly 4 3 (fun _ => ⟨0, 0, 0, 0⟩) ⟨2, 1, 9, 1⟩ ⟨255, 255, 255, 255⟩ :=
  (fillsExactly_iff 4 3 _ _ _ (by decide)).mpr (.inl ⟨by decide, by decide⟩)

/-- A rectangle from the second column on whose width is the largest one is not
filled. -/
theorem not_fillsExactly :
    ¬ FillsExactly 2 2 (fun _ => ⟨0, 0, 0, 0⟩) ⟨1, 0, 0xffffffff, 1⟩ ⟨255, 255, 255, 255⟩ := by
  intro hExact
  have hIn : InRect 2 2 ⟨1, 0, 0xffffffff, 1⟩ 1 := ⟨1, 0, by decide⟩
  have hFilled := (hExact 1).1 hIn
  revert hFilled
  decide

end Kernel.FillRect
