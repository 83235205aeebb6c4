import Mathlib.Logic.Function.Iterate
import RiscvOs.Semantics.Memory

/-! A range of memory that is written in pieces. Every piece begins where the
one before it ends, and the pieces may have different widths. -/
namespace Semantics

/-- The second memory is the first one with the bytes of a range replaced; the
new bytes are given by their offsets. -/
structure Writes (m m' : Memory) (dst : Word) (size : Nat) (bytes : Nat → Byte) : Prop where
  inside : ∀ k < size, m' (dst + BitVec.ofNat 64 k) = bytes k
  outside : ∀ x, ¬ InRange dst size x → m' x = m x

variable {m m' m'' : Memory} {dst : Word} {n k size : Nat} {bytes : Nat → Byte}

namespace Writes

theorem nothing (m : Memory) (dst : Word) (bytes : Nat → Byte) : Writes m m dst 0 bytes :=
  ⟨fun _ hk => absurd hk (Nat.not_lt_zero _), fun _ _ => rfl⟩

/-- The bytes and the frame determine the memory. -/
theorem unique (h : Writes m m' dst size bytes) (h' : Writes m m'' dst size bytes) :
    m' = m'' := by
  funext x
  by_cases hx : InRange dst size x
  · rw [eq_add_distance dst x, h.inside _ hx, h'.inside _ hx]
  · rw [h.outside x hx, h'.outside x hx]

theorem eq_of_nothing (h : Writes m m' dst 0 bytes) : m' = m :=
  h.unique (nothing m dst bytes)

theorem congr {bytes' : Nat → Byte} (h : Writes m m' dst size bytes)
    (hBytes : ∀ k < size, bytes k = bytes' k) : Writes m m' dst size bytes' :=
  ⟨fun k hk => (h.inside k hk).trans (hBytes k hk), h.outside⟩

/-- A second piece behind the first one. -/
theorem append (h : Writes m m' dst n bytes)
    (hNext : Writes m' m'' (dst + BitVec.ofNat 64 n) k fun i => bytes (n + i))
    (hFit : n + k ≤ 2 ^ 64) : Writes m m'' dst (n + k) bytes where
  inside i hi := by
    by_cases hFirst : i < n
    · have hBefore : ¬ InRange (dst + BitVec.ofNat 64 n) k (dst + BitVec.ofNat 64 i) := by
        unfold InRange
        bv_omega
      rw [hNext.outside _ hBefore, h.inside i hFirst]
    · have hPlace : dst + BitVec.ofNat 64 i =
          dst + BitVec.ofNat 64 n + BitVec.ofNat 64 (i - n) := by
        rw [BitVec.add_assoc, ← BitVec.ofNat_add, Nat.add_sub_cancel' (not_lt.mp hFirst)]
      rw [hPlace, hNext.inside (i - n) (by omega), Nat.add_sub_cancel' (not_lt.mp hFirst)]
  outside x hx := by
    have hFirst : ¬ InRange dst n x := by
      unfold InRange at hx ⊢
      omega
    have hSecond : ¬ InRange (dst + BitVec.ofNat 64 n) k x := fun hIn => by
      have hDistance := hIn.distance hFit
      exact hx hDistance.2
    rw [hNext.outside x hSecond, h.outside x hFirst]

end Writes

theorem writes_store (m : Memory) (dst : Word) (value : Byte) :
    Writes m (m.store dst value) dst 1 fun _ => value where
  inside k hk := by
    rw [Nat.lt_one_iff.mp hk, show dst + BitVec.ofNat 64 0 = dst by simp, Memory.store_same]
  outside x hx := Memory.store_of_ne m value fun hEq => hx (by simp [InRange, hEq])

theorem writes_store64 (m : Memory) (dst value : Word) :
    Writes m (m.store64 dst value) dst 8 fun k => value.extractLsb' (8 * k) 8 where
  inside _ hk := Memory.byte_of_store64 m dst value hk
  outside _ hx := if_neg hx

theorem writes_fill (m : Memory) (dst : Word) (value : Byte) (hFit : size ≤ 2 ^ 64) :
    Writes m (m.fill dst size value) dst size fun _ => value where
  inside _ hk := Memory.fill_inside m value (inRange_offset dst hk hFit)
  outside _ hx := Memory.fill_outside m value hx

/-! ## Loops over the pieces -/

theorem cursor_add {cursor base : Word} {done : Nat} (h : cursor = base + BitVec.ofNat 64 done)
    (width : Nat) : cursor + BitVec.ofNat 64 width = base + BitVec.ofNat 64 (done + width) := by
  rw [h, BitVec.add_assoc, ← BitVec.ofNat_add]

/-- The first `done` bytes of a range are written, and the cursor is behind
them. -/
structure Progress (m m' : Memory) (dst cursor : Word) (done : Nat) (bytes : Nat → Byte) :
    Prop where
  writes : Writes m m' dst done bytes
  cursor_eq : cursor = dst + BitVec.ofNat 64 done

theorem Progress.start (m : Memory) (dst : Word) (bytes : Nat → Byte) :
    Progress m m dst dst 0 bytes :=
  ⟨Writes.nothing m dst bytes, by simp⟩

/-- A piece is written at the cursor, which goes on behind it. -/
theorem Progress.piece {cursor : Word} {done width : Nat}
    (h : Progress m m' dst cursor done bytes)
    (hPiece : Writes m' m'' cursor width fun k => bytes (done + k))
    (hFit : done + width ≤ 2 ^ 64) :
    Progress m m'' dst (cursor + BitVec.ofNat 64 width) (done + width) bytes where
  writes := by
    rw [h.cursor_eq] at hPiece
    exact h.writes.append hPiece hFit
  cursor_eq := cursor_add h.cursor_eq width

/-- A loop whose passes go on by `width` bytes each. The invariant holds of the
bytes that are done. -/
theorem iterate_pieces {State : Type*} {body : State → State} {Inv : Nat → State → Prop}
    {width size : Nat}
    (hStep : ∀ done s, done + width ≤ size → Inv done s → Inv (done + width) (body s))
    {done : Nat} {s : State} (h : Inv done s) (passes : Nat)
    (hFit : done + width * passes ≤ size) : Inv (done + width * passes) (body^[passes] s) := by
  induction passes with
  | zero => exact h
  | succ passes ih =>
      rw [Nat.mul_succ] at hFit
      rw [Function.iterate_succ_apply', Nat.mul_succ, ← Nat.add_assoc]
      exact hStep _ _ (by omega) (ih (by omega))

/-- The quotient and the remainder of a signed size, as numbers of passes, cover
the size. A negative size has no passes of either. -/
theorem pieces_add_rest {w : Nat} (size width : BitVec w) (hWidth : 0 < width.toInt) :
    width.toInt.toNat * (size.sdiv width).toInt.toNat + (size.srem width).toInt.toNat =
      size.toInt.toNat := by
  have hNoOverflow : size ≠ BitVec.intMin w ∨ width ≠ -1#w := by
    right
    rintro rfl
    rw [BitVec.neg_one_eq_allOnes, BitVec.toInt_allOnes] at hWidth
    split at hWidth <;> omega
  rw [BitVec.toInt_sdiv_of_ne_or_ne _ _ hNoOverflow, BitVec.toInt_srem]
  obtain hPositive | hNegative := Int.le_total 0 size.toInt
  · have hPieces := Int.tdiv_nonneg hPositive hWidth.le
    have hRest := Int.tmod_nonneg width.toInt hPositive
    rw [← Int.toNat_mul hWidth.le hPieces,
      ← Int.toNat_add (Int.mul_nonneg hWidth.le hPieces) hRest, Int.mul_tdiv_add_tmod]
  · have hPieces : size.toInt.tdiv width.toInt ≤ 0 := by
      rw [← neg_nonneg, ← Int.neg_tdiv]
      exact Int.tdiv_nonneg (neg_nonneg.mpr hNegative) hWidth.le
    have hRest : size.toInt.tmod width.toInt ≤ 0 := by
      rw [← neg_nonneg, ← Int.neg_tmod]
      exact Int.tmod_nonneg _ (neg_nonneg.mpr hNegative)
    rw [Int.toNat_of_nonpos hPieces, Int.toNat_of_nonpos hRest, Int.toNat_of_nonpos hNegative,
      Nat.mul_zero]

end Semantics
