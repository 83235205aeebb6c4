import RiscvOs.Semantics.Memory

/-! `memhelp.c`, and the conversion of C `int` values to 64-bit operands. -/
namespace Kernel

open Semantics

/-- The 64-bit operand an `int` expression is converted to: the value wraps
to 32 bits and its sign is extended. -/
def intWord (value : Nat) : Word :=
  (BitVec.ofNat 32 value).signExtend 64

theorem intWord_of_lt {value : Nat} (h : value < 2 ^ 31) : intWord value = BitVec.ofNat 64 value := by
  apply BitVec.eq_of_toNat_eq
  have hMsb : (BitVec.ofNat 32 value).msb = false := by
    rw [BitVec.msb_eq_decide, BitVec.toNat_ofNat]
    simp only [decide_eq_false_iff_not, not_le]
    omega
  rw [intWord, BitVec.signExtend_eq_setWidth_of_msb_false hMsb, BitVec.toNat_setWidth,
    BitVec.toNat_ofNat, BitVec.toNat_ofNat]
  omega

/-- `ALIGN_UP_POT` -/
def alignUpPot (x y : Word) : Word :=
  (x + y - 1) &&& -y

/-- `ALIGN_DOWN_POT` -/
def alignDownPot (x y : Word) : Word :=
  x &&& -y

/-- A loop of `memset`, after the given number of iterations. -/
def memsetLoop (m : Memory) (dst : Word) (data : Byte) : Nat → Memory
  | 0 => m
  | i + 1 => (memsetLoop m dst data i).store (dst + BitVec.ofNat 64 i) data

/-- The size is an `int64_t`: a negative one leaves the memory as it is. -/
def memset (m : Memory) (dst : Word) (data : Byte) (size : Word) : Memory :=
  memsetLoop m dst data size.toInt.toNat

def memcpyLoop (m : Memory) (dst src : Word) : Nat → Memory
  | 0 => m
  | i + 1 =>
      let cdst := memcpyLoop m dst src i
      cdst.store (dst + BitVec.ofNat 64 i) (cdst (src + BitVec.ofNat 64 i))

/-- Byte by byte, in ascending order. -/
def memcpy (m : Memory) (dst src : Word) (size : Word) : Memory :=
  memcpyLoop m dst src size.toInt.toNat

theorem memsetLoop_eq_fill (m : Memory) (dst : Word) (data : Byte) {size : Nat}
    (h : size ≤ 2 ^ 64) : memsetLoop m dst data size = m.fill dst size data := by
  induction size with
  | zero =>
      funext x
      simp [memsetLoop, Memory.fill, InRange]
  | succ i ih =>
      funext x
      rw [memsetLoop, ih (by omega)]
      by_cases hx : x = dst + BitVec.ofNat 64 i
      · have hLast : InRange dst (i + 1) x := by
          unfold InRange
          bv_omega
        rw [hx, Memory.store_same, ← hx, Memory.fill_inside _ _ hLast]
      · have hSame : InRange dst (i + 1) x ↔ InRange dst i x := by
          unfold InRange
          bv_omega
        rw [Memory.store_of_ne _ _ hx]
        simp only [Memory.fill, hSame]

theorem memset_eq_fill (m : Memory) (dst : Word) (data : Byte) (size : Word) :
    memset m dst data size = m.fill dst size.toInt.toNat data := by
  apply memsetLoop_eq_fill
  have hLt : size.toInt < 2 ^ 63 := BitVec.toInt_lt
  omega

theorem memcpyLoop_outside (m : Memory) (dst src : Word) {size : Nat} (h : size ≤ 2 ^ 64) {x : Word}
    (hx : ¬ InRange dst size x) : memcpyLoop m dst src size x = m x := by
  induction size with
  | zero => rfl
  | succ i ih =>
      have hHere : x ≠ dst + BitVec.ofNat 64 i := by
        rintro rfl
        unfold InRange at hx
        bv_omega
      have hBefore : ¬ InRange dst i x := by
        unfold InRange at hx ⊢
        omega
      rw [memcpyLoop, Memory.store_of_ne _ _ hHere, ih (by omega) hBefore]

/-- A copy to a range without a byte of the source. -/
theorem memcpyLoop_inside (m : Memory) {dst src : Word} {size : Nat} (h : size ≤ 2 ^ 64)
    (hApart : ∀ x, InRange src size x → ¬ InRange dst size x) {k : Nat} (hk : k < size) :
    memcpyLoop m dst src size (dst + BitVec.ofNat 64 k) = m (src + BitVec.ofNat 64 k) := by
  induction size with
  | zero => omega
  | succ i ih =>
      rw [memcpyLoop]
      by_cases hLast : k = i
      · have hSource : InRange src (i + 1) (src + BitVec.ofNat 64 i) :=
          inRange_offset src (Nat.lt_succ_self i) h
        rw [hLast, Memory.store_same, memcpyLoop_outside m dst src (by omega)]
        exact fun hIn => hApart _ hSource (Nat.lt_succ_of_lt hIn)
      · have hOther : dst + BitVec.ofNat 64 k ≠ dst + BitVec.ofNat 64 i := by bv_omega
        rw [Memory.store_of_ne _ _ hOther]
        exact ih (by omega) (fun x hx hIn =>
          hApart x (Nat.lt_succ_of_lt hx) (Nat.lt_succ_of_lt hIn)) (by omega)

/-- The number of bytes that a size in bytes, an `int64_t`, stands for. -/
def copySize (size : Word) : Nat :=
  size.toInt.toNat

theorem copySize_lt (size : Word) : copySize size < 2 ^ 63 := by
  have hLt : size.toInt < 2 ^ 63 := BitVec.toInt_lt
  unfold copySize
  omega

theorem copySize_of_lt {size : Word} (h : size.toNat < 2 ^ 63) : copySize size = size.toNat := by
  rw [copySize, BitVec.toInt_eq_toNat_of_lt (by omega)]
  rfl

theorem memcpy_outside (m : Memory) {dst src size x : Word}
    (hx : ¬ InRange dst (copySize size) x) : memcpy m dst src size x = m x :=
  memcpyLoop_outside m dst src ((copySize_lt size).le.trans (by decide)) hx

theorem memcpy_inside (m : Memory) {dst src size : Word}
    (hApart : ∀ x, InRange src (copySize size) x → ¬ InRange dst (copySize size) x) {k : Nat}
    (hk : k < copySize size) :
    memcpy m dst src size (dst + BitVec.ofNat 64 k) = m (src + BitVec.ofNat 64 k) :=
  memcpyLoop_inside m ((copySize_lt size).le.trans (by decide)) hApart hk

end Kernel
