import RiscvOs.Kernel.Memhelp
import RiscvOs.Semantics.Transfer

/-! `memset` and `memcpy` of the user libc, in `string.c`. They go by `long`s and
finish by `char`s; the functions of the same names in `memhelp.c` go by `char`s
only. A `long` may begin at any address. -/
namespace User

open Semantics

/-- `*((long *)l)` -/
def longOf (l : Vector Byte 8) : Word :=
  l[7] ++ l[6] ++ l[5] ++ l[4] ++ l[3] ++ l[2] ++ l[1] ++ l[0]

/-- `*ldst++ = *((long *)l)`, on the memory and the destination. -/
def setLong (l : Vector Byte 8) (s : Memory × Word) : Memory × Word :=
  (s.1.store64 s.2 (longOf l), s.2 + 8)

/-- `*cdst++ = l[0]` -/
def setChar (l : Vector Byte 8) (s : Memory × Word) : Memory × Word :=
  (s.1.store s.2 l[0], s.2 + 1)

/-- The memory behind the call and the pointer that it returns. The size is an
`int`, and so are the two numbers of copies: a loop up to a negative one has no
pass. -/
def memset (m : Memory) (dst : Word) (data : Byte) (size : BitVec 32) : Memory × Word :=
  let l : Vector Byte 8 := #v[data, data, data, data, data, data, data, data]
  let num8ByteCopies := size.sdiv 8
  let num1ByteCopies := size.srem 8
  let longs := (setLong l)^[num8ByteCopies.toInt.toNat] (m, dst)
  let chars := (setChar l)^[num1ByteCopies.toInt.toNat] longs
  (chars.1, dst)

/-- The memory and the two pointers that `memcpy` advances. -/
structure Copy where
  memory : Memory
  dst : Word
  src : Word

/-- `*ldst++ = *lsrc++` -/
def Copy.long (s : Copy) : Copy where
  memory := s.memory.store64 s.dst (s.memory.load64 s.src)
  dst := s.dst + 8
  src := s.src + 8

/-- `*cdst++ = *csrc++` -/
def Copy.char (s : Copy) : Copy where
  memory := s.memory.store s.dst (s.memory s.src)
  dst := s.dst + 1
  src := s.src + 1

def memcpy (m : Memory) (dst src : Word) (size : BitVec 32) : Memory × Word :=
  let num8ByteCopies := size.sdiv 8
  let num1ByteCopies := size.srem 8
  let longs := Copy.long^[num8ByteCopies.toInt.toNat] ⟨m, dst, src⟩
  let chars := Copy.char^[num1ByteCopies.toInt.toNat] longs
  (chars.memory, dst)

/-! ## The two loops -/

variable {m : Memory} {dst src : Word} {data : Byte} {done : Nat} {size : BitVec 32}

theorem size_lt (size : BitVec 32) : size.toInt.toNat < 2 ^ 31 := by
  have hLt : size.toInt < 2 ^ 31 := BitVec.toInt_lt
  omega

/-- The loop over the `long`s ends where the loop over the `char`s begins, and
that one ends at the size. -/
theorem longs_then_chars {State : Type*} {Inv : Nat → State → Prop} {long char : State → State}
    (hLong : ∀ done s, done + 8 ≤ size.toInt.toNat → Inv done s → Inv (done + 8) (long s))
    (hChar : ∀ done s, done + 1 ≤ size.toInt.toNat → Inv done s → Inv (done + 1) (char s))
    {s : State} (h : Inv 0 s) :
    Inv size.toInt.toNat
      (char^[(size.srem 8).toInt.toNat] (long^[(size.sdiv 8).toInt.toNat] s)) := by
  have hSum : 8 * (size.sdiv 8).toInt.toNat + (size.srem 8).toInt.toNat = size.toInt.toNat :=
    pieces_add_rest size 8 (by decide)
  have hLongs := iterate_pieces hLong h (size.sdiv 8).toInt.toNat (by omega)
  have hChars := iterate_pieces hChar hLongs (size.srem 8).toInt.toNat (by omega)
  rwa [Nat.zero_add, Nat.one_mul, hSum] at hChars

/-! ## memset -/

/-- The first `done` bytes are set. -/
def Filled (m : Memory) (dst : Word) (data : Byte) (done : Nat) (s : Memory × Word) : Prop :=
  Progress m s.1 dst s.2 done fun _ => data

theorem byte_of_longOf (data : Byte) {k : Nat} (hk : k < 8) :
    (longOf #v[data, data, data, data, data, data, data, data]).extractLsb' (8 * k) 8 = data :=
  Memory.byte_of_load64 (fun _ => data) 0 hk

theorem Filled.setLong {s : Memory × Word} (h : Filled m dst data done s)
    (hFit : done + 8 ≤ 2 ^ 64) :
    Filled m dst data (done + 8)
      (setLong #v[data, data, data, data, data, data, data, data] s) :=
  h.piece ((writes_store64 s.1 s.2 _).congr fun _ hk => byte_of_longOf data hk) hFit

theorem Filled.setChar {s : Memory × Word} (h : Filled m dst data done s)
    (hFit : done + 1 ≤ 2 ^ 64) :
    Filled m dst data (done + 1)
      (setChar #v[data, data, data, data, data, data, data, data] s) :=
  h.piece (writes_store s.1 s.2 data) hFit

theorem memset_writes (m : Memory) (dst : Word) (data : Byte) (size : BitVec 32) :
    Writes m (memset m dst data size).1 dst size.toInt.toNat fun _ => data := by
  have hFit : size.toInt.toNat ≤ 2 ^ 64 := (size_lt size).le.trans (by decide)
  have hStart : Filled m dst data 0 (m, dst) := Progress.start m dst _
  have hEnd := longs_then_chars (fun _ _ hLe h => h.setLong (hLe.trans hFit))
    (fun _ _ hLe h => h.setChar (hLe.trans hFit)) hStart
  exact hEnd.writes

/-! ## memcpy -/

/-- No byte of the source is in the destination. -/
def Separate (dst src : Word) (size : Nat) : Prop :=
  ∀ x, InRange src size x → ¬ InRange dst size x

/-- The first `done` bytes are copied, and the source is read up to there. -/
structure Copied (m : Memory) (dst src : Word) (done : Nat) (s : Copy) : Prop where
  progress : Progress m s.memory dst s.dst done fun k => m (src + BitVec.ofNat 64 k)
  cursor_eq : s.src = src + BitVec.ofNat 64 done

/-- The bytes of the source are as they were before the copy. -/
theorem Copied.source {s : Copy} {n width k : Nat} (h : Copied m dst src done s)
    (hSeparate : Separate dst src n) (hLe : done + width ≤ n) (hFit : n ≤ 2 ^ 64)
    (hk : k < width) :
    s.memory (s.src + BitVec.ofNat 64 k) = m (src + BitVec.ofNat 64 (done + k)) := by
  have hPlace : s.src + BitVec.ofNat 64 k = src + BitVec.ofNat 64 (done + k) :=
    cursor_add h.cursor_eq k
  have hSource : InRange src n (src + BitVec.ofNat 64 (done + k)) :=
    inRange_offset src (by omega) hFit
  rw [hPlace, h.progress.writes.outside]
  intro hIn
  apply hSeparate _ hSource
  unfold InRange at hIn ⊢
  omega

theorem Copied.long {s : Copy} {n : Nat} (h : Copied m dst src done s)
    (hSeparate : Separate dst src n) (hLe : done + 8 ≤ n) (hFit : n ≤ 2 ^ 64) :
    Copied m dst src (done + 8) s.long where
  progress := h.progress.piece ((writes_store64 s.memory s.dst _).congr fun k hk => by
    rw [Memory.byte_of_load64 s.memory s.src hk]
    exact h.source hSeparate hLe hFit hk) (hLe.trans hFit)
  cursor_eq := cursor_add h.cursor_eq 8

theorem Copied.char {s : Copy} {n : Nat} (h : Copied m dst src done s)
    (hSeparate : Separate dst src n) (hLe : done + 1 ≤ n) (hFit : n ≤ 2 ^ 64) :
    Copied m dst src (done + 1) s.char where
  progress := h.progress.piece ((writes_store s.memory s.dst _).congr fun k hk => by
    have hSource := h.source hSeparate hLe hFit hk
    rw [Nat.lt_one_iff.mp hk] at hSource ⊢
    rw [← hSource, show s.src + BitVec.ofNat 64 0 = s.src by simp]) (hLe.trans hFit)
  cursor_eq := cursor_add h.cursor_eq 1

theorem memcpy_writes (m : Memory) (hSeparate : Separate dst src size.toInt.toNat) :
    Writes m (memcpy m dst src size).1 dst size.toInt.toNat
      fun k => m (src + BitVec.ofNat 64 k) := by
  have hFit : size.toInt.toNat ≤ 2 ^ 64 := (size_lt size).le.trans (by decide)
  have hStart : Copied m dst src 0 ⟨m, dst, src⟩ := ⟨Progress.start m dst _, by simp⟩
  have hEnd := longs_then_chars (fun _ _ hLe h => h.long hSeparate hLe hFit)
    (fun _ _ hLe h => h.char hSeparate hLe hFit) hStart
  exact hEnd.progress.writes

/-! ## The functions of the kernel -/

/-- The size of the kernel's functions is an `int64_t`. -/
theorem size_signExtend (size : BitVec 32) : (size.signExtend 64).toInt = size.toInt :=
  BitVec.toInt_signExtend_of_le (by decide)

theorem kernel_memset_writes (m : Memory) (dst : Word) (data : Byte) (size : BitVec 32) :
    Writes m (Kernel.memset m dst data (size.signExtend 64)) dst size.toInt.toNat
      fun _ => data := by
  rw [Kernel.memset_eq_fill, size_signExtend]
  exact writes_fill m dst data ((size_lt size).le.trans (by decide))

theorem kernel_memcpy_writes (m : Memory) (hSeparate : Separate dst src size.toInt.toNat) :
    Writes m (Kernel.memcpy m dst src (size.signExtend 64)) dst size.toInt.toNat
      fun k => m (src + BitVec.ofNat 64 k) := by
  have hSize : Kernel.copySize (size.signExtend 64) = size.toInt.toNat := by
    rw [Kernel.copySize, size_signExtend]
  rw [← hSize] at hSeparate ⊢
  exact ⟨fun _ hk => Kernel.memcpy_inside m hSeparate hk,
    fun _ hx => Kernel.memcpy_outside m hx⟩

/-- The function of the user libc returns the destination and ends in the memory
of the kernel's function, which has the given bytes in the range and the old
ones elsewhere. -/
structure Agrees (m : Memory) (user : Memory × Word) (kernel : Memory) (dst : Word)
    (size : BitVec 32) (bytes : Nat → Byte) : Prop where
  same : user = (kernel, dst)
  writes : Writes m user.1 dst size.toInt.toNat bytes
  unchanged : size.toInt ≤ 0 → user.1 = m

theorem agrees_of_writes {user : Memory × Word} {kernel : Memory} {bytes : Nat → Byte}
    (hReturned : user.2 = dst) (hUser : Writes m user.1 dst size.toInt.toNat bytes)
    (hKernel : Writes m kernel dst size.toInt.toNat bytes) : Agrees m user kernel dst size bytes where
  same := Prod.ext (hUser.unique hKernel) hReturned
  writes := hUser
  unchanged hSize := by
    rw [Int.toNat_of_nonpos hSize] at hUser
    exact hUser.eq_of_nothing

/-- `memset` and `memcpy` of the user libc leave the memory that those of the
kernel leave, for every size and wherever the ranges are. -/
theorem string_agrees_memhelp (m : Memory) (dst src : Word) (data : Byte) (size : BitVec 32) :
    Agrees m (memset m dst data size) (Kernel.memset m dst data (size.signExtend 64)) dst size
        (fun _ => data) ∧
      (Separate dst src size.toInt.toNat →
        Agrees m (memcpy m dst src size) (Kernel.memcpy m dst src (size.signExtend 64)) dst size
          fun k => m (src + BitVec.ofNat 64 k)) := by
  constructor
  · exact agrees_of_writes rfl (memset_writes m dst data size)
      (kernel_memset_writes m dst data size)
  · intro hSeparate
    exact agrees_of_writes rfl (memcpy_writes m hSeparate) (kernel_memcpy_writes m hSeparate)

/-- A `long` and five `char`s, between ranges that are apart. -/
theorem string_agrees_memhelp_thirteen :
    Agrees (fun x => x.setWidth 8) (memcpy (fun x => x.setWidth 8) 100 200 13)
        (Kernel.memcpy (fun x => x.setWidth 8) 100 200 13) 100 13
        (fun k => ((200 : Word) + BitVec.ofNat 64 k).setWidth 8) := by
  have hSeparate : Separate 100 200 (13 : BitVec 32).toInt.toNat := by
    intro x hSource hDestination
    rw [show (13 : BitVec 32).toInt.toNat = 13 from rfl] at *
    unfold InRange at *
    bv_omega
  exact (string_agrees_memhelp (fun x => x.setWidth 8) 100 200 0 13).2 hSeparate

/-- In a destination one byte behind the source, the `long` is read before its
bytes are overwritten. -/
example : (memcpy (fun x => x.setWidth 8) 1 0 9).1 9 = 7 ∧
    Kernel.memcpy (fun x => x.setWidth 8) 1 0 9 9 = 0 := by
  decide

end User
