import Mathlib.Data.BitVec

/-! Byte-addressed memory with a 64-bit address space that wraps around, and
little-endian words in it. A range is given by its first address and its
length; `Apart` says that two ranges share no byte. -/
namespace Semantics

abbrev Byte := BitVec 8
abbrev Word := BitVec 64
abbrev Memory := Word → Byte

/-! The sizes of the finite index types, for their literals. -/

instance neZero8 : NeZero 8 :=
  ⟨by decide⟩

instance neZero10 : NeZero 10 :=
  ⟨by decide⟩

instance neZero32 : NeZero 32 :=
  ⟨by decide⟩

/-- The address lies in the range of `size` bytes that starts at `base`. -/
def InRange (base : Word) (size : Nat) (address : Word) : Prop :=
  (address - base).toNat < size

instance (base : Word) (size : Nat) (address : Word) : Decidable (InRange base size address) :=
  inferInstanceAs (Decidable (_ < _))

/-- Two ranges without a common byte, both read around the address space. -/
def Apart (a : Word) (n : Nat) (b : Word) (k : Nat) : Prop :=
  n ≤ (b - a).toNat ∧ k ≤ (a - b).toNat

theorem Apart.symm {a b : Word} {n k : Nat} (h : Apart a n b k) : Apart b k a n :=
  ⟨h.2, h.1⟩

theorem Apart.not_inRange {a b x : Word} {n k : Nat} (h : Apart a n b k)
    (hx : InRange b k x) : ¬ InRange a n x := by
  obtain ⟨hn, hk⟩ := h
  unfold InRange at *
  bv_omega

theorem Apart.mono {a b : Word} {n k n' k' : Nat} (h : Apart a n b k) (hn : n' ≤ n)
    (hk : k' ≤ k) : Apart a n' b k' :=
  ⟨hn.trans h.1, hk.trans h.2⟩

/-- An address is a base and its distance behind that. -/
theorem eq_add_distance (base x : Word) : x = base + BitVec.ofNat 64 (x - base).toNat := by
  rw [BitVec.ofNat_toNat, BitVec.setWidth_eq]
  bv_omega

theorem inRange_offset (base : Word) {size k : Nat} (hk : k < size) (hFit : size ≤ 2 ^ 64) :
    InRange base size (base + BitVec.ofNat 64 k) := by
  unfold InRange
  bv_omega

theorem inRange_iff_exists {a x : Word} {n : Nat} (hn : n ≤ 2 ^ 64) :
    InRange a n x ↔ ∃ k < n, x = a + BitVec.ofNat 64 k := by
  constructor
  · intro hIn
    exact ⟨(x - a).toNat, hIn, eq_add_distance a x⟩
  · rintro ⟨k, hk, rfl⟩
    exact inRange_offset a hk hn

/-- A range that starts at an offset from a base, in distances from the base. -/
theorem InRange.distance {base x : Word} {offset size : Nat}
    (h : InRange (base + BitVec.ofNat 64 offset) size x) (hFit : offset + size ≤ 2 ^ 64) :
    offset ≤ (x - base).toNat ∧ (x - base).toNat < offset + size := by
  unfold InRange at h
  bv_omega

theorem inRange_iff_toNat {a x : Word} {n : Nat} (h : a.toNat + n ≤ 2 ^ 64) :
    InRange a n x ↔ a.toNat ≤ x.toNat ∧ x.toNat < a.toNat + n := by
  unfold InRange
  rw [BitVec.toNat_sub]
  omega

/-- A part of a range, given by its offset, lies in the range. -/
theorem InRange.part {a x : Word} {n i n' : Nat} (h : InRange (a + BitVec.ofNat 64 i) n' x)
    (hi : i + n' ≤ n) (hFit : n ≤ 2 ^ 64) : InRange a n x := by
  have hDistance := h.distance (by omega)
  unfold InRange
  omega

/-- Two ranges given by offsets from a common base. -/
theorem apart_of_offsets {a : Word} {n k i j : Nat} (hn : 0 < n) (hk : 0 < k)
    (h : i + n ≤ j ∨ j + k ≤ i) (hi : i + n ≤ 2 ^ 64) (hj : j + k ≤ 2 ^ 64) :
    Apart (a + BitVec.ofNat 64 i) n (a + BitVec.ofNat 64 j) k := by
  have hRight : a + BitVec.ofNat 64 j - (a + BitVec.ofNat 64 i) =
      BitVec.ofNat 64 j - BitVec.ofNat 64 i := by bv_omega
  have hLeft : a + BitVec.ofNat 64 i - (a + BitVec.ofNat 64 j) =
      BitVec.ofNat 64 i - BitVec.ofNat 64 j := by bv_omega
  unfold Apart
  rw [hRight, hLeft]
  simp only [BitVec.toNat_sub, BitVec.toNat_ofNat]
  omega

/-- Parts of two ranges that are apart are apart. -/
theorem Apart.part {a b : Word} {n k n' k' i j : Nat} (h : Apart a n b k) (hi : i + n' ≤ n)
    (hj : j + k' ≤ k) (hn' : 0 < n') (hk' : 0 < k') :
    Apart (a + BitVec.ofNat 64 i) n' (b + BitVec.ofNat 64 j) k' := by
  obtain ⟨hn, hk⟩ := h
  have hBase := eq_add_distance a b
  have hSum : (b - a).toNat + k ≤ 2 ^ 64 := by bv_omega
  rw [hBase, BitVec.add_assoc, ← BitVec.ofNat_add]
  exact apart_of_offsets hn' hk' (by omega) (by omega) (by omega)

theorem Apart.part_right {a b : Word} {n k k' j : Nat} (h : Apart a n b k) (hj : j + k' ≤ k)
    (hn : 0 < n) (hk' : 0 < k') : Apart a n (b + BitVec.ofNat 64 j) k' := by
  have hPart : Apart (a + BitVec.ofNat 64 0) n (b + BitVec.ofNat 64 j) k' :=
    h.part (by omega) hj hn hk'
  rwa [show a + BitVec.ofNat 64 0 = a by simp] at hPart

/-- A part of a range and the bytes before it. -/
theorem apart_behind (a : Word) {n k : Nat} (hn : 0 < n) (hk : 0 < k) (hFit : n + k ≤ 2 ^ 64) :
    Apart a n (a + BitVec.ofNat 64 n) k := by
  have hApart := apart_of_offsets (a := a) (i := 0) (j := n) hn hk (.inl (by omega)) (by omega)
    (by omega)
  rwa [show a + BitVec.ofNat 64 0 = a by simp] at hApart

namespace Memory

/-- One byte is replaced. -/
def store (m : Memory) (a : Word) (value : Byte) : Memory :=
  fun x => if x = a then value else m x

/-- The same byte in a whole range. -/
def fill (m : Memory) (a : Word) (size : Nat) (value : Byte) : Memory :=
  fun x => if InRange a size x then value else m x

def load16 (m : Memory) (a : Word) : BitVec 16 :=
  m (a + 1) ++ m a

def load32 (m : Memory) (a : Word) : BitVec 32 :=
  m (a + 3) ++ m (a + 2) ++ m (a + 1) ++ m a

/-- The little-endian word in the eight bytes from `a` on. -/
def load64 (m : Memory) (a : Word) : Word :=
  m (a + 7) ++ m (a + 6) ++ m (a + 5) ++ m (a + 4) ++ m (a + 3) ++ m (a + 2) ++ m (a + 1) ++ m a

def store64 (m : Memory) (a : Word) (value : Word) : Memory :=
  fun x => if InRange a 8 x then value.extractLsb' (8 * (x - a).toNat) 8 else m x

def store32 (m : Memory) (a : Word) (value : BitVec 32) : Memory :=
  fun x => if InRange a 4 x then value.extractLsb' (8 * (x - a).toNat) 8 else m x

/-- The two memories agree on a range. -/
def AgreeOn (m m' : Memory) (a : Word) (size : Nat) : Prop :=
  ∀ x, InRange a size x → m' x = m x

@[simp] theorem store_same (m : Memory) (a : Word) (value : Byte) : store m a value a = value := by
  simp [store]

theorem store_of_ne (m : Memory) {a x : Word} (value : Byte) (h : x ≠ a) :
    store m a value x = m x := by
  simp [store, h]

theorem fill_inside (m : Memory) {a x : Word} {size : Nat} (value : Byte) (h : InRange a size x) :
    fill m a size value x = value := by
  simp [fill, h]

theorem fill_outside (m : Memory) {a x : Word} {size : Nat} (value : Byte)
    (h : ¬ InRange a size x) : fill m a size value x = m x := by
  simp [fill, h]

/-- A store inside a range keeps the bytes outside. -/
theorem store_outside (m : Memory) {a k x : Word} {n : Nat} (value : Byte)
    (hx : ¬ InRange a n x) (hk : k.toNat < n) : store m (a + k) value x = m x :=
  store_of_ne m value fun hEq => hx (by rw [hEq]; unfold InRange; bv_omega)

theorem store64_outside (m : Memory) {a k x : Word} {n : Nat} (value : Word)
    (hx : ¬ InRange a n x) (hk : k.toNat + 8 ≤ n) : store64 m (a + k) value x = m x := by
  rw [store64, if_neg fun hIn => hx (by unfold InRange at hIn ⊢; bv_omega)]

theorem byte_of_store64 (m : Memory) (a value : Word) {k : Nat} (hk : k < 8) :
    store64 m a value (a + BitVec.ofNat 64 k) = value.extractLsb' (8 * k) 8 := by
  have hOffset : (a + BitVec.ofNat 64 k - a).toNat = k := by bv_omega
  simp only [store64, InRange, hOffset, hk, ↓reduceIte]

theorem byte_of_store32 (m : Memory) (a : Word) (value : BitVec 32) {k : Nat} (hk : k < 4) :
    store32 m a value (a + BitVec.ofNat 64 k) = value.extractLsb' (8 * k) 8 := by
  have hOffset : (a + BitVec.ofNat 64 k - a).toNat = k := by bv_omega
  simp only [store32, InRange, hOffset, hk, ↓reduceIte]

theorem load64_store64 (m : Memory) (a value : Word) : load64 (store64 m a value) a = value := by
  have hByte (k : Nat) (hk : k < 8) := byte_of_store64 m a value hk
  have h0 := hByte 0 (by omega)
  rw [show a + BitVec.ofNat 64 0 = a by simp] at h0
  unfold load64
  rw [show (7 : Word) = BitVec.ofNat 64 7 from rfl, show (6 : Word) = BitVec.ofNat 64 6 from rfl,
    show (5 : Word) = BitVec.ofNat 64 5 from rfl, show (4 : Word) = BitVec.ofNat 64 4 from rfl,
    show (3 : Word) = BitVec.ofNat 64 3 from rfl, show (2 : Word) = BitVec.ofNat 64 2 from rfl,
    show (1 : Word) = BitVec.ofNat 64 1 from rfl, h0,
    hByte 1 (by omega), hByte 2 (by omega), hByte 3 (by omega), hByte 4 (by omega),
    hByte 5 (by omega), hByte 6 (by omega), hByte 7 (by omega)]
  apply BitVec.eq_of_getLsbD_eq
  intro i hi
  simp only [BitVec.getLsbD_append, BitVec.getLsbD_extractLsb']
  grind

theorem load32_store32 (m : Memory) (a : Word) (value : BitVec 32) :
    load32 (store32 m a value) a = value := by
  have hByte (k : Nat) (hk : k < 4) := byte_of_store32 m a value hk
  have h0 := hByte 0 (by omega)
  rw [show a + BitVec.ofNat 64 0 = a by simp] at h0
  unfold load32
  rw [show (3 : Word) = BitVec.ofNat 64 3 from rfl, show (2 : Word) = BitVec.ofNat 64 2 from rfl,
    show (1 : Word) = BitVec.ofNat 64 1 from rfl, h0, hByte 1 (by omega), hByte 2 (by omega),
    hByte 3 (by omega)]
  apply BitVec.eq_of_getLsbD_eq
  intro i hi
  simp only [BitVec.getLsbD_append, BitVec.getLsbD_extractLsb']
  grind

/-- A word is read from its eight bytes only. -/
theorem load64_congr {m m' : Memory} {a : Word} (h : AgreeOn m m' a 8) :
    load64 m' a = load64 m a := by
  have hByte (k : Word) (hk : k.toNat < 8) : m' (a + k) = m (a + k) :=
    h _ (by unfold InRange; bv_omega)
  have h0 : m' a = m a := h _ (by unfold InRange; bv_omega)
  unfold load64
  rw [h0, hByte 1 (by decide), hByte 2 (by decide), hByte 3 (by decide), hByte 4 (by decide),
    hByte 5 (by decide), hByte 6 (by decide), hByte 7 (by decide)]

theorem byte_of_load64 (m : Memory) (a : Word) {k : Nat} (hk : k < 8) :
    (load64 m a).extractLsb' (8 * k) 8 = m (a + BitVec.ofNat 64 k) := by
  have h0 : a + 0#64 = a := by simp
  unfold load64
  obtain rfl | rfl | rfl | rfl | rfl | rfl | rfl | rfl : k = 0 ∨ k = 1 ∨ k = 2 ∨ k = 3 ∨ k = 4 ∨
      k = 5 ∨ k = 6 ∨ k = 7 := by omega
  all_goals simp (disch := decide) only [BitVec.extractLsb'_append_eq_of_add_le,
    BitVec.extractLsb'_append_eq_of_le]
  all_goals simp [h0]

theorem byte_of_load32 (m : Memory) (a : Word) {k : Nat} (hk : k < 4) :
    (load32 m a).extractLsb' (8 * k) 8 = m (a + BitVec.ofNat 64 k) := by
  have h0 : a + 0#64 = a := by simp
  unfold load32
  obtain rfl | rfl | rfl | rfl : k = 0 ∨ k = 1 ∨ k = 2 ∨ k = 3 := by omega
  all_goals simp (disch := decide) only [BitVec.extractLsb'_append_eq_of_add_le,
    BitVec.extractLsb'_append_eq_of_le]
  all_goals simp [h0]

/-- Storing the word that is there changes nothing. -/
theorem store32_eq_self {m : Memory} {a : Word} {value : BitVec 32} (h : load32 m a = value) :
    store32 m a value = m := by
  funext x
  unfold store32
  split
  next hx =>
    have hOffset := eq_add_distance a x
    rw [← h, byte_of_load32 m a hx, ← hOffset]
  · rfl

/-- Equal words have equal bytes. -/
theorem agreeOn_of_load64 {m m' : Memory} {a : Word} (h : load64 m' a = load64 m a) :
    AgreeOn m m' a 8 := by
  intro x hx
  rw [eq_add_distance a x, ← byte_of_load64 m' a hx, ← byte_of_load64 m a hx, h]

theorem load32_congr {m m' : Memory} {a : Word} (h : AgreeOn m m' a 4) :
    load32 m' a = load32 m a := by
  have hByte (k : Word) (hk : k.toNat < 4) : m' (a + k) = m (a + k) :=
    h _ (by unfold InRange; bv_omega)
  have h0 : m' a = m a := h _ (by unfold InRange; bv_omega)
  unfold load32
  rw [h0, hByte 1 (by decide), hByte 2 (by decide), hByte 3 (by decide)]

theorem load16_congr {m m' : Memory} {a : Word} (h : AgreeOn m m' a 2) :
    load16 m' a = load16 m a := by
  have hByte : m' (a + 1) = m (a + 1) := h _ (by unfold InRange; bv_omega)
  have h0 : m' a = m a := h _ (by unfold InRange; bv_omega)
  unfold load16
  rw [h0, hByte]

/-- Words of the same bytes, at any two addresses. -/
theorem load32_of_bytes {m m' : Memory} {a b : Word}
    (h : ∀ k < 4, m (a + BitVec.ofNat 64 k) = m' (b + BitVec.ofNat 64 k)) :
    load32 m a = load32 m' b := by
  have h0 := h 0 (by decide)
  rw [show a + BitVec.ofNat 64 0 = a by simp, show b + BitVec.ofNat 64 0 = b by simp] at h0
  unfold load32
  rw [h0]
  exact congrArg₂ _ (congrArg₂ _ (congrArg₂ _ (h 3 (by decide)) (h 2 (by decide))) (h 1 (by decide)))
    rfl

theorem load16_of_bytes {m m' : Memory} {a b : Word}
    (h : ∀ k < 2, m (a + BitVec.ofNat 64 k) = m' (b + BitVec.ofNat 64 k)) :
    load16 m a = load16 m' b := by
  have h0 := h 0 (by decide)
  rw [show a + BitVec.ofNat 64 0 = a by simp, show b + BitVec.ofNat 64 0 = b by simp] at h0
  unfold load16
  rw [h0]
  exact congrArg₂ _ (h 1 (by decide)) rfl

theorem agreeOn_store64 (m : Memory) {a b : Word} {size : Nat} (value : Word)
    (h : Apart a 8 b size) : AgreeOn m (store64 m a value) b size := by
  intro x hx
  simp [store64, h.not_inRange hx]

theorem agreeOn_store32 (m : Memory) {a b : Word} {size : Nat} (value : BitVec 32)
    (h : Apart a 4 b size) : AgreeOn m (store32 m a value) b size := by
  intro x hx
  simp [store32, h.not_inRange hx]

theorem agreeOn_fill (m : Memory) {a b : Word} {n size : Nat} (value : Byte)
    (h : Apart a n b size) : AgreeOn m (fill m a n value) b size :=
  fun _ hx => fill_outside m value (h.not_inRange hx)

theorem AgreeOn.trans {m m' m'' : Memory} {a : Word} {size : Nat} (h : AgreeOn m m' a size)
    (h' : AgreeOn m' m'' a size) : AgreeOn m m'' a size :=
  fun x hx => (h' x hx).trans (h x hx)

theorem AgreeOn.part {m m' : Memory} {a : Word} {n k i : Nat} (h : AgreeOn m m' a n)
    (hi : i + k ≤ n) (hFit : n ≤ 2 ^ 64) : AgreeOn m m' (a + BitVec.ofNat 64 i) k :=
  fun x hx => h x (hx.part hi hFit)

theorem load64_store64_apart (m : Memory) {a b : Word} (value : Word) (h : Apart a 8 b 8) :
    load64 (store64 m a value) b = load64 m b :=
  load64_congr (agreeOn_store64 m value h)

theorem load64_zero {m : Memory} {a : Word} (h : ∀ x, InRange a 8 x → m x = 0) :
    load64 m a = 0 := by
  have hAgree : AgreeOn (fun _ => 0) m a 8 := h
  rw [load64_congr hAgree]
  simp only [load64]
  rfl

theorem load64_fill_zero (m : Memory) {a b : Word} {size : Nat}
    (h : ∀ x, InRange b 8 x → InRange a size x) : load64 (fill m a size 0) b = 0 :=
  load64_zero fun x hx => fill_inside m 0 (h x hx)

end Memory

end Semantics
