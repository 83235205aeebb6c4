import RiscvOs.Semantics.Loop
import RiscvOs.Semantics.Memory
import Mathlib.Data.List.Basic

/-! Texts of bytes with a zero byte behind them. What a pointer points to is
given by the bytes from it on. -/
namespace Semantics

/-- The bytes spell the text, which ends at the first zero byte. -/
structure Spells (bytes : Nat → Byte) (text : List Byte) : Prop where
  get : ∀ (k : Nat) (h : k < text.length), bytes k = text[k]
  terminated : bytes text.length = 0
  nonzero : 0 ∉ text

/-- The memory holds the text at an address. -/
def StringAt (m : Memory) (a : Word) (text : List Byte) : Prop :=
  Spells (fun k => m (a + BitVec.ofNat 64 k)) text

namespace Spells

variable {bytes : Nat → Byte} {text text' : List Byte}

theorem ne_zero (h : Spells bytes text) {k : Nat} (hk : k < text.length) : bytes k ≠ 0 := by
  intro hZero
  rw [h.get k hk] at hZero
  exact h.nonzero (hZero ▸ List.getElem_mem hk)

theorem length_le (h : Spells bytes text) {k : Nat} (hk : bytes k = 0) : text.length ≤ k := by
  by_contra hLt
  exact h.ne_zero (by omega) hk

theorem length_eq (h : Spells bytes text) (h' : Spells bytes text') :
    text.length = text'.length :=
  le_antisymm (h.length_le h'.terminated) (h'.length_le h.terminated)

/-- Bytes spell one text. -/
theorem unique (h : Spells bytes text) (h' : Spells bytes text') : text = text' := by
  refine List.ext_getElem (h.length_eq h') fun k hk hk' => ?_
  rw [← h.get k hk, ← h'.get k hk']

theorem nil_iff : Spells bytes [] ↔ bytes 0 = 0 := by
  constructor
  · exact fun h => h.terminated
  · exact fun h => ⟨fun k hk => absurd hk (by simp), h, by simp⟩

theorem cons_iff {c : Byte} :
    Spells bytes (c :: text) ↔ bytes 0 = c ∧ c ≠ 0 ∧ Spells (fun k => bytes (k + 1)) text := by
  constructor
  · intro h
    have hFirst : bytes 0 = c := h.get 0 (by simp)
    refine ⟨hFirst, hFirst ▸ h.ne_zero (by simp), ?_, h.terminated,
      fun hZero => h.nonzero (List.mem_cons_of_mem _ hZero)⟩
    intro k hk
    exact h.get (k + 1) (by simpa using hk)
  · rintro ⟨hFirst, hNonzero, hRest⟩
    refine ⟨fun k hk => ?_, hRest.terminated, ?_⟩
    · cases k with
      | zero => exact hFirst
      | succ k => exact hRest.get k (by simpa using hk)
    · intro hZero
      rcases List.mem_cons.mp hZero with hFirst | hZero
      · exact hNonzero hFirst.symm
      · exact hRest.nonzero hZero

theorem get_of_prefix {front : List Byte} (h : Spells bytes text) (hPrefix : front <+: text)
    {k : Nat} (hk : k < front.length) : bytes k = front[k] := by
  obtain ⟨rest, rfl⟩ := hPrefix
  rw [h.get k (by rw [List.length_append]; omega), List.getElem_append_left hk]

/-- A text behind another one. -/
theorem drop {front : List Byte} (h : Spells bytes (front ++ text)) :
    Spells (fun k => bytes (front.length + k)) text := by
  induction front generalizing bytes with
  | nil => simpa using h
  | cons c front ih =>
      have hRest := ih (cons_iff.mp h).2.2
      simpa [Nat.add_right_comm] using hRest

/-- Bytes with a zero byte behind them spell the text up to the first zero byte. -/
theorem takeWhile (hGet : ∀ (k : Nat) (h : k < text.length), bytes k = text[k])
    (hEnd : bytes text.length = 0) : Spells bytes (text.takeWhile (· ≠ 0)) := by
  induction text generalizing bytes with
  | nil => exact nil_iff.mpr hEnd
  | cons c text ih =>
      have hFirst : bytes 0 = c := hGet 0 (by simp)
      have hRest : Spells (fun k => bytes (k + 1)) (text.takeWhile (· ≠ 0)) :=
        ih (fun k hk => hGet (k + 1) (by simpa using hk)) hEnd
      by_cases hZero : c = 0
      · rw [List.takeWhile_cons_of_neg (by simpa using hZero), nil_iff, hFirst, hZero]
      · rw [List.takeWhile_cons_of_pos (by simpa using hZero)]
        exact cons_iff.mpr ⟨hFirst, hZero, hRest⟩

/-- A loop that looks for a byte of the text finds its first place. -/
theorem scan_found {front : List Byte} {c : Byte} {fuel : Nat} (h : Spells bytes (front ++ c :: text))
    (hFirst : c ∉ front) (hFuel : front.length < fuel) :
    scan (fun i => bytes i = c ∨ bytes i = 0) fuel 0 = some front.length := by
  refine scan_eq_some_iff.mpr ⟨Nat.zero_le _, by omega, .inl ?_, fun j _ hj => ?_⟩
  · simpa using h.get front.length (by simp)
  · have hLength : j < (front ++ c :: text).length := by
      rw [List.length_append]
      omega
    rintro (hHere | hEnd)
    · rw [h.get j hLength, List.getElem_append_left hj] at hHere
      exact hFirst (hHere ▸ List.getElem_mem hj)
    · exact h.ne_zero hLength hEnd

/-- A loop that looks for another byte comes to the end. -/
theorem scan_missing {c : Byte} {fuel : Nat} (h : Spells bytes text) (hMissing : c ∉ text)
    (hFuel : text.length < fuel) :
    scan (fun i => bytes i = c ∨ bytes i = 0) fuel 0 = some text.length := by
  refine scan_eq_some_iff.mpr ⟨Nat.zero_le _, by omega, .inr h.terminated, fun j _ hj => ?_⟩
  rintro (hHere | hEnd)
  · rw [h.get j hj] at hHere
    exact hMissing (hHere ▸ List.getElem_mem hj)
  · exact h.ne_zero hj hEnd

end Spells

namespace StringAt

variable {m m' : Memory} {a : Word} {c : Byte} {text text' front : List Byte}

theorem cons_iff :
    StringAt m a (c :: text) ↔ m a = c ∧ c ≠ 0 ∧ StringAt m (a + 1) text := by
  have hShift (k : Nat) : a + BitVec.ofNat 64 (k + 1) = a + 1 + BitVec.ofNat 64 k := by
    rw [BitVec.ofNat_add, BitVec.add_assoc, BitVec.add_comm (BitVec.ofNat 64 k)]
    rfl
  unfold StringAt
  rw [Spells.cons_iff]
  simp only [hShift, BitVec.add_zero]

theorem nil_iff : StringAt m a [] ↔ m a = 0 := by
  unfold StringAt
  rw [Spells.nil_iff]
  simp only [BitVec.add_zero]

theorem unique (h : StringAt m a text) (h' : StringAt m a text') : text = text' :=
  Spells.unique h h'

theorem drop (h : StringAt m a (front ++ text)) :
    StringAt m (a + BitVec.ofNat 64 front.length) text := by
  have hRest := Spells.drop h
  unfold StringAt
  simpa only [BitVec.ofNat_add, ← BitVec.add_assoc] using hRest

/-- A string depends on its bytes only. -/
theorem congr (h : StringAt m a text) (hSame : Memory.AgreeOn m m' a (text.length + 1))
    (hFit : text.length < 2 ^ 64) : StringAt m' a text := by
  have hByte (k : Nat) (hk : k ≤ text.length) :
      m' (a + BitVec.ofNat 64 k) = m (a + BitVec.ofNat 64 k) :=
    hSame _ (by unfold InRange; bv_omega)
  refine ⟨fun k hk => ?_, ?_, h.nonzero⟩
  · show m' (a + BitVec.ofNat 64 k) = _
    rw [hByte k (by omega)]
    exact h.get k hk
  · show m' (a + BitVec.ofNat 64 text.length) = 0
    rw [hByte _ (le_refl _)]
    exact h.terminated

/-- A zero byte ends the string before it. -/
theorem cut (h : StringAt m a (front ++ text)) (hFit : front.length < 2 ^ 64) :
    StringAt (m.store (a + BitVec.ofNat 64 front.length) 0) a front := by
  refine ⟨fun k hk => ?_, ?_, fun hZero => h.nonzero (List.mem_append_left _ hZero)⟩
  · have hOther : a + BitVec.ofNat 64 k ≠ a + BitVec.ofNat 64 front.length := by bv_omega
    have hGet := h.get k (by rw [List.length_append]; omega)
    rw [List.getElem_append_left hk] at hGet
    show m.store _ 0 (a + BitVec.ofNat 64 k) = _
    rw [Memory.store_of_ne _ _ hOther]
    exact hGet
  · exact Memory.store_same ..

end StringAt

end Semantics
