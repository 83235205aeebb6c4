import Mathlib.Data.List.Basic
import Mathlib.Logic.Function.Basic

/-! Circular buffers. A window of a buffer of `capacity` slots is a number of
consecutive slots, read around the end; positions are counted without wrapping
around. -/
namespace Semantics

open Function

variable {α : Type*}

/-- The contents of `count` slots from the position `start` on. -/
def window (slots : Nat → α) (capacity start count : Nat) : List α :=
  (List.range count).map fun i => slots ((start + i) % capacity)

variable (slots : Nat → α) (capacity start count : Nat)

@[simp]
theorem length_window : (window slots capacity start count).length = count := by
  simp [window]

@[simp]
theorem window_zero : window slots capacity start 0 = [] :=
  rfl

/-- The slot after a window extends it. -/
theorem window_succ : window slots capacity start (count + 1) =
    window slots capacity start count ++ [slots ((start + count) % capacity)] := by
  simp [window, List.range_succ]

/-- A window is its first slot and the window after it. -/
theorem window_eq_cons : window slots capacity start (count + 1) =
    slots (start % capacity) :: window slots capacity (start + 1) count := by
  simp [window, List.range_succ_eq_map, Nat.add_comm, Nat.add_left_comm]

/-- A position may be reduced to a slot. -/
theorem window_mod : window slots capacity (start % capacity) count =
    window slots capacity start count := by
  unfold window
  apply List.map_congr_left
  intro i _
  rw [Nat.mod_add_mod]

theorem mod_ne_of_lt {capacity a b : Nat} (hLt : a < b) (hNear : b < a + capacity) :
    a % capacity ≠ b % capacity := by
  intro hSame
  have hDvd : capacity ∣ b - a :=
    Nat.dvd_of_mod_eq_zero (Nat.sub_mod_eq_zero_of_mod_eq hSame.symm)
  have hLe := Nat.le_of_dvd (by omega) hDvd
  omega

/-- A window without its first slots. -/
theorem window_drop (n : Nat) : (window slots capacity start count).drop n =
    window slots capacity (start + n) (count - n) := by
  induction n generalizing start count with
  | zero => rfl
  | succ n ih =>
      cases count with
      | zero => simp
      | succ count =>
          rw [window_eq_cons, List.drop_succ_cons, ih, Nat.succ_sub_succ, Nat.add_right_comm,
            Nat.add_assoc]

theorem mem_window {x : α} : x ∈ window slots capacity start count ↔
    ∃ i < count, slots ((start + i) % capacity) = x := by
  simp [window]

/-- Two buffers that agree on the slots of a window. -/
theorem window_congr {slots slots' : Nat → α} {capacity start count : Nat}
    (hSame : ∀ i < count, slots' ((start + i) % capacity) = slots ((start + i) % capacity)) :
    window slots' capacity start count = window slots capacity start count := by
  unfold window
  apply List.map_congr_left
  intro i hi
  exact hSame i (List.mem_range.mp hi)

/-- A write behind a window that does not fill the buffer keeps the window. -/
theorem window_update {capacity count : Nat} (hRoom : count < capacity) (x : α) :
    window (update slots ((start + count) % capacity) x) capacity start count =
      window slots capacity start count := by
  apply window_congr
  intro i hi
  exact update_of_ne (mod_ne_of_lt (by omega) (by omega)) _ _

/-- Writing the slot behind a window appends to it. -/
theorem window_push {capacity count : Nat} (hRoom : count < capacity) (x : α) :
    window (update slots ((start + count) % capacity) x) capacity start (count + 1) =
      window slots capacity start count ++ [x] := by
  rw [window_succ, window_update slots start hRoom, update_self]

end Semantics
