import RiscvOs.Kernel.PrintfText
import Mathlib.Data.List.GetD

/-! What `printf`, `snprintf` and `fctprintf` do with the text of a format. -/
namespace Kernel.Printf

open Semantics Function

variable {σ : Type} {strings : Word → List Byte} {text format : List Byte} {args : List Word}
  {m : Memory} {buffer : Word} {count : Nat}

/-- The memory behind `snprintf`: as much of the text as there is room for, and a
zero byte. -/
def filled (buffer : Word) (count : Nat) (text : List Byte) (m : Memory) : Memory :=
  fun x =>
    let k := (x - buffer).toNat
    let length := min text.length (count - 1)
    if count = 0 then m x
    else if k < length then text.getD k 0
    else if k = length then 0
    else m x

/-- All ways to print a format agree on its text, and return its length. -/
structure Agree (strings : Word → List Byte) (format : List Byte) (args : List Word) : Prop where
  chars : ∀ sent, printf strings format args sent = (formatted strings format args).map fun r =>
    (BitVec.ofNat 32 r.2.length, sent ++ r.2.filter (· ≠ 0))
  buffer : ∀ buffer count m, buffer ≠ 0 → count < 2 ^ 64 →
    snprintf strings buffer count format args m = (formatted strings format args).map fun r =>
      (BitVec.ofNat 32 r.2.length, filled buffer count r.2 m)
  null : ∀ count m, snprintf strings 0 count format args m =
    (formatted strings format args).map fun r => (BitVec.ofNat 32 r.2.length, m)
  calls : ∀ (σ : Type) (fct : Byte → σ → σ) (s : σ),
    fctprintf strings fct format args s = (formatted strings format args).map fun r =>
      (BitVec.ofNat 32 r.2.length, (r.2.filter (· ≠ 0)).foldl (fun s c => fct c s) s)

/-- What `_vsnprintf` does with the text. -/
theorem vsnprintf_eq (out : Out σ) (maxlen : Nat) (s : σ) :
    vsnprintf out strings maxlen format args s = (formatted strings format args).map fun r =>
      (BitVec.ofNat 32 r.2.length,
        out 0 (if r.2.length < maxlen then r.2.length else maxlen - 1) (putAll out r.2 (0, s)).2) := by
  rw [vsnprintf, formatLoop_eq, formatted, Option.bind_eq_bind]
  cases formatLoop collect strings (format.length + 1) format args (0, []) with
  | none => rfl
  | some r =>
      have hIdx : (putAll out r.2.2 (0, s)).1 = r.2.2.length := putAll_fst.trans (Nat.zero_add _)
      simp only [Option.map_some, Option.bind_some, hIdx]

/-! ## Characters -/

theorem putAll_fct {fct : Byte → σ → σ} {p : Nat × σ} :
    (putAll (outFct fct) text p).2 = (text.filter (· ≠ 0)).foldl (fun s c => fct c s) p.2 := by
  induction text generalizing p with
  | nil => rfl
  | cons c text ih =>
      change (putAll (outFct fct) text (put (outFct fct) c p)).2 = _
      rw [ih, put, outFct]
      by_cases hZero : c = 0
      · rw [List.filter_cons_of_neg (by simpa using hZero), if_neg (not_not.mpr hZero)]
      · rw [List.filter_cons_of_pos (by simpa using hZero), if_pos hZero, List.foldl_cons]

theorem foldl_snoc {sent : List Byte} :
    text.foldl (fun sent c => sent ++ [c]) sent = sent ++ text := by
  induction text generalizing sent with
  | nil => exact (List.append_nil _).symm
  | cons c text ih =>
      rw [List.foldl_cons, ih, List.append_assoc]
      rfl

/-! ## A buffer -/

/-- The place of a character in the buffer. -/
theorem eq_add_iff {x : Word} {k : Nat} (hk : k < 2 ^ 64) :
    x = buffer + BitVec.ofNat 64 k ↔ (x - buffer).toNat = k := by
  constructor
  · rintro rfl
    bv_omega
  · intro h
    bv_omega

/-- A buffer takes no more of the text than it has room for. -/
theorem putAll_buffer (hCount : count < 2 ^ 64) (x : Word) :
    (putAll (outBuffer buffer count) text (0, m)).2 x =
      if (x - buffer).toNat < min text.length count then text.getD (x - buffer).toNat 0 else m x := by
  induction text using List.reverseRecOn with
  | nil => simp [putAll]
  | append_singleton text c ih =>
      have hIdx : (putAll (outBuffer buffer count) text (0, m)).1 = text.length :=
        putAll_fst.trans (Nat.zero_add _)
      rw [putAll_append]
      change outBuffer buffer count c _ _ x = _
      rw [hIdx, outBuffer, List.length_append, List.length_singleton]
      by_cases hRoom : text.length < count
      · rw [if_pos hRoom, Nat.min_eq_left (by omega), Memory.store, ih, Nat.min_eq_left (by omega)]
        simp only [eq_add_iff (hRoom.trans hCount)]
        rcases Nat.lt_trichotomy (x - buffer).toNat text.length with hBefore | hHere | hBehind
        · rw [if_neg (by omega), if_pos hBefore, if_pos (by omega), List.getD_append _ _ _ _ hBefore]
        · rw [if_pos hHere, if_pos (by omega), hHere, List.getD_append_right _ _ _ _ (le_refl _),
            Nat.sub_self]
          rfl
        · rw [if_neg (by omega), if_neg (by omega), if_neg (by omega)]
      · rw [if_neg hRoom, ih, Nat.min_eq_right (by omega), Nat.min_eq_right (by omega)]
        by_cases hInside : (x - buffer).toNat < count
        · rw [if_pos hInside, if_pos hInside, List.getD_append _ _ _ _ (by omega)]
        · rw [if_neg hInside, if_neg hInside]

/-- The zero byte comes behind the text, or in the last byte of the buffer. -/
theorem terminated_buffer (hCount : count < 2 ^ 64) :
    outBuffer buffer count 0 (if text.length < count then text.length else count - 1)
      (putAll (outBuffer buffer count) text (0, m)).2 = filled buffer count text m := by
  funext x
  simp only [filled, outBuffer]
  by_cases hNone : count = 0
  · rw [if_pos hNone, if_neg (by omega), putAll_buffer hCount, hNone, if_neg (by omega)]
  · have hLast : (if text.length < count then text.length else count - 1) =
        min text.length (count - 1) := by
      split <;> omega
    rw [if_neg hNone, hLast, if_pos (by omega), Memory.store, putAll_buffer hCount]
    simp only [@eq_add_iff buffer x (min text.length (count - 1)) (by omega)]
    rcases Nat.lt_trichotomy (x - buffer).toNat (min text.length (count - 1)) with
      hBefore | hHere | hBehind
    · rw [if_neg (by omega), if_pos (by omega), if_pos hBefore]
    · rw [if_pos hHere, if_neg (by omega), if_pos hHere]
    · rw [if_neg (by omega), if_neg (by omega), if_neg (by omega), if_neg (by omega)]

/-- The buffer holds the text as far as there is room, and nothing else changes. -/
theorem wrote_filled (hCount : count < 2 ^ 64) (hPos : 0 < count) (hText : 0 ∉ text) :
    Wrote m (filled buffer count text m) buffer count (text.take (count - 1)) := by
  have hLength : (text.take (count - 1)).length = min text.length (count - 1) := by
    rw [List.length_take, Nat.min_comm]
  have hOffset (k : Nat) (hk : k < 2 ^ 64) : (buffer + BitVec.ofNat 64 k - buffer).toNat = k :=
    (eq_add_iff hk).mp rfl
  refine ⟨⟨fun k hk => ?_, ?_, fun hZero => hText (List.mem_of_mem_take hZero)⟩, fun x hx => ?_⟩
  · rw [hLength] at hk
    simp only [filled, hOffset k (by omega)]
    rw [if_neg (by omega), if_pos hk, List.getElem_take, List.getD_eq_getElem _ _ (by omega)]
  · simp only [filled, hLength]
    rw [hOffset _ (by omega), if_neg (by omega), if_neg (by omega), if_pos rfl]
  · have hOutside : count ≤ (x - buffer).toNat := not_lt.mp hx
    simp only [filled]
    rw [if_neg (by omega), if_neg (by omega), if_neg (by omega)]

theorem printf_eq (sent : List Byte) :
    printf strings format args sent = (formatted strings format args).map fun r =>
      (BitVec.ofNat 32 r.2.length, sent ++ r.2.filter (· ≠ 0)) := by
  rw [printf, vsnprintf_eq]
  refine congrArg (Option.map · _) (funext fun r => ?_)
  change (_, (putAll outChar r.2 (0, sent)).2) = _
  rw [outChar, putAll_fct, foldl_snoc]

theorem snprintf_eq (hBuffer : buffer ≠ 0) (hCount : count < 2 ^ 64) :
    snprintf strings buffer count format args m = (formatted strings format args).map fun r =>
      (BitVec.ofNat 32 r.2.length, filled buffer count r.2 m) := by
  rw [snprintf, if_neg hBuffer, vsnprintf_eq]
  refine congrArg (Option.map · _) (funext fun r => ?_)
  rw [terminated_buffer hCount]

/-- `printf`, `snprintf` and `fctprintf` mean the same text by a format, for all
arguments; `snprintf` stays in its buffer and ends it with a zero byte. -/
theorem agree (strings : Word → List Byte) (format : List Byte) (args : List Word) :
    Agree strings format args where
  chars := printf_eq
  buffer := fun _ _ _ => snprintf_eq
  null := by
    intro count m
    rw [snprintf, if_pos rfl, vsnprintf_eq]
    refine congrArg (Option.map · _) (funext fun r => ?_)
    have hNothing (text : List Byte) (p : Nat × Memory) : (putAll outNull text p).2 = p.2 := by
      induction text generalizing p with
      | nil => rfl
      | cons c text ih => exact ih _
    rw [hNothing]
    rfl
  calls := by
    intro σ fct s
    rw [fctprintf, vsnprintf_eq]
    refine congrArg (Option.map · _) (funext fun r => ?_)
    change (_, (putAll (outFct fct) r.2 (0, s)).2) = _
    rw [putAll_fct]

end Kernel.Printf
