import RiscvOs.Semantics.CString
import RiscvOs.Semantics.Loop
import Mathlib.Data.Int.Basic
import Mathlib.Data.Nat.Digits.Defs

/-! `strhelp.c`. A function that only reads its strings takes the bytes from
each pointer on; the fuel bounds the rounds of a loop. -/
namespace Kernel

open Semantics

/-- A character constant. -/
def char (c : Char) : Byte :=
  BitVec.ofNat 8 c.toNat

/-- The characters of a string literal. -/
def literalText (s : String) : List Byte :=
  s.toList.map char

/-- A string literal, as its pointer shows it. -/
def literal (s : String) (k : Nat) : Byte :=
  (literalText s).getD k 0

def isDigit (c : Byte) : Prop :=
  char '0' ≤ c ∧ c ≤ char '9'

instance (c : Byte) : Decidable (isDigit c) :=
  inferInstanceAs (Decidable (_ ∧ _))

/-- The loop `for (i = l - 1; i >= 0; i--)` of `atoi`, as `r` and `p` behind it.
Both wrap around. -/
def atoiLoop (st : Nat → Byte) : Nat → BitVec 32 × BitVec 32 → BitVec 32 × BitVec 32
  | 0, s => s
  | i + 1, (r, p) => atoiLoop st i (r + p * ((st i).setWidth 32 - (char '0').setWidth 32), p * 10)

def atoi (fuel : Nat) (st : Nat → Byte) : Option (BitVec 32) :=
  let n := st 0 = char '-'
  let st := if n then fun k => st (k + 1) else st
  (scan (fun l => ¬ isDigit (st l)) fuel 0).map fun l =>
    let r := (atoiLoop st l (0, 1)).1
    if n then -r else r

/-- The characters are `unsigned`, the difference is returned as an `int`. -/
def strcmp (fuel : Nat) (l r : Nat → Byte) : Option (BitVec 32) :=
  (scan (fun k => l k = 0 ∨ l k ≠ r k) fuel 0).map fun k =>
    (l k).setWidth 32 - (r k).setWidth 32

/-- The index of the character, or `-1` when the string ends before it. -/
def strfindchr (fuel : Nat) (r : Nat → Byte) (t : Byte) : Option Int :=
  (scan (fun i => r i = t ∨ r i = 0) fuel 0).map fun i => if r i = t then i else -1

/-- The loop of `strcpy` and the zero byte behind it. -/
def strcpyLoop : Nat → Memory → Word → Word → Option Memory
  | 0, _, _, _ => none
  | fuel + 1, m, dest, s =>
      if m s ≠ 0 then strcpyLoop fuel (m.store dest (m s)) (dest + 1) (s + 1)
      else some (m.store dest 0)

def strcpy (fuel : Nat) (m : Memory) (dest s : Word) : Option (Word × Memory) :=
  (strcpyLoop fuel m dest s).map fun m => (dest, m)

/-- The place of the character, or `NULL`. -/
def strchr (fuel : Nat) (m : Memory) (s : Word) (c : Byte) : Option Word :=
  let bytes := fun k => m (s + BitVec.ofNat 64 k)
  (scan (fun i => bytes i = c ∨ bytes i = 0) fuel 0).map fun i =>
    if bytes i = c then s + BitVec.ofNat 64 i else 0

/-! ## Comparisons and searches -/

/-- A literal without a zero byte is a string. -/
theorem spells_literal {s : String} (h : 0 ∉ literalText s) :
    Spells (literal s) (literalText s) := by
  refine ⟨fun k hk => ?_, ?_, h⟩
  · rw [literal, List.getD_eq_getElem?_getD, List.getElem?_eq_getElem hk, Option.getD_some]
  · rw [literal, List.getD_eq_getElem?_getD, List.getElem?_eq_none (le_refl _), Option.getD_none]

theorem setWidth_injective {a b : Byte} : a.setWidth 32 = b.setWidth 32 ↔ a = b := by
  constructor
  · intro h
    apply BitVec.eq_of_toNat_eq
    have hNat := congrArg BitVec.toNat h
    simp only [BitVec.toNat_setWidth] at hNat
    omega
  · rintro rfl
    rfl

/-- `strcmp` tells strings apart. -/
theorem strcmp_of_unequal {l r : Nat → Byte} {fuel k : Nat} (hFuel : k < fuel)
    (hBefore : ∀ j < k, l j ≠ 0 ∧ l j = r j) (hUnequal : l k ≠ r k) :
    ∃ c, strcmp fuel l r = some c ∧ c ≠ 0 := by
  have hScan : scan (fun j => l j = 0 ∨ l j ≠ r j) fuel 0 = some k := by
    refine scan_eq_some_iff.mpr ⟨Nat.zero_le _, by omega, .inr hUnequal, fun j _ hj => ?_⟩
    rintro (hEnd | hOther)
    · exact (hBefore j hj).1 hEnd
    · exact hOther (hBefore j hj).2
  refine ⟨_, by rw [strcmp, hScan, Option.map_some], fun hZero => hUnequal ?_⟩
  exact setWidth_injective.mp (sub_eq_zero.mp hZero)

theorem strfindchr_found {r : Nat → Byte} {front text : List Byte} {t : Byte} {fuel : Nat}
    (hString : Spells r (front ++ t :: text)) (hFirst : t ∉ front) (hFuel : front.length < fuel) :
    strfindchr fuel r t = some (front.length : Int) := by
  have hHere : r front.length = t := by
    simpa using hString.get front.length (by simp)
  simp only [strfindchr, hString.scan_found hFirst hFuel, Option.map_some, hHere, ↓reduceIte]

/-! ## Numbers -/

def digitChar (d : Fin 10) : Byte :=
  char '0' + BitVec.ofNat 8 d

/-- The number that digits denote, the most significant one first. -/
def denoted (digits : List (Fin 10)) : Nat :=
  Nat.ofDigits 10 (digits.reverse.map Fin.val)

theorem isDigit_digitChar (d : Fin 10) : isDigit (digitChar d) := by
  decide +revert

theorem digitChar_ne_minus (d : Fin 10) : digitChar d ≠ char '-' := by
  decide +revert

theorem digitChar_sub (d : Fin 10) :
    (digitChar d).setWidth 32 - (char '0').setWidth 32 = BitVec.ofNat 32 d := by
  decide +revert

/-- The loop reads digits from the right, modulo `2 ^ 32`. -/
theorem atoiLoop_eq {st : Nat → Byte} (digits : List (Fin 10))
    (hDigits : ∀ (k : Nat) (h : k < digits.length), st k = digitChar digits[k]) (R P : Nat) :
    (atoiLoop st digits.length (BitVec.ofNat 32 R, BitVec.ofNat 32 P)).1 =
      BitVec.ofNat 32 (R + P * denoted digits) := by
  induction digits using List.reverseRecOn generalizing R P with
  | nil => simp [atoiLoop, denoted]
  | append_singleton digits d ih =>
      have hLast : st digits.length = digitChar d := by
        simpa using hDigits digits.length (by simp)
      have hBefore (k : Nat) (h : k < digits.length) : st k = digitChar digits[k] := by
        rw [hDigits k (by simp; omega), List.getElem_append_left h]
      have hStep : BitVec.ofNat 32 R + BitVec.ofNat 32 P * BitVec.ofNat 32 d =
          BitVec.ofNat 32 (R + P * d) := by
        rw [← BitVec.ofNat_mul, ← BitVec.ofNat_add]
      have hPower : BitVec.ofNat 32 P * 10 = BitVec.ofNat 32 (P * 10) := by
        rw [BitVec.ofNat_mul]
        rfl
      have hValue : denoted (digits ++ [d]) = d + 10 * denoted digits := by
        simp [denoted, Nat.ofDigits_cons]
      rw [List.length_append, List.length_singleton, atoiLoop, hLast, digitChar_sub, hStep, hPower,
        ih hBefore, hValue]
      congr 1
      ring

/-- `atoi` of digits is their number modulo `2 ^ 32`. -/
theorem atoi_of_digits {st : Nat → Byte} {digits : List (Fin 10)} {fuel : Nat}
    (hString : Spells st (digits.map digitChar)) (hDigits : digits ≠ [])
    (hFuel : digits.length < fuel) : atoi fuel st = some (BitVec.ofNat 32 (denoted digits)) := by
  have hAt (k : Nat) (h : k < digits.length) : st k = digitChar digits[k] := by
    rw [hString.get k (by simpa using h), List.getElem_map]
  have hPositive : st 0 ≠ char '-' := by
    rw [hAt 0 (List.length_pos_iff.mpr hDigits)]
    exact digitChar_ne_minus _
  have hEnd : st digits.length = 0 := by
    simpa using hString.terminated
  have hScan : scan (fun l => ¬ isDigit (st l)) fuel 0 = some digits.length := by
    refine scan_eq_some_iff.mpr ⟨Nat.zero_le _, by omega, ?_, fun j _ hj hNot => hNot ?_⟩
    · rw [hEnd]
      decide
    · rw [hAt j hj]
      exact isDigit_digitChar _
  have hLoop := atoiLoop_eq digits hAt 0 1
  rw [Nat.zero_add, Nat.one_mul] at hLoop
  simp only [atoi, hPositive, ↓reduceIte, hScan, Option.map_some]
  exact congrArg some hLoop

/-! ## Copies -/

section Copies

variable {m : Memory} {a s dest : Word} {c : Byte} {text front : List Byte} {fuel : Nat}

/-- What a call that writes a string into a buffer leaves. -/
structure Wrote (m m' : Memory) (buffer : Word) (size : Nat) (text : List Byte) : Prop where
  string : StringAt m' buffer text
  outside : ∀ x, ¬ InRange buffer size x → m' x = m x

/-- A character before what is written behind it. -/
theorem Wrote.cons {m' : Memory} {size : Nat} (h : Wrote (m.store dest c) m' (dest + 1) size text)
    (hNonzero : c ≠ 0) (hFit : size + 1 < 2 ^ 64) : Wrote m m' dest (size + 1) (c :: text) := by
  have hOutside (x : Word) (hx : ¬ InRange (dest + 1) size x) (hOther : x ≠ dest) :
      m' x = m x := by
    rw [h.outside x hx, Memory.store_of_ne _ _ hOther]
  refine ⟨StringAt.cons_iff.mpr ⟨?_, hNonzero, h.string⟩, fun x hx => hOutside x ?_ ?_⟩
  · rw [h.outside dest (by unfold InRange; bv_omega), Memory.store_same]
  · unfold InRange at hx ⊢
    bv_omega
  · rintro rfl
    exact hx (by simp [InRange])

theorem strcpyLoop_spec (hString : StringAt m s text)
    (hApart : Apart dest (text.length + 1) s (text.length + 1)) (hFuel : text.length < fuel) :
    ∃ m', strcpyLoop fuel m dest s = some m' ∧ Wrote m m' dest (text.length + 1) text := by
  induction text generalizing m dest s fuel with
  | nil =>
      obtain ⟨fuel, rfl⟩ := Nat.exists_eq_succ_of_ne_zero (Nat.ne_zero_of_lt hFuel)
      have hEnd := StringAt.nil_iff.mp hString
      refine ⟨m.store dest 0, by simp [strcpyLoop, hEnd], ?_, fun x hx => ?_⟩
      · exact StringAt.nil_iff.mpr (Memory.store_same ..)
      · refine Memory.store_of_ne _ _ ?_
        rintro rfl
        exact hx (by simp [InRange])
  | cons c text ih =>
      obtain ⟨fuel, rfl⟩ := Nat.exists_eq_succ_of_ne_zero (Nat.ne_zero_of_lt hFuel)
      obtain ⟨hFirst, hNonzero, hRest⟩ := StringAt.cons_iff.mp hString
      rw [List.length_cons] at hApart hFuel
      have hLength : text.length + 2 < 2 ^ 64 := by
        unfold Apart at hApart
        bv_omega
      have hKept : StringAt (m.store dest c) (s + 1) text := by
        refine hRest.congr (fun x hx => Memory.store_of_ne _ _ ?_) (by omega)
        rintro rfl
        unfold Apart at hApart
        unfold InRange at hx
        bv_omega
      have hNext : Apart (dest + 1) (text.length + 1) (s + 1) (text.length + 1) := by
        unfold Apart at hApart ⊢
        bv_omega
      have hRounds : text.length < fuel := by omega
      obtain ⟨m', hLoop, hWrote⟩ := ih hKept hNext hRounds
      refine ⟨m', ?_, hWrote.cons hNonzero hLength⟩
      rwa [strcpyLoop, hFirst, if_pos hNonzero]

/-- `strcpy` copies a string to a place apart from it. -/
theorem strcpy_spec (hString : StringAt m s text)
    (hApart : Apart dest (text.length + 1) s (text.length + 1)) (hFuel : text.length < fuel) :
    ∃ m', strcpy fuel m dest s = some (dest, m') ∧ Wrote m m' dest (text.length + 1) text := by
  obtain ⟨m', hLoop, hWrote⟩ := strcpyLoop_spec hString hApart hFuel
  exact ⟨m', by rw [strcpy, hLoop]; rfl, hWrote⟩

theorem strchr_found (hString : StringAt m a (front ++ c :: text)) (hFirst : c ∉ front)
    (hFuel : front.length < fuel) :
    strchr fuel m a c = some (a + BitVec.ofNat 64 front.length) := by
  have hHere : m (a + BitVec.ofNat 64 front.length) = c := by
    simpa using hString.get front.length (by simp)
  simp only [strchr, Spells.scan_found hString hFirst hFuel, Option.map_some, hHere, ↓reduceIte]

theorem strchr_missing (hString : StringAt m a text) (hMissing : c ∉ text) (hc : c ≠ 0)
    (hFuel : text.length < fuel) : strchr fuel m a c = some 0 := by
  have hEnd : m (a + BitVec.ofNat 64 text.length) = 0 := hString.terminated
  simp only [strchr, Spells.scan_missing hString hMissing hFuel, Option.map_some, hEnd, hc.symm,
    ↓reduceIte]

end Copies

/-! ## `strncmp` -/

/-- The pointers of `strncmp`, as distances from its arguments, and its last
characters. The positions that it has read are a record. -/
structure Cursor where
  left : Nat
  right : Nat
  c1 : BitVec 32
  c2 : BitVec 32
  leftReads : List Nat
  rightReads : List Nat

/-- `c1 = *left++; c2 = *right++` -/
def Cursor.next (l r : Nat → Byte) (s : Cursor) : Cursor where
  left := s.left + 1
  right := s.right + 1
  c1 := (l s.left).setWidth 32
  c2 := (r s.right).setWidth 32
  leftReads := s.leftReads ++ [s.left]
  rightReads := s.rightReads ++ [s.right]

/-- One pair of characters; the error is the early `return`. -/
def Cursor.pair (l r : Nat → Byte) (s : Cursor) : Except Cursor Cursor :=
  let s := s.next l r
  if s.c1 = 0 ∨ s.c1 ≠ s.c2 then .error s else .ok s

/-- The loop over `n4` blocks of four; `n4` is positive where `strncmp` enters it. -/
def fourLoop (l r : Nat → Byte) : Nat → Cursor → Except Cursor Cursor
  | 0, s => .ok s
  | n4 + 1, s => do
      let s ← s.pair l r
      let s ← s.pair l r
      let s ← s.pair l r
      let s ← s.pair l r
      fourLoop l r n4 s

/-- The loop `while (n > 0)`. -/
def plainLoop (l r : Nat → Byte) : Nat → Cursor → Except Cursor Cursor
  | 0, s => .ok s
  | n + 1, s => do
      let s ← s.pair l r
      plainLoop l r n s

/-- `strncmp` up to its `return`, early or not. -/
def strncmpRun (l r : Nat → Byte) (n : BitVec 32) : Except Cursor Cursor :=
  let s : Cursor := ⟨0, 0, 0, 0, [], []⟩
  if 4 ≤ n.toInt then do
    let s ← fourLoop l r (n.sshiftRight 2).toInt.toNat s
    plainLoop l r (n &&& 3).toInt.toNat s
  else plainLoop l r n.toInt.toNat s

/-- Where `strncmp` returns. -/
def strncmpEnd (l r : Nat → Byte) (n : BitVec 32) : Cursor :=
  match strncmpRun l r n with
  | .error s => s
  | .ok s => s

/-- `return c1 - c2` -/
def strncmp (l r : Nat → Byte) (n : BitVec 32) : BitVec 32 :=
  (strncmpEnd l r n).c1 - (strncmpEnd l r n).c2

/-- The position is among the first `n`, and no string ends before it. -/
def InScope (l r : Nat → Byte) (n : BitVec 32) (k : Nat) : Prop :=
  (k : Int) < n.toInt ∧ ∀ j < k, l j ≠ 0 ∧ r j ≠ 0

/-- The pair at the position does not end a comparison. -/
def GoesOn (l r : Nat → Byte) (k : Nat) : Prop :=
  l k ≠ 0 ∧ l k = r k

/-- The cursor behind the first pairs. -/
def cursorAt (l r : Nat → Byte) (k : Nat) : Cursor where
  left := k
  right := k
  c1 := if k = 0 then 0 else (l (k - 1)).setWidth 32
  c2 := if k = 0 then 0 else (r (k - 1)).setWidth 32
  leftReads := List.range k
  rightReads := List.range k

variable {l r : Nat → Byte} {n : BitVec 32} {k : Nat}

theorem next_cursorAt : (cursorAt l r k).next l r = cursorAt l r (k + 1) := by
  simp [Cursor.next, cursorAt, List.range_succ]

theorem pair_of_goesOn (h : GoesOn l r k) :
    (cursorAt l r k).pair l r = .ok (cursorAt l r (k + 1)) := by
  obtain ⟨hNonzero, hSame⟩ := h
  have hWide : (r k).setWidth 32 ≠ 0 := fun hZero =>
    hNonzero (hSame.trans (setWidth_injective.mp hZero))
  simp only [Cursor.pair, next_cursorAt]
  rw [if_neg]
  simpa [cursorAt, hSame] using hWide

theorem pair_of_not_goesOn (h : ¬ GoesOn l r k) :
    (cursorAt l r k).pair l r = .error (cursorAt l r (k + 1)) := by
  have hStop : (l k).setWidth 32 = 0 ∨ (l k).setWidth 32 ≠ (r k).setWidth 32 := by
    by_contra hBoth
    push Not at hBoth
    exact h ⟨fun hZero => hBoth.1 (by rw [hZero]; rfl), setWidth_injective.mp hBoth.2⟩
  simp only [Cursor.pair, next_cursorAt]
  rw [if_pos]
  simpa [cursorAt] using hStop

theorem plainLoop_of_goesOn {n k : Nat} (h : ∀ j, k ≤ j → j < k + n → GoesOn l r j) :
    plainLoop l r n (cursorAt l r k) = .ok (cursorAt l r (k + n)) := by
  induction n generalizing k with
  | zero => rfl
  | succ n ih =>
      rw [plainLoop, pair_of_goesOn (h k (le_refl _) (by omega))]
      show plainLoop l r n (cursorAt l r (k + 1)) = _
      rw [ih fun j hFrom hTo => h j (by omega) (by omega), Nat.add_right_comm, Nat.add_assoc]

/-- The loop returns behind the first pair that ends the comparison. -/
theorem plainLoop_of_first {n k d : Nat} (hFrom : k ≤ d) (hTo : d < k + n) (hEnd : ¬ GoesOn l r d)
    (h : ∀ j, k ≤ j → j < d → GoesOn l r j) :
    plainLoop l r n (cursorAt l r k) = .error (cursorAt l r (d + 1)) := by
  induction n generalizing k with
  | zero => omega
  | succ n ih =>
      rw [plainLoop]
      obtain rfl | hBehind : k = d ∨ k + 1 ≤ d := by omega
      · rw [pair_of_not_goesOn hEnd]
        rfl
      · rw [pair_of_goesOn (h k (le_refl _) (by omega))]
        exact ih hBehind (by omega) fun j hAt => h j (by omega)

theorem plainLoop_add (a b : Nat) (s : Cursor) :
    plainLoop l r (a + b) s = plainLoop l r a s >>= plainLoop l r b := by
  induction a generalizing s with
  | zero =>
      rw [Nat.zero_add]
      rfl
  | succ a ih =>
      rw [Nat.add_right_comm, plainLoop, plainLoop]
      cases s.pair l r with
      | error s' => rfl
      | ok s' => exact ih s'

/-- A round of the unrolled loop is four rounds of the plain one. -/
theorem fourLoop_eq (n4 : Nat) (s : Cursor) :
    fourLoop l r n4 s = plainLoop l r (4 * n4) s := by
  induction n4 generalizing s with
  | zero => rfl
  | succ n4 ih =>
      rw [show 4 * (n4 + 1) = 4 + 4 * n4 by omega, plainLoop_add]
      simp only [fourLoop, plainLoop, bind_assoc, ih]
      rfl

theorem blocks_add_rest (h : 4 ≤ n.toInt) :
    4 * (n.sshiftRight 2).toInt.toNat + (n &&& 3).toInt.toNat = n.toInt.toNat := by
  have hRest : (n &&& 3).toNat = n.toNat % 4 := by
    rw [BitVec.toNat_and]
    exact Nat.and_two_pow_sub_one_eq_mod n.toNat 2
  have hSmall : (n &&& 3).toInt = (n &&& 3).toNat := BitVec.toInt_eq_toNat_of_lt (by omega)
  have hPositive : n.toInt = n.toNat := by
    rw [BitVec.toInt_eq_toNat_cond] at h ⊢
    split at h
    · rw [if_pos (by assumption)]
    · omega
  have hBlocks : (n.sshiftRight 2).toInt = n.toInt / 4 := by
    rw [BitVec.toInt_sshiftRight, Int.shiftRight_eq_div_pow]
    rfl
  omega

theorem strncmpRun_eq : strncmpRun l r n = plainLoop l r n.toInt.toNat (cursorAt l r 0) := by
  have hStart : (⟨0, 0, 0, 0, [], []⟩ : Cursor) = cursorAt l r 0 := rfl
  unfold strncmpRun
  split
  next h =>
    rw [hStart, ← blocks_add_rest h, plainLoop_add, ← fourLoop_eq]
  next => rw [hStart]

/-- `strncmp` ends behind all `n` pairs, or behind the first pair that ends the
comparison. -/
theorem strncmpEnd_cases :
    (∃ d : Nat, (d : Int) < n.toInt ∧ ¬ GoesOn l r d ∧ (∀ j < d, GoesOn l r j) ∧
      strncmpEnd l r n = cursorAt l r (d + 1)) ∨
    (∀ j : Nat, (j : Int) < n.toInt → GoesOn l r j) ∧
      strncmpEnd l r n = cursorAt l r n.toInt.toNat := by
  unfold strncmpEnd
  rw [strncmpRun_eq]
  by_cases hAll : ∀ j : Nat, (j : Int) < n.toInt → GoesOn l r j
  · right
    refine ⟨hAll, ?_⟩
    rw [plainLoop_of_goesOn fun j _ hTo => hAll j (by omega), Nat.zero_add]
  · left
    push Not at hAll
    classical
    have hFirst := Nat.find_spec hAll
    have hBefore (j : Nat) (hj : j < Nat.find hAll) : GoesOn l r j := by
      by_contra hEnd
      exact Nat.find_min hAll hj ⟨by omega, hEnd⟩
    refine ⟨Nat.find hAll, hFirst.1, hFirst.2, hBefore, ?_⟩
    rw [plainLoop_of_first (Nat.zero_le _) (by omega) hFirst.2 fun j _ => hBefore j]

/-- Positions that `strncmp` comes to are in scope. -/
theorem inScope_of_goesOn (hLt : (k : Int) < n.toInt) (h : ∀ j < k, GoesOn l r j) :
    InScope l r n k :=
  ⟨hLt, fun j hj => ⟨(h j hj).1, (h j hj).2 ▸ (h j hj).1⟩⟩

theorem strncmpEnd_reads :
    ∃ count, (strncmpEnd l r n).leftReads = List.range count ∧
      (strncmpEnd l r n).rightReads = List.range count ∧ ∀ k < count, InScope l r n k := by
  rcases strncmpEnd_cases (l := l) (r := r) (n := n) with
    ⟨d, hLt, -, hBefore, hEnd⟩ | ⟨hAll, hEnd⟩
  · rw [hEnd]
    exact ⟨d + 1, rfl, rfl, fun k hk =>
      inScope_of_goesOn (by omega) fun j hj => hBefore j (by omega)⟩
  · rw [hEnd]
    exact ⟨n.toInt.toNat, rfl, rfl, fun k hk =>
      inScope_of_goesOn (by omega) fun j hj => hAll j (by omega)⟩

theorem difference_toInt (a b : Byte) :
    (a.setWidth 32 - b.setWidth 32).toInt = (a.toNat : Int) - b.toNat := by
  have ha := a.isLt
  have hb := b.isLt
  have hWideA : (a.setWidth 32).toNat = a.toNat := by
    rw [BitVec.toNat_setWidth]
    omega
  have hWideB : (b.setWidth 32).toNat = b.toNat := by
    rw [BitVec.toNat_setWidth]
    omega
  rw [BitVec.toInt_sub, BitVec.toInt_eq_toNat_of_lt (by omega),
    BitVec.toInt_eq_toNat_of_lt (by omega), hWideA, hWideB]
  exact Int.bmod_eq_of_le (by omega) (by omega)

/-- The difference of the first unequal pair in scope is returned. -/
theorem strncmp_of_unequal (hScope : InScope l r n k) (hUnequal : l k ≠ r k)
    (hFirst : ∀ j < k, l j = r j) :
    (strncmp l r n).toInt = (l k).toNat - (r k).toNat := by
  obtain ⟨hLt, hNonzero⟩ := hScope
  have hBefore (j : Nat) (hj : j < k) : GoesOn l r j := ⟨(hNonzero j hj).1, hFirst j hj⟩
  have hEnds : ¬ GoesOn l r k := fun hGoes => hUnequal hGoes.2
  rcases strncmpEnd_cases (l := l) (r := r) (n := n) with
    ⟨d, -, hAt, hGoes, hEnd⟩ | ⟨hAll, -⟩
  · have hSame : d = k := by
      rcases Nat.lt_trichotomy d k with hLess | hSame | hMore
      · exact absurd (hBefore d hLess) hAt
      · exact hSame
      · exact absurd (hGoes k hMore) hEnds
    rw [strncmp, hEnd, hSame]
    simpa [cursorAt] using difference_toInt (l k) (r k)
  · exact absurd (hAll k hLt) hEnds

theorem strncmp_of_equal (h : ∀ k, InScope l r n k → l k = r k) : strncmp l r n = 0 := by
  rcases strncmpEnd_cases (l := l) (r := r) (n := n) with
    ⟨d, hLt, -, hBefore, hEnd⟩ | ⟨hAll, hEnd⟩
  · have hSame := h d (inScope_of_goesOn hLt hBefore)
    rw [strncmp, hEnd]
    simp [cursorAt, hSame]
  · rw [strncmp, hEnd]
    by_cases hZero : n.toInt.toNat = 0
    · simp [cursorAt, hZero]
    · have hSame := (hAll (n.toInt.toNat - 1) (by omega)).2
      simp [cursorAt, hSame]

/-- `strncmp` compares bytes as `unsigned char` up to the first difference, and
reads nothing behind position `n` or behind the end of a string. -/
theorem strncmp_compares (l r : Nat → Byte) (n : BitVec 32) :
    (∀ k, InScope l r n k → l k ≠ r k → (∀ j < k, l j = r j) →
      (strncmp l r n).toInt = (l k).toNat - (r k).toNat) ∧
    ((∀ k, InScope l r n k → l k = r k) → (strncmp l r n).toInt = 0) ∧
    (∀ k ∈ (strncmpEnd l r n).leftReads, (k : Int) < n.toInt ∧ ∀ j < k, l j ≠ 0) ∧
    ∀ k ∈ (strncmpEnd l r n).rightReads, (k : Int) < n.toInt ∧ ∀ j < k, r j ≠ 0 := by
  obtain ⟨count, hLeft, hRight, hScope⟩ := strncmpEnd_reads (l := l) (r := r) (n := n)
  refine ⟨fun k => strncmp_of_unequal, ?_, ?_, ?_⟩
  · intro h
    rw [strncmp_of_equal h]
    rfl
  · intro k hk
    rw [hLeft, List.mem_range] at hk
    exact ⟨(hScope k hk).1, fun j hj => ((hScope k hk).2 j hj).1⟩
  · intro k hk
    rw [hRight, List.mem_range] at hk
    exact ⟨(hScope k hk).1, fun j hj => ((hScope k hk).2 j hj).2⟩

end Kernel
