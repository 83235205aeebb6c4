import RiscvOs.Kernel.PrintfCalls

/-! The integer conversions of `printf` and what the C standard asks of them. The
buffer of `_ntoa_long` limits the digits, the sign and the zeros. -/
namespace Kernel.Printf

open Semantics Function

/-! ## What the standard asks for -/

/-- The digits of a number, the first one in front. -/
def digitText (uppercase : Bool) (base value : Nat) : List Byte :=
  ((Nat.digits base value).map (digitOf uppercase)).reverse

/-- A number with at least so many digits. -/
def numeral (uppercase : Bool) (base value length : Nat) : List Byte :=
  List.replicate (length - (digitText uppercase base value).length) (char '0') ++
    digitText uppercase base value

def signText (negative : Bool) (flags : Flags) : List Byte :=
  if negative then [char '-'] else if flags.plus then [char '+'] else if flags.space then [char ' '] else []

/-- The digits that are asked for: zeros fill the width, or come up to the
precision, which is one by default. -/
def leading (negative : Bool) (prec width : Nat) (flags : Flags) : Nat :=
  if flags.zeropad && !flags.left then max 1 (width - (signText negative flags).length)
  else if flags.precision then prec else 1

/-- The text without blanks around it. -/
def signed (value : Nat) (negative : Bool) (base prec width : Nat) (flags : Flags) : List Byte :=
  signText negative flags ++ numeral flags.uppercase base value (leading negative prec width flags)

/-- The text of a conversion of an integer. -/
def standard (value : Nat) (negative : Bool) (base prec width : Nat) (flags : Flags) : List Byte :=
  let text := signed value negative base prec width flags
  if flags.left then text ++ blanks width text.length else blanks width text.length ++ text

/-- The buffer has room for the text, and no zeros are asked for on the left of a
number that is moved to the left. -/
structure Fits (value : Nat) (negative : Bool) (base prec width : Nat) (flags : Flags) : Prop where
  room : (signed value negative base prec width flags).length ≤ ntoaBufferSize
  noZeros : flags.left = true → flags.precision = true →
    prec ≤ (digitText flags.uppercase base value).length

/-- The flags as the conversions get them; a directive has no precision by default. -/
structure Regular (prec : Nat) (flags : Flags) : Prop where
  hash : flags.hash = false
  precision : flags.precision = true → flags.zeropad = false
  default : flags.precision = false → prec = 0

variable {σ : Type} {out : Out σ} {p : Nat × σ} {uppercase negative : Bool}
  {base value prec width length room : Nat} {flags : Flags}

/-! ## The buffer -/

theorem numeral_length :
    (numeral uppercase base value length).length =
      max length (digitText uppercase base value).length := by
  rw [numeral, List.length_append, List.length_replicate]
  omega

/-- The loop over the digits, when there is room for them. -/
theorem ntoaDigits_eq (hBase : 2 ≤ base) (hValue : value ≠ 0)
    (hRoom : (Nat.digits base value).length ≤ room) :
    ntoaDigits uppercase base room value = (Nat.digits base value).map (digitOf uppercase) := by
  induction room generalizing value with
  | zero =>
      have hNil := List.length_eq_zero_iff.mp (Nat.le_zero.mp hRoom)
      exact absurd (Nat.digits_eq_nil_iff_eq_zero.mp hNil) hValue
  | succ room ih =>
      rw [Nat.digits_def' hBase (Nat.pos_of_ne_zero hValue)] at hRoom ⊢
      rw [ntoaDigits, List.map_cons]
      by_cases hMore : value / base = 0
      · rw [hMore, if_neg (not_not.mpr rfl), Nat.digits_zero]
        rfl
      · rw [if_pos hMore, ih hMore (Nat.le_of_succ_le_succ hRoom)]

theorem ntoaDigits_zero : ntoaDigits uppercase base (room + 1) 0 = [char '0'] := by
  rw [ntoaDigits, Nat.zero_mod, Nat.zero_div, if_neg (not_not.mpr rfl)]
  cases uppercase <;> rfl

/-- The buffer behind the loop holds the digits from the last one on. -/
theorem ntoaStart_eq (hBase : 2 ≤ base)
    (hRoom : (digitText flags.uppercase base value).length ≤ ntoaBufferSize) :
    ntoaStart value base flags =
      (numeral flags.uppercase base value (if flags.precision then 0 else 1)).reverse := by
  rw [ntoaStart]
  by_cases hZero : value = 0
  · subst hZero
    cases flags.precision with
    | true => simp [numeral, digitText]
    | false =>
        simp only [Bool.not_false, Bool.true_or, ↓reduceIte]
        exact ntoaDigits_zero.trans (by simp [numeral, digitText])
  · have hLength : 0 < (digitText flags.uppercase base value).length := by
      rw [digitText, List.length_reverse, List.length_map, List.length_pos_iff, Ne,
        Nat.digits_eq_nil_iff_eq_zero]
      exact hZero
    have hNoZeros : (if flags.precision then 0 else 1) -
        (digitText flags.uppercase base value).length = 0 := by
      split <;> omega
    rw [digitText, List.length_reverse, List.length_map] at hRoom
    rw [if_pos (by simp [hZero]), ntoaDigits_eq hBase hZero hRoom, numeral, hNoZeros]
    simp [digitText]

theorem reverse_numeral : (numeral uppercase base value length).reverse =
    (Nat.digits base value).map (digitOf uppercase) ++
      List.replicate (length - (digitText uppercase base value).length) (char '0') := by
  rw [numeral, List.reverse_append, List.reverse_replicate, digitText, List.reverse_reverse]

/-- Padding with zeros asks for more digits. -/
theorem padZeros_numeral {more : Nat}
    (hRoom : more ≤ ntoaBufferSize ∨ more ≤ (digitText uppercase base value).length) :
    padZeros (numeral uppercase base value length).reverse more =
      (numeral uppercase base value (max length more)).reverse := by
  have hCount : length - (digitText uppercase base value).length +
      (min more ntoaBufferSize - max length (digitText uppercase base value).length) =
        max length more - (digitText uppercase base value).length := by
    omega
  rw [padZeros, List.length_reverse, numeral_length, reverse_numeral, reverse_numeral, ← hCount,
    List.replicate_add, List.append_assoc]

theorem push_eq {buf : List Byte} {c : Byte} (h : buf.length < ntoaBufferSize) : push buf c = buf ++ [c] :=
  if_pos h

/-- The sign comes behind the digits in the buffer. -/
theorem push_sign {buf : List Byte} (hRoom : buf.length + (signText negative flags).length ≤ ntoaBufferSize) :
    (if negative then push buf (char '-') else if flags.plus then push buf (char '+')
      else if flags.space then push buf (char ' ') else buf) =
        buf ++ (signText negative flags).reverse := by
  rw [signText] at hRoom ⊢
  cases negative with
  | true => exact push_eq hRoom
  | false =>
      cases hPlus : flags.plus with
      | true =>
          simp only [hPlus, ↓reduceIte, Bool.false_eq_true] at hRoom ⊢
          exact push_eq hRoom
      | false =>
          cases hSpace : flags.space with
          | true =>
              simp only [hPlus, hSpace, ↓reduceIte, Bool.false_eq_true] at hRoom ⊢
              exact push_eq hRoom
          | false =>
              simp only [Bool.false_eq_true, ↓reduceIte]
              exact (List.append_nil buf).symm

theorem ntoaWidth_eq (hLeft : flags.left = false) (hZero : flags.zeropad = true) :
    ntoaWidth negative width flags = width - (signText negative flags).length := by
  rw [ntoaWidth, signText, hLeft, hZero]
  cases negative <;> cases flags.plus <;> cases flags.space <;> cases width <;> simp

/-- The digits in the buffer behind the zeros. -/
theorem leading_eq (hRegular : Regular prec flags) (hFits : Fits value negative base prec width flags)
    (hBase : 2 ≤ base) :
    ntoaBuf (ntoaStart value base flags) negative base prec (ntoaWidth negative width flags) flags =
      (signed value negative base prec width flags).reverse := by
  obtain ⟨hRoom, hNoZeros⟩ := hFits
  obtain ⟨hHash, hPrecision, hDefault⟩ := hRegular
  rw [signed, List.length_append, numeral_length] at hRoom
  have hDigits : (digitText flags.uppercase base value).length ≤ ntoaBufferSize := by omega
  have hZeros :
      (if !flags.left then
        let buf := padZeros (ntoaStart value base flags) prec
        if flags.zeropad then padZeros buf (ntoaWidth negative width flags) else buf
      else ntoaStart value base flags) =
        (numeral flags.uppercase base value (leading negative prec width flags)).reverse := by
    rw [ntoaStart_eq hBase hDigits]
    cases hLeft : flags.left with
    | true =>
        have hLead : leading negative prec width flags = if flags.precision then prec else 1 := by
          rw [leading, hLeft]
          simp
        simp only [Bool.not_true, Bool.false_eq_true, ↓reduceIte, hLead]
        cases hPrec : flags.precision with
        | true =>
            have hNone := hNoZeros hLeft hPrec
            simp only [↓reduceIte, numeral, Nat.zero_sub, Nat.sub_eq_zero_of_le hNone]
        | false => rfl
    | false =>
        cases hZero : flags.zeropad with
        | true =>
            have hPrec : flags.precision = false := by
              by_contra hSome
              rw [hPrecision (by simpa using hSome)] at hZero
              cases hZero
            have hLead : leading negative prec width flags =
                max 1 (width - (signText negative flags).length) := by
              rw [leading, hZero, hLeft]
              rfl
            rw [hLead] at hRoom
            simp only [Bool.not_false, ↓reduceIte, hPrec, Bool.false_eq_true, hLead,
              ntoaWidth_eq hLeft hZero]
            rw [hDefault hPrec, padZeros_numeral (.inl (Nat.zero_le _)),
              padZeros_numeral (.inl (by omega)), Nat.max_zero]
        | false =>
            have hLead : leading negative prec width flags = if flags.precision then prec else 1 := by
              rw [leading, hZero]
              rfl
            rw [hLead] at hRoom
            simp only [Bool.not_false, ↓reduceIte, Bool.false_eq_true, hLead]
            cases hPrec : flags.precision with
            | true =>
                rw [hPrec, if_pos rfl] at hRoom
                rw [if_pos rfl, if_pos rfl, padZeros_numeral (.inl (by omega)), Nat.zero_max]
            | false =>
                rw [if_neg (by decide), if_neg (by decide), hDefault hPrec,
                  padZeros_numeral (.inl (Nat.zero_le _)), Nat.max_zero]
  rw [ntoaBuf, hHash]
  simp only [Bool.false_eq_true, ↓reduceIte]
  rw [hZeros, push_sign, signed, List.reverse_append]
  rw [List.length_reverse, numeral_length]
  omega

/-- A conversion of an integer prints what the standard asks for. -/
theorem ntoaLong_eq (hBase : 2 ≤ base) (hRegular : Regular prec flags)
    (hFits : Fits value negative base prec width flags) :
    ntoaLong out value negative base prec width flags p =
      putAll out (standard value negative base prec width flags) p := by
  have hFlags : (if value = 0 then { flags with hash := false } else flags) = flags := by
    split
    · rw [← hRegular.hash]
    · rfl
  rw [ntoaLong, hFlags, ntoaFormat, leading_eq hRegular hFits hBase]
  refine (prints_outRev σ out p).trans (congrArg (putAll out · p) ?_)
  rw [revText, standard, List.reverse_reverse, List.length_reverse]
  cases hLeft : flags.left with
  | true =>
      have hWidth : ntoaWidth negative width flags = width := by
        rw [ntoaWidth, hLeft]
        rfl
      rw [hWidth]
      rfl
  | false =>
      cases hZero : flags.zeropad with
      | true =>
          have hLead : leading negative prec width flags =
              max 1 (width - (signText negative flags).length) := by
            rw [leading, hZero, hLeft]
            rfl
          have hFull : width - (signed value negative base prec width flags).length = 0 := by
            rw [signed, List.length_append, numeral_length, hLead]
            omega
          simp only [blanks, hFull, Bool.not_false, Bool.not_true, Bool.and_false,
            Bool.false_eq_true, ↓reduceIte, List.replicate_zero, List.append_nil]
      | false =>
          have hWidth : ntoaWidth negative width flags = width := by
            rw [ntoaWidth, hZero]
            simp
          simp only [hWidth, Bool.not_false, Bool.and_self, Bool.false_eq_true, ↓reduceIte,
            List.append_nil]

end Kernel.Printf
