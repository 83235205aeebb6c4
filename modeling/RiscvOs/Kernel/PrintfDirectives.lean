import RiscvOs.Kernel.PrintfIntegers
import Mathlib.Data.Nat.Digits.Lemmas

/-! Formats with an integer directive, from the text of the directive to the text
that it prints, and numbers that are printed and read again. -/
namespace Kernel.Printf

open Semantics Function

/-! ## Directives -/

/-- The length field. -/
inductive Size where
  | none
  | hh
  | h
  | l
  | ll
  | j
  | z
  | t
  deriving DecidableEq

inductive Conversion where
  | d
  | i
  | u
  | x
  | upperX
  | o
  | b
  deriving DecidableEq

/-- A directive for an integer, without the flag `#`. -/
structure IntegerDirective where
  zeropad : Bool
  left : Bool
  plus : Bool
  space : Bool
  width : Nat
  precision : Option Nat
  size : Size
  conversion : Conversion
  width_lt : width < 2 ^ 32
  precision_lt : ∀ prec ∈ precision, prec < 2 ^ 32

def Size.text : Size → List Byte
  | .none => []
  | .hh => literalText "hh"
  | .h => literalText "h"
  | .l => literalText "l"
  | .ll => literalText "ll"
  | .j => literalText "j"
  | .z => literalText "z"
  | .t => literalText "t"

def Conversion.spec : Conversion → Byte
  | .d => char 'd'
  | .i => char 'i'
  | .u => char 'u'
  | .x => char 'x'
  | .upperX => char 'X'
  | .o => char 'o'
  | .b => char 'b'

def Conversion.base : Conversion → Nat
  | .d | .i | .u => 10
  | .x | .upperX => 16
  | .o => 8
  | .b => 2

def Conversion.isSigned : Conversion → Bool
  | .d | .i => true
  | .u | .x | .upperX | .o | .b => false

/-- The value of an argument; a `char` is `unsigned`. -/
def Size.value (isSigned : Bool) (arg : Word) : Size → Int
  | .hh => (arg.setWidth 8).toNat
  | .h => if isSigned then (arg.setWidth 16).toInt else (arg.setWidth 16).toNat
  | .none => if isSigned then (arg.setWidth 32).toInt else (arg.setWidth 32).toNat
  | .l | .ll | .j | .z | .t => if isSigned then arg.toInt else arg.toNat

namespace IntegerDirective

variable (d : IntegerDirective)

def flagText : List Byte :=
  (if d.zeropad then [char '0'] else []) ++ (if d.left then [char '-'] else []) ++
    (if d.plus then [char '+'] else []) ++ if d.space then [char ' '] else []

/-- Behind the flags. -/
def fieldText : List Byte :=
  digitText false 10 d.width ++
    (match d.precision with
      | none => []
      | some prec => char '.' :: digitText false 10 prec) ++ d.size.text

/-- The directive in a format. -/
def text : List Byte :=
  char '%' :: (d.flagText ++ d.fieldText ++ [d.conversion.spec])

/-- The flags as they are read. -/
def flags : Flags where
  zeropad := d.zeropad
  left := d.left
  plus := d.plus
  space := d.space
  hash := false
  uppercase := false
  char := d.size = .hh
  short := d.size = .hh ∨ d.size = .h
  long := d.size ≠ .none ∧ d.size ≠ .hh ∧ d.size ≠ .h
  longLong := d.size = .ll
  precision := d.precision.isSome

/-- The flags that matter for the conversion: a number without a sign has none, and
a precision overrules the zeros. -/
def effective : Flags :=
  { d.flags with
    uppercase := d.conversion = .upperX
    plus := d.plus && d.conversion.isSigned
    space := d.space && d.conversion.isSigned
    zeropad := d.zeropad && d.precision.isNone }

def value (arg : Word) : Int :=
  d.size.value d.conversion.isSigned arg

/-- What the standard asks for. -/
def meaning (arg : Word) : List Byte :=
  standard (d.value arg).natAbs (d.value arg < 0) d.conversion.base (d.precision.getD 0) d.width
    d.effective

def FitsBuffer (arg : Word) : Prop :=
  Fits (d.value arg).natAbs (d.value arg < 0) d.conversion.base (d.precision.getD 0) d.width
    d.effective

end IntegerDirective

variable {d : IntegerDirective} {rest tail : List Byte} {args : List Word} {arg : Word}
  {strings : Word → List Byte} {flags : Flags} {c : Byte} {n width precision : Nat} {i : BitVec 32}

/-! ## Reading numbers and flags -/

/-- A character that is not read as a flag. -/
def NoFlag (c : Byte) : Prop :=
  c ∉ literalText "0-+ #"

instance (c : Byte) : Decidable (NoFlag c) :=
  inferInstanceAs (Decidable (¬ _))

theorem parseFlags_stop (h : NoFlag (peek tail)) : parseFlags flags tail = (flags, tail) := by
  cases tail with
  | nil => rfl
  | cons c tail =>
      have hOther : c ∉ [char '0', char '-', char '+', char ' ', char '#'] := h
      simp only [List.mem_cons, List.not_mem_nil, or_false, not_or] at hOther
      obtain ⟨hZero, hMinus, hPlus, hSpace, hHash⟩ := hOther
      rw [parseFlags, if_neg hZero, if_neg hMinus, if_neg hPlus, if_neg hSpace, if_neg hHash]

theorem parseFlags_flagText (h : NoFlag (peek tail)) :
    parseFlags noFlags (d.flagText ++ tail) =
      ({ noFlags with zeropad := d.zeropad, left := d.left, plus := d.plus, space := d.space }, tail) := by
  rw [IntegerDirective.flagText]
  cases d.zeropad <;> cases d.left <;> cases d.plus <;> cases d.space <;> exact parseFlags_stop h

theorem digitOf_isDigit {k : Nat} (hk : k < 10) :
    isDigit (digitOf false k) ∧ (digitOf false k - char '0').setWidth 32 = BitVec.ofNat 32 k := by
  revert k
  decide

theorem digitText_eq (hn : 0 < n) :
    digitText false 10 n = digitText false 10 (n / 10) ++ [digitOf false (n % 10)] := by
  rw [digitText, Nat.digits_def' (by decide) hn, List.map_cons, List.reverse_cons]
  rfl

/-- The first digit of a number is not zero. -/
theorem peek_digitText (hn : 0 < n) :
    ∃ k, 0 < k ∧ k < 10 ∧ ∀ rest, peek (digitText false 10 n ++ rest) = digitOf false k := by
  induction n using Nat.strongRecOn with
  | _ n ih =>
      by_cases hSmall : n < 10
      · refine ⟨n, hn, hSmall, fun rest => ?_⟩
        rw [digitText_eq hn, Nat.div_eq_of_lt hSmall, Nat.mod_eq_of_lt hSmall]
        simp [digitText, peek]
      · obtain ⟨k, hPos, hLt, hPeek⟩ := ih (n / 10) (by omega) (by omega)
        refine ⟨k, hPos, hLt, fun rest => ?_⟩
        rw [digitText_eq hn, List.append_assoc]
        exact hPeek _

/-- Digits are read as their number. -/
theorem atoiFormat_digitText : atoiFormat 0 (digitText false 10 n ++ rest) = atoiFormat (BitVec.ofNat 32 n) rest := by
  induction n using Nat.strongRecOn generalizing rest with
  | _ n ih =>
      rcases Nat.eq_zero_or_pos n with rfl | hn
      · simp [digitText]
      · obtain ⟨hDigit, hValue⟩ := digitOf_isDigit (Nat.mod_lt n (by decide : 0 < 10))
        have hSplit : n = n / 10 * 10 + n % 10 := by omega
        rw [digitText_eq hn, List.append_assoc, ih (n / 10) (by omega), List.singleton_append,
          atoiFormat, if_pos hDigit, hValue]
        have hNumber : BitVec.ofNat 32 n = BitVec.ofNat 32 (n / 10) * 10 + BitVec.ofNat 32 (n % 10) := by
          conv_lhs => rw [hSplit, BitVec.ofNat_add, BitVec.ofNat_mul]
          rfl
        rw [hNumber]

theorem atoiFormat_stop (h : ¬ isDigit (peek tail)) : atoiFormat i tail = (i, tail) := by
  cases tail with
  | nil => rfl
  | cons c tail => exact if_neg h

/-- What can come behind a number in a directive. -/
def Stops (tail : List Byte) : Prop :=
  peek tail ∈ literalText ".hljztdiuxXob"

theorem Stops.apart (h : Stops tail) :
    NoFlag (peek tail) ∧ ¬ isDigit (peek tail) ∧ peek tail ≠ char '*' := by
  have hAll : ∀ c ∈ literalText ".hljztdiuxXob", NoFlag c ∧ ¬ isDigit c ∧ c ≠ char '*' := by decide
  exact hAll _ h

/-- A width, or none, is read. -/
theorem parseWidth_digitText (hWidth : n < 2 ^ 32) (hTail : Stops tail) :
    parseWidth ⟨flags, 0, 0, digitText false 10 n ++ tail, args⟩ = some ⟨flags, n, 0, tail, args⟩ := by
  obtain ⟨-, hDigit, hStar⟩ := hTail.apart
  rw [parseWidth]
  rcases Nat.eq_zero_or_pos n with rfl | hn
  · have hNone : digitText false 10 0 ++ tail = tail := by simp [digitText]
    simp only [hNone, hDigit, hStar, ↓reduceIte]
  · obtain ⟨k, -, hLt, hPeek⟩ := peek_digitText hn
    have hFirst : isDigit (peek (digitText false 10 n ++ tail)) := by
      rw [hPeek]
      exact (digitOf_isDigit hLt).1
    simp only [hFirst, ↓reduceIte]
    rw [atoiFormat_digitText, atoiFormat_stop hDigit]
    simp only [BitVec.toNat_ofNat, Nat.mod_eq_of_lt hWidth]

/-- A precision is read. -/
theorem parsePrecision_digitText (hPrecision : n < 2 ^ 32) (hTail : Stops tail) :
    parsePrecision ⟨flags, width, 0, char '.' :: (digitText false 10 n ++ tail), args⟩ =
      some ⟨{ flags with precision := true }, width, n, tail, args⟩ := by
  obtain ⟨-, hDigit, hStar⟩ := hTail.apart
  have hDot : peek (char '.' :: (digitText false 10 n ++ tail)) = char '.' := rfl
  simp only [parsePrecision, hDot, ↓reduceIte, List.tail_cons]
  rcases Nat.eq_zero_or_pos n with rfl | hn
  · have hNone : digitText false 10 0 ++ tail = tail := by simp [digitText]
    simp only [hNone, hDigit, hStar, ↓reduceIte]
  · obtain ⟨k, -, hLt, hPeek⟩ := peek_digitText hn
    have hFirst : isDigit (peek (digitText false 10 n ++ tail)) := by
      rw [hPeek]
      exact (digitOf_isDigit hLt).1
    simp only [hFirst, ↓reduceIte]
    rw [atoiFormat_digitText, atoiFormat_stop hDigit]
    simp only [BitVec.toNat_ofNat, Nat.mod_eq_of_lt hPrecision]

theorem stops_size (size : Size) (conversion : Conversion) (rest : List Byte) :
    Stops (size.text ++ conversion.spec :: rest) ∧
      peek (size.text ++ conversion.spec :: rest) ≠ char '.' := by
  have hPeek : peek (size.text ++ conversion.spec :: rest) = peek (size.text ++ [conversion.spec]) := by
    cases size <;> rfl
  rw [Stops, hPeek]
  cases size <;> cases conversion <;> decide

/-- The length field sets its flags. -/
theorem parseLength_size (size : Size) (conversion : Conversion) (hFlags : flags.char = false)
    (hShort : flags.short = false) (hLong : flags.long = false) (hLongLong : flags.longLong = false) :
    parseLength ⟨flags, width, precision, size.text ++ conversion.spec :: rest, args⟩ =
      ⟨{ flags with
          char := size = .hh
          short := size = .hh ∨ size = .h
          long := size ≠ .none ∧ size ≠ .hh ∧ size ≠ .h
          longLong := size = .ll },
        width, precision, conversion.spec :: rest, args⟩ := by
  obtain ⟨zeropad, left, plus, space, hash, uppercase, ch, short, long, longLong, prec⟩ := flags
  subst hFlags hShort hLong hLongLong
  cases size <;> cases conversion <;> rfl

/-- The width is not read as a flag. -/
theorem noFlag_width (hTail : Stops tail) : NoFlag (peek (digitText false 10 n ++ tail)) := by
  rcases Nat.eq_zero_or_pos n with rfl | hn
  · have hNone : digitText false 10 0 ++ tail = tail := by simp [digitText]
    rw [hNone]
    exact hTail.apart.1
  · obtain ⟨k, hPos, hLt, hPeek⟩ := peek_digitText hn
    have hAll : ∀ k < 10, 0 < k → NoFlag (digitOf false k) := by decide
    rw [hPeek]
    exact hAll k hLt hPos

/-- Reading a directive gives back what it was made of. -/
theorem parse_text :
    parse (d.flagText ++ d.fieldText ++ d.conversion.spec :: rest) args =
      some ⟨d.flags, d.width, d.precision.getD 0, d.conversion.spec :: rest, args⟩ := by
  obtain ⟨hStops, hNoDot⟩ := stops_size d.size d.conversion rest
  have hLt := d.precision_lt
  rw [List.append_assoc, IntegerDirective.fieldText, IntegerDirective.flags, parse]
  cases hPrecision : d.precision with
  | none =>
      simp only [List.append_nil, List.append_assoc, Option.bind_eq_bind]
      rw [parseFlags_flagText (noFlag_width hStops), parseWidth_digitText d.width_lt hStops,
        Option.bind_some, parsePrecision, if_neg hNoDot, Option.bind_some,
        parseLength_size _ _ rfl rfl rfl rfl]
      rfl
  | some prec =>
      have hDot : Stops (char '.' :: (digitText false 10 prec ++
          (d.size.text ++ d.conversion.spec :: rest))) := by
        have hPeek : char '.' ∈ literalText ".hljztdiuxXob" := by decide
        exact hPeek
      simp only [List.cons_append, List.append_assoc, Option.bind_eq_bind]
      rw [parseFlags_flagText (noFlag_width hDot), parseWidth_digitText d.width_lt hDot,
        Option.bind_some, parsePrecision_digitText (hLt prec hPrecision) hStops, Option.bind_some,
        parseLength_size _ _ rfl rfl rfl rfl]
      rfl

/-! ## Printing an integer -/

/-- The magnitude of a number, also of the smallest one. -/
theorem magnitude_toNat {w : Nat} (x : BitVec w) :
    (if x.toInt > 0 then x else 0 - x).toNat = x.toInt.natAbs := by
  have hLt := x.isLt
  split
  next hPos =>
    have hNat : x.toInt = x.toNat := by
      rw [BitVec.toInt_eq_toNat_cond] at hPos ⊢
      split at hPos
      next hSmall => rw [if_pos hSmall]
      next hLarge => omega
    rw [hNat]
    rfl
  next hNotPos =>
    have hNegated : (0 - x).toNat = (2 ^ w - x.toNat) % 2 ^ w := by
      rw [BitVec.toNat_sub]
      simp
    rw [hNegated]
    rw [BitVec.toInt_eq_toNat_cond] at hNotPos ⊢
    by_cases hZero : x.toNat = 0
    · rw [hZero]
      simp
    · rw [Nat.mod_eq_of_lt (by omega)]
      split at hNotPos
      next hSmall => omega
      next hLarge =>
        rw [if_neg hLarge]
        omega

theorem integerArg_signed {spec : Byte} (h : spec = char 'i' ∨ spec = char 'd') :
    integerArg spec flags arg =
      if flags.longLong || flags.long then (decide (arg.toInt < 0), arg.toInt.natAbs)
      else
        let value : BitVec 32 :=
          if flags.char then (arg.setWidth 8).setWidth 32
          else if flags.short then (arg.setWidth 16).signExtend 32
          else arg.setWidth 32
        (decide (value.toInt < 0), value.toInt.natAbs) := by
  rw [integerArg, if_pos h, magnitude_toNat]
  split
  · rfl
  · simp only [magnitude_toNat]

theorem unsigned_arg (n : Nat) : (false, n) = (decide ((n : Int) < 0), (n : Int).natAbs) := by
  simp

/-- The conversions read the argument as it is meant. -/
theorem integerArg_eq (d : IntegerDirective) (arg : Word) :
    integerArg d.conversion.spec d.effective arg = (decide (d.value arg < 0), (d.value arg).natAbs) := by
  have hByte : ((arg.setWidth 8).setWidth 32).toInt = (arg.setWidth 8).toNat := by
    have hLt := (arg.setWidth 8).isLt
    rw [BitVec.toInt_eq_toNat_of_lt]
    · rw [BitVec.toNat_setWidth_of_le (by decide)]
    · rw [BitVec.toNat_setWidth_of_le (by decide)]
      omega
  cases hSigned : d.conversion.isSigned with
  | true =>
      have hSpec : d.conversion.spec = char 'i' ∨ d.conversion.spec = char 'd' := by
        revert hSigned
        cases d.conversion <;> decide
      rw [integerArg_signed hSpec, IntegerDirective.value, hSigned, IntegerDirective.effective,
        IntegerDirective.flags]
      cases d.size with
      | hh => simp [Size.value, hByte]
      | h =>
          have hShort : ((arg.setWidth 16).signExtend 32).toInt = (arg.setWidth 16).toInt :=
            BitVec.toInt_signExtend_of_le (by decide)
          simp [Size.value, hShort]
      | none => rfl
      | _ => rfl
  | false =>
      have hSpec : ¬ (d.conversion.spec = char 'i' ∨ d.conversion.spec = char 'd') := by
        revert hSigned
        cases d.conversion <;> decide
      rw [integerArg, if_neg hSpec, IntegerDirective.value, hSigned, IntegerDirective.effective,
        IntegerDirective.flags]
      cases d.size with
      | hh =>
          have hByte : ((arg.setWidth 8).setWidth 32).toNat = (arg.setWidth 8).toNat :=
            BitVec.toNat_setWidth_of_le (by decide)
          exact (congrArg (Prod.mk false) hByte).trans (unsigned_arg _)
      | h =>
          have hShort : ((arg.setWidth 16).setWidth 32).toNat = (arg.setWidth 16).toNat :=
            BitVec.toNat_setWidth_of_le (by decide)
          exact (congrArg (Prod.mk false) hShort).trans (unsigned_arg _)
      | _ => exact unsigned_arg _

theorem regular_effective (d : IntegerDirective) : Regular (d.precision.getD 0) d.effective where
  hash := rfl
  precision := by
    intro hSome
    change (d.zeropad && d.precision.isNone) = false
    have hPrecision : d.precision.isSome = true := hSome
    rw [← Option.not_isSome, hPrecision]
    exact Bool.and_false _
  default := by
    intro hNone
    have hPrecision : d.precision.isSome = false := hNone
    have hNothing : d.precision = none := by simpa using hPrecision
    rw [hNothing]
    rfl

theorem integerFlags_eq (d : IntegerDirective) :
    baseOf d.conversion.spec = some d.conversion.base ∧
      integerFlags d.conversion.spec d.conversion.base d.flags = d.effective := by
  obtain ⟨zeropad, left, plus, space, width, precision, size, conversion, hWidth, hPrecision⟩ := d
  refine ⟨by cases conversion <;> rfl, ?_⟩
  cases precision <;> cases conversion <;>
    simp [integerFlags, IntegerDirective.effective, IntegerDirective.flags, Conversion.spec,
      Conversion.base, Conversion.isSigned, char]

theorem formatted_text (hFits : d.FitsBuffer arg) :
    formatted strings d.text (arg :: args) = some (args, d.meaning arg) := by
  have hParse := @parse_text d [] (arg :: args)
  have hSpec : isFloat d.conversion.spec = false ∧ takesArg d.conversion.spec = true := by
    cases d.conversion <;> decide
  obtain ⟨hBase, hFlags⟩ := integerFlags_eq d
  have hTwo : 2 ≤ d.conversion.base := by
    cases d.conversion <;> decide
  have hTurn : turn collect strings (char '%') (d.flagText ++ d.fieldText ++ [d.conversion.spec])
      (arg :: args) (0, []) = some ([], args, ((d.meaning arg).length, d.meaning arg)) := by
    rw [turn, if_neg (not_not.mpr rfl), hParse, Option.bind_eq_bind, Option.bind_some]
    simp only [hSpec.1, hSpec.2, Bool.false_eq_true, ↓reduceIte, putArg, hBase, hFlags]
    rw [integerArg_eq, ntoaLong_eq hTwo (regular_effective d) hFits, putAll_collect]
    rw [Nat.zero_add, List.nil_append]
    rfl
  rw [formatted, IntegerDirective.text, List.length_cons, formatLoop_cons, hTurn, Option.bind_some]
  rfl

/-- Nothing that an integer directive prints is a zero byte. -/
theorem meaning_ne_zero (d : IntegerDirective) (arg : Word) : ∀ c ∈ d.meaning arg, c ≠ 0 := by
  have hSign : ∀ c ∈ signText (decide (d.value arg < 0)) d.effective, c ≠ 0 := by
    intro c hMem
    rw [signText] at hMem
    split_ifs at hMem
    · exact List.mem_singleton.mp hMem ▸ by decide
    · exact List.mem_singleton.mp hMem ▸ by decide
    · exact List.mem_singleton.mp hMem ▸ by decide
    · cases hMem
  have hDigit : ∀ k < 16, ∀ uppercase, digitOf uppercase k ≠ 0 := by decide
  have hTwo : 2 ≤ d.conversion.base ∧ d.conversion.base ≤ 16 := by
    cases d.conversion <;> decide
  have hBlank (width length : Nat) : ∀ c ∈ blanks width length, c ≠ 0 := by
    intro c hMem
    rw [List.eq_of_mem_replicate hMem]
    decide
  have hNumeral (length : Nat) : ∀ c ∈ numeral d.effective.uppercase d.conversion.base
      (d.value arg).natAbs length, c ≠ 0 := by
    intro c hMem
    rcases List.mem_append.mp hMem with hZeros | hDigits
    · rw [List.eq_of_mem_replicate hZeros]
      decide
    · obtain ⟨k, hk, rfl⟩ := List.mem_map.mp (List.mem_reverse.mp hDigits)
      exact hDigit k ((Nat.digits_lt_base hTwo.1 hk).trans_le hTwo.2) _
  intro c hMem
  rw [IntegerDirective.meaning, standard] at hMem
  have hText : c ∈ signed (d.value arg).natAbs (d.value arg < 0) d.conversion.base
      (d.precision.getD 0) d.width d.effective → c ≠ 0 := fun hIn =>
    (List.mem_append.mp hIn).elim (hSign c) (hNumeral _ c)
  split at hMem
  · exact (List.mem_append.mp hMem).elim hText (hBlank _ _ c)
  · exact (List.mem_append.mp hMem).elim (hBlank _ _ c) hText

/-- An integer directive prints what the standard asks for, when the buffer of the
conversion has room for it. -/
theorem printf_integer (hFits : d.FitsBuffer arg) (sent : List Byte) :
    printf strings d.text [arg] sent =
      some (BitVec.ofNat 32 (d.meaning arg).length, sent ++ d.meaning arg) := by
  have hAll : (d.meaning arg).filter (· ≠ 0) = d.meaning arg :=
    List.filter_eq_self.mpr fun c hMem => decide_eq_true (meaning_ne_zero d arg c hMem)
  rw [printf_eq, formatted_text hFits, Option.map_some, hAll]

/-- The directive `%05d`. -/
def zeroPadded : IntegerDirective where
  zeropad := true
  left := false
  plus := false
  space := false
  width := 5
  precision := none
  size := .none
  conversion := .d
  width_lt := by decide
  precision_lt := by simp

example :
    printf (fun _ => []) zeroPadded.text [0xffffffd6] [] =
      some (BitVec.ofNat 32 (zeroPadded.meaning 0xffffffd6).length,
        [] ++ zeroPadded.meaning 0xffffffd6) := by
  have hValue : zeroPadded.value 0xffffffd6 = -42 := by decide
  have hDigits : Nat.digits 10 42 = [2, 4] := by norm_num
  refine printf_integer ⟨?_, fun hLeft => by cases hLeft⟩ []
  rw [hValue, signed, List.length_append, numeral_length, digitText]
  change 1 + max (max 1 (5 - 1)) ((Nat.digits 10 42).map _).reverse.length ≤ 32
  rw [hDigits]
  decide

/-! ## Printing a number and reading it -/

/-- The directive `%d`. -/
def plainInt : IntegerDirective where
  zeropad := false
  left := false
  plus := false
  space := false
  width := 0
  precision := none
  size := .none
  conversion := .d
  width_lt := by decide
  precision_lt := by simp

/-- A number is written with at least one digit. -/
theorem exists_digits (n : Nat) :
    ∃ digits : List (Fin 10), digits ≠ [] ∧ denoted digits = n ∧
      numeral false 10 n 1 = digits.map digitChar := by
  rcases Nat.eq_zero_or_pos n with rfl | hn
  · refine ⟨[0], List.cons_ne_nil _ _, by decide, by simp [numeral, digitText, digitChar]⟩
  · have hLt : ∀ k ∈ Nat.digits 10 n, k < 10 := fun k hk => Nat.digits_lt_base (by decide) hk
    have hNonempty : Nat.digits 10 n ≠ [] := by
      rw [Ne, Nat.digits_eq_nil_iff_eq_zero]
      omega
    have hLength : 1 - (digitText false 10 n).length = 0 := by
      have hPos := List.length_pos_iff.mpr hNonempty
      rw [digitText, List.length_reverse, List.length_map]
      omega
    refine ⟨((Nat.digits 10 n).map (Fin.ofNat 10)).reverse, by simpa using hNonempty, ?_, ?_⟩
    · rw [denoted, List.reverse_reverse, List.map_map]
      have hSame : (Nat.digits 10 n).map (Fin.val ∘ Fin.ofNat 10) = Nat.digits 10 n := by
        conv_rhs => rw [← List.map_id (Nat.digits 10 n)]
        exact List.map_congr_left fun k hk => Nat.mod_eq_of_lt (hLt k hk)
      rw [hSame, Nat.ofDigits_digits]
    · rw [numeral, hLength, digitText, List.map_reverse, List.map_map]
      have hDigit : ∀ k < 10, digitOf false k = digitChar (Fin.ofNat 10 k) := by decide
      exact congrArg List.reverse (List.map_congr_left fun k hk => hDigit k (hLt k hk))

theorem atoi_minus {st : Nat → Byte} {fuel : Nat} {value : BitVec 32} (hMinus : st 0 = char '-')
    (hNext : st 1 ≠ char '-') (h : atoi fuel (fun k => st (k + 1)) = some value) :
    atoi fuel st = some (-value) := by
  rw [atoi] at h ⊢
  simp only [Nat.zero_add, hNext, ↓reduceIte] at h
  simp only [hMinus, ↓reduceIte]
  obtain ⟨l, hScan, hValue⟩ := Option.map_eq_some_iff.mp h
  rw [hScan, Option.map_some, hValue]

/-- `%d` prints a sign and digits. -/
theorem meaning_plainInt (arg : Word) :
    ∃ digits : List (Fin 10), digits ≠ [] ∧ digits.length ≤ 10 ∧
      denoted digits = (arg.setWidth 32).toInt.natAbs ∧ plainInt.meaning arg =
        (if (arg.setWidth 32).toInt < 0 then [char '-'] else []) ++ digits.map digitChar ∧
      plainInt.FitsBuffer arg := by
  obtain ⟨digits, hNonempty, hDenoted, hNumeral⟩ := exists_digits (arg.setWidth 32).toInt.natAbs
  have hText : signed (arg.setWidth 32).toInt.natAbs ((arg.setWidth 32).toInt < 0) 10 0 0
      plainInt.effective =
        (if (arg.setWidth 32).toInt < 0 then [char '-'] else []) ++ digits.map digitChar := by
    rw [← hNumeral, signed, signText]
    split
    next hNegative =>
      rw [if_pos (of_decide_eq_true hNegative)]
      rfl
    next hNonnegative =>
      rw [if_neg fun hNegative => hNonnegative (decide_eq_true hNegative)]
      rfl
  have hLength : digits.length ≤ 10 := by
    have hSame := congrArg List.length hNumeral
    have hMin := BitVec.le_toInt (arg.setWidth 32)
    have hMax := @BitVec.toInt_lt _ (arg.setWidth 32)
    have hDigits : (Nat.digits 10 (arg.setWidth 32).toInt.natAbs).length ≤ 10 := by
      rw [Nat.digits_length_le_iff (by decide)]
      omega
    rw [numeral_length, digitText, List.length_reverse, List.length_map, List.length_map] at hSame
    omega
  refine ⟨digits, hNonempty, hLength, hDenoted, ?_, ⟨?_, fun hLeft => by cases hLeft⟩⟩
  · have hMeaning : plainInt.meaning arg = blanks 0 (signed (arg.setWidth 32).toInt.natAbs
        ((arg.setWidth 32).toInt < 0) 10 0 0 plainInt.effective).length ++
          signed (arg.setWidth 32).toInt.natAbs ((arg.setWidth 32).toInt < 0) 10 0 0
            plainInt.effective := rfl
    rw [hMeaning, hText, blanks, Nat.zero_sub]
    rfl
  · refine (congrArg List.length hText).trans_le ?_
    rw [List.length_append, List.length_map, ntoaBufferSize]
    split
    · rw [List.length_singleton]
      omega
    · rw [List.length_nil]
      omega

/-- A string of a sign and digits is read as the number. -/
theorem atoi_signed {st : Nat → Byte} {digits : List (Fin 10)} {fuel : Nat} {x : BitVec 32}
    (hNonempty : digits ≠ []) (hDenoted : denoted digits = x.toInt.natAbs)
    (hString : Spells st ((if x.toInt < 0 then [char '-'] else []) ++ digits.map digitChar))
    (hFuel : digits.length < fuel) : atoi fuel st = some x := by
  by_cases hNegative : x.toInt < 0
  · rw [if_pos hNegative, List.singleton_append] at hString
    obtain ⟨hMinus, -, hRest⟩ := Spells.cons_iff.mp hString
    have hFirst : st 1 ≠ char '-' := by
      have hPos : 0 < (digits.map digitChar).length := by
        rw [List.length_map]
        exact List.length_pos_iff.mpr hNonempty
      rw [show st 1 = _ from hRest.get 0 hPos, List.getElem_map]
      exact digitChar_ne_minus _
    rw [atoi_minus hMinus hFirst (atoi_of_digits hRest hNonempty hFuel), hDenoted]
    refine congrArg some (BitVec.eq_of_toNat_eq ?_)
    have hLt := x.isLt
    have hInt : x.toInt = (x.toNat : Int) - 2 ^ 32 := by
      rw [BitVec.toInt_eq_toNat_cond] at hNegative ⊢
      split at hNegative
      next hSmall => omega
      next hLarge => rw [if_neg hLarge]; rfl
    rw [BitVec.toNat_neg, BitVec.toNat_ofNat]
    omega
  · rw [if_neg hNegative] at hString
    rw [atoi_of_digits hString hNonempty hFuel, hDenoted]
    refine congrArg some (BitVec.eq_of_toNat_eq ?_)
    have hLt := x.isLt
    have hInt : x.toInt = x.toNat := by
      rw [BitVec.toInt_eq_toNat_cond] at hNegative ⊢
      split at hNegative
      next hSmall => rw [if_pos hSmall]
      next hLarge => omega
    rw [BitVec.toNat_ofNat]
    omega

/-- A number that is printed in decimal is read as itself, and nothing is written
behind the buffer. -/
theorem atoi_snprintf {buffer : Word} {count : Nat} {m : Memory} (arg : Word) (hBuffer : buffer ≠ 0)
    (hCount : 12 ≤ count) (hLt : count < 2 ^ 64) :
    ∃ ret m', snprintf strings buffer count (literalText "%d") [arg] m = some (ret, m') ∧
      atoi count (fun k => m' (buffer + BitVec.ofNat 64 k)) = some (arg.setWidth 32) ∧
      ∀ x, ¬ InRange buffer count x → m' x = m x := by
  have hText : plainInt.text = literalText "%d" := by decide
  obtain ⟨digits, hNonempty, hLength, hDenoted, hMeaning, hFits⟩ := meaning_plainInt arg
  have hFormat := @formatted_text plainInt [] arg strings hFits
  rw [hText] at hFormat
  have hCall := @snprintf_eq strings (literalText "%d") [arg] m buffer count hBuffer hLt
  rw [hFormat, Option.map_some] at hCall
  have hShort : (plainInt.meaning arg).length ≤ count - 1 := by
    rw [hMeaning, List.length_append, List.length_map]
    split
    · rw [List.length_singleton]
      omega
    · rw [List.length_nil]
      omega
  have hNoZero : 0 ∉ plainInt.meaning arg := fun hZero => meaning_ne_zero plainInt arg 0 hZero rfl
  have hWrote := @wrote_filled (plainInt.meaning arg) m buffer count hLt (by omega) hNoZero
  rw [List.take_of_length_le hShort] at hWrote
  refine ⟨_, _, hCall, ?_, hWrote.outside⟩
  refine atoi_signed hNonempty hDenoted ?_ (by omega)
  rw [← hMeaning]
  exact hWrote.string

example :
    ∃ ret m', snprintf (fun _ => []) 0x80210000 16 (literalText "%d") [0xffffffd6] (fun _ => 0) =
        some (ret, m') ∧
      atoi 16 (fun k => m' (0x80210000 + BitVec.ofNat 64 k)) =
        some ((0xffffffd6 : Word).setWidth 32) ∧
      ∀ x, ¬ InRange 0x80210000 16 x → m' x = 0 :=
  atoi_snprintf 0xffffffd6 (by decide) (by decide) (by decide)

end Kernel.Printf
