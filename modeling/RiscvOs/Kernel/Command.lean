import RiscvOs.Kernel.Strhelp

/-! `run_command` of `main.c`, and the hart that a command line starts. -/
namespace Kernel.Command

open Semantics

/-- `char command[256]`; no loop over the command leaves it. -/
def commandSize : Nat :=
  256

inductive Arg where
  | int (value : BitVec 32)
  | string (s : Nat → Byte)

/-- What a command does. -/
inductive Action where
  | printf (format : String) (args : List Arg)
  | hartGetStatus (hart : BitVec 32)
  | hartStart (hart : BitVec 32) (target scratch : Word)

/-- The line for a hart of the command `stat`; an unknown status has no name. -/
def statLine (status : BitVec 32 → BitVec 32) (i : BitVec 32) : List Action :=
  .hartGetStatus i ::
    if status i ≠ 0 then
      .printf "Hart %d: " [.int i] ::
        if status i = 1 then [.printf "stopped\n" []]
        else if status i = 2 then [.printf "starting\n" []]
        else if status i = 3 then [.printf "started\n" []]
        else if status i = 4 then [.printf "stopping\n" []]
        else []
    else []

/-- The command `start`, behind its number. -/
def startHart (status : BitVec 32 → BitVec 32) (testHart : Word) (hart : BitVec 32) : List Action :=
  if hart.toInt < 0 ∨ 8 ≤ hart.toInt then [.printf "Invalid hart '%d' specified.\n" [.int hart]]
  else
    .hartGetStatus hart ::
      if status hart ≠ 1 then [.printf "Hart %d is not stopped\n" [.int hart]]
      else [.hartStart hart testHart 1]

/-- `status` is what `sbi_hart_get_status` answers, `testHart` the address of
`test_hart`. -/
def runCommand (status : BitVec 32 → BitVec 32) (testHart : Word) (command : Nat → Byte) :
    Option (List Action) := do
  let help ← strcmp commandSize command (literal "help")
  if help = 0 then
    some [.printf "Valid commands: 'stat' , 'start #hart_num#'\n" []]
  else
    let stat ← strcmp commandSize command (literal "stat")
    if stat = 0 then
      some ([.printf "HART STATUS\n" [], .printf "~~~~~~~~~~~\n" []] ++
        (counters 0 8).flatMap (statLine status))
    else if strncmp command (literal "start") 5 = 0 then
      let space ← strfindchr commandSize command (char ' ')
      if space = -1 then
        some [.printf "Usage: start <hart>\n" []]
      else
        let hart ← atoi commandSize fun k => command ((space + 1).toNat + k)
        some (startHart status testHart hart)
    else if command 0 ≠ 0 then
      some [.printf "Unknown command '%s'.\n" [.string command]]
    else some []

/-! ## Lines that start a hart -/

/-- `"start"`, anything without a space, a space and digits. -/
def startText (junk : List Byte) (digits : List (Fin 10)) : List Byte :=
  literalText "start" ++ junk ++ char ' ' :: digits.map digitChar

/-- A command of this form in the command buffer. -/
structure StartLine where
  command : Nat → Byte
  junk : List Byte
  digits : List (Fin 10)
  spells : Spells command (startText junk digits)
  no_space : char ' ' ∉ junk
  nonempty : digits ≠ []
  fits : (startText junk digits).length < commandSize

def StartLine.number (line : StartLine) : Nat :=
  denoted line.digits

/-- The harts that a command starts. -/
def startedHarts (actions : List Action) : List (BitVec 32) :=
  actions.filterMap fun
    | .hartStart hart _ _ => some hart
    | _ => none

/-- A command starts at most one hart, and only the one that the number denotes;
eight and above are rejected. -/
structure Obeys (number : Nat) (actions : List Action) : Prop where
  once : (startedHarts actions).length ≤ 1
  denoted : ∀ hart ∈ startedHarts actions, number < 8 ∧ hart.toNat = number
  rejected : 8 ≤ number → ∃ hart, actions = [.printf "Invalid hart '%d' specified.\n" [.int hart]]

/-- Whatever the states of the harts, the command obeys its number. -/
def StartLine.Obeyed (line : StartLine) : Prop :=
  ∀ status testHart, ∃ actions,
    runCommand status testHart line.command = some actions ∧ Obeys line.number actions

variable {status : BitVec 32 → BitVec 32} {testHart : Word} {hart : BitVec 32}

namespace StartLine

variable (line : StartLine)

theorem starts_with {k : Nat} (hk : k < 5) : line.command k = literal "start" k := by
  have hPrefix : literalText "start" <+: startText line.junk line.digits :=
    ⟨_, (List.append_assoc ..).symm⟩
  have hLiteral : Spells (literal "start") (literalText "start") := spells_literal (by decide)
  have hLength : k < (literalText "start").length := hk
  exact (line.spells.get_of_prefix hPrefix hLength).trans (hLiteral.get k hLength).symm

theorem strcmp_help : ∃ c, strcmp commandSize line.command (literal "help") = some c ∧ c ≠ 0 := by
  refine strcmp_of_unequal (k := 0) (by decide) (fun j hj => by omega) ?_
  rw [line.starts_with (by omega)]
  decide

theorem strcmp_stat : ∃ c, strcmp commandSize line.command (literal "stat") = some c ∧ c ≠ 0 := by
  have hBefore : ∀ j < 3, literal "start" j ≠ 0 ∧ literal "start" j = literal "stat" j := by decide
  refine strcmp_of_unequal (k := 3) (by decide) (fun j hj => ?_) ?_
  · rw [line.starts_with (by omega)]
    exact hBefore j hj
  · rw [line.starts_with (by omega)]
    decide

theorem strncmp_start : strncmp line.command (literal "start") 5 = 0 :=
  strncmp_of_equal fun k hScope => line.starts_with (by
    have hLt : (k : Int) < 5 := hScope.1
    omega)

/-- The number stands behind the first space. -/
theorem strfindchr_space :
    strfindchr commandSize line.command (char ' ') = some ((5 + line.junk.length : Nat) : Int) := by
  have hFirst : char ' ' ∉ literalText "start" ++ line.junk := by
    rw [List.mem_append]
    rintro (hStart | hJunk)
    · revert hStart
      decide
    · exact line.no_space hJunk
  have hLength : (literalText "start" ++ line.junk).length = 5 + line.junk.length :=
    List.length_append
  have hFits := line.fits
  rw [startText, List.length_append, hLength] at hFits
  rw [← hLength]
  exact strfindchr_found line.spells hFirst (by omega)

theorem atoi_number :
    atoi commandSize (fun k => line.command (5 + line.junk.length + 1 + k)) =
      some (BitVec.ofNat 32 line.number) := by
  have hText : startText line.junk line.digits =
      (literalText "start" ++ line.junk ++ [char ' ']) ++ line.digits.map digitChar := by
    rw [startText, List.append_assoc _ [char ' ']]
    rfl
  have hLength : (literalText "start" ++ line.junk ++ [char ' ']).length =
      5 + line.junk.length + 1 := by
    simp only [List.length_append, List.length_singleton]
    rfl
  have hDigits := line.spells
  have hFits := line.fits
  rw [hText] at hDigits hFits
  rw [List.length_append, List.length_map] at hFits
  have hBehind := hDigits.drop
  rw [hLength] at hBehind
  exact atoi_of_digits hBehind line.nonempty (by omega)

/-- The command starts the hart that the number denotes modulo `2 ^ 32`. -/
theorem runCommand_eq :
    runCommand status testHart line.command =
      some (startHart status testHart (BitVec.ofNat 32 line.number)) := by
  obtain ⟨help, hHelp, hNotHelp⟩ := line.strcmp_help
  obtain ⟨stat, hStat, hNotStat⟩ := line.strcmp_stat
  have hFound : ((5 + line.junk.length : Nat) : Int) ≠ -1 := by omega
  have hNext : (((5 + line.junk.length : Nat) : Int) + 1).toNat = 5 + line.junk.length + 1 := by omega
  simp only [runCommand, hHelp, hStat, hNotHelp, hNotStat, line.strncmp_start,
    line.strfindchr_space, hFound, hNext, line.atoi_number, Option.bind_eq_bind, Option.bind_some,
    ↓reduceIte]

end StartLine

theorem invalid_iff : hart.toInt < 0 ∨ 8 ≤ hart.toInt ↔ 8 ≤ hart.toNat := by
  have hLt := hart.isLt
  rw [BitVec.toInt_eq_toNat_cond]
  split <;> omega

/-- A command line of this form obeys its number exactly when the number stays
below eight, or modulo `2 ^ 32` does not come below eight. -/
theorem obeyed_iff (line : StartLine) :
    line.Obeyed ↔ line.number < 8 ∨ 8 ≤ line.number % 2 ^ 32 := by
  have hHart : (BitVec.ofNat 32 line.number).toNat = line.number % 2 ^ 32 := BitVec.toNat_ofNat ..
  constructor
  · intro h
    by_contra hWrong
    push Not at hWrong
    obtain ⟨actions, hRun, hObeys⟩ := h (fun _ => 1) 0
    obtain ⟨hart, hRejected⟩ := hObeys.rejected hWrong.1
    have hValid : ¬ ((BitVec.ofNat 32 line.number).toInt < 0 ∨
        8 ≤ (BitVec.ofNat 32 line.number).toInt) := by
      rw [invalid_iff]
      omega
    rw [line.runCommand_eq, startHart, if_neg hValid, Option.some.injEq, hRejected] at hRun
    cases hRun
  · intro h status testHart
    refine ⟨_, line.runCommand_eq, ?_⟩
    by_cases hInvalid : 8 ≤ line.number % 2 ^ 32
    · rw [startHart, if_pos (invalid_iff.mpr (by omega))]
      refine ⟨Nat.zero_le _, fun hart hStarted => ?_, fun _ => ⟨_, rfl⟩⟩
      cases hStarted
    · have hSmall : line.number < 8 := h.resolve_right hInvalid
      rw [startHart, if_neg (mt invalid_iff.mp (by omega))]
      split
      · refine ⟨Nat.zero_le _, fun hart hStarted => ?_, fun hLarge => by omega⟩
        cases hStarted
      · refine ⟨le_refl _, fun hart hStarted => ?_, fun hLarge => by omega⟩
        rw [List.mem_singleton.mp hStarted, hHart]
        omega

/-- The line `start 4294967297`. -/
def wrappingLine : StartLine where
  command := literal "start 4294967297"
  junk := []
  digits := [4, 2, 9, 4, 9, 6, 7, 2, 9, 7]
  spells := spells_literal (by decide)
  no_space := List.not_mem_nil
  nonempty := List.cons_ne_nil _ _
  fits := by decide

/-- The line starts hart 1. -/
theorem runCommand_wrappingLine :
    runCommand (fun _ => 1) testHart wrappingLine.command =
      some [.hartGetStatus 1, .hartStart 1 testHart 1] := by
  have hHart : BitVec.ofNat 32 wrappingLine.number = 1 := by decide
  rw [wrappingLine.runCommand_eq, hHart]
  rfl

theorem not_obeyed : ¬ ∀ line : StartLine, line.Obeyed := by
  intro h
  obtain ⟨actions, hRun, hObeys⟩ := h wrappingLine (fun _ => 1) 0
  rw [runCommand_wrappingLine, Option.some.injEq] at hRun
  subst hRun
  exact absurd (hObeys.denoted 1 (by simp [startedHarts])).1 (by decide)

end Kernel.Command
