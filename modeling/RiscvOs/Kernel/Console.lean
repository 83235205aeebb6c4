import RiscvOs.Kernel.Command
import RiscvOs.Kernel.PrintfText
import RiscvOs.Semantics.LineEditor

/-! The loop of `main.c` that reads command lines, and what a terminal shows of
it. The consoles under `user/` have the same loop with other constants. -/
namespace Kernel.Console

open Semantics Function Command

def alarm : Byte := 7

def backspace : Byte := 8

def delete : Byte := 127

def Printable (c : Byte) : Prop :=
  char ' ' ≤ c ∧ c < delete

instance (c : Byte) : Decidable (Printable c) :=
  inferInstanceAs (Decidable (_ ∧ _))

/-- What the loops of the consoles differ in: the size of `command`, the
characters that erase, and the texts that they print. -/
structure Style where
  size : Nat
  erases : Byte → Bool
  mark : List Byte
  /-- The prompt behind a command is on a row of its own. -/
  freshRow : Bool
  /-- When there is nothing to erase. -/
  bell : List Byte
  size_pos : 0 < size
  mark_printable : ∀ c ∈ mark, Printable c
  bell_silent : ∀ c ∈ bell, c = alarm

theorem silent_nil : ∀ c ∈ ([] : List Byte), c = alarm :=
  fun _ hMem => absurd hMem List.not_mem_nil

/-- The prompt behind a command. -/
def Style.prompt (style : Style) : List Byte :=
  (if style.freshRow then literalText "\n" else []) ++ style.mark

/-- The variables of the loop; `index` is the variable `at`. -/
structure State where
  command : Nat → Byte
  index : Nat

inductive Action where
  | prints (text : List Byte)
  | runs (command : Nat → Byte)

/-- One turn of the loop, behind the wait for a character. -/
def turn (style : Style) (s : State) (c : Byte) : State × List Action :=
  if c = char '\r' ∨ c = char '\n' then
    let command := update s.command s.index 0
    (⟨command, 0⟩, [.prints (literalText "\n"), .runs command, .prints style.prompt])
  else if style.erases c then
    if 0 < s.index then
      ({ s with index := s.index - 1 }, [.prints [backspace, char ' ', backspace]])
    else (s, [.prints style.bell])
  else if s.index < style.size - 1 then
    (⟨update s.command s.index c, s.index + 1⟩, [.prints [c]])
  else (s, [])

/-- The loop of `main` on a hart, with the prompt `"~%d~> "`. -/
def mainStyle (hart : Fin 8) : Style where
  size := commandSize
  erases := fun c => c = backspace ∨ c = delete
  mark := char '~' :: digitChar (hart.castLE (by decide)) :: literalText "~> "
  freshRow := false
  bell := []
  size_pos := by decide
  mark_printable := by
    revert hart
    decide
  bell_silent := silent_nil

/-- The prompt is what `printf` prints for its format. -/
example (hart : Fin 8) :
    Printf.formatted (fun _ => []) (literalText "~%d~> ") [BitVec.ofNat 64 hart] =
      some ([], (mainStyle hart).mark) := by
  decide +revert

/-- The commands that were run. -/
def ran (trace : List Action) : List (Nat → Byte) :=
  trace.filterMap fun
    | .prints _ => none
    | .runs command => some command

/-! ## The line -/

/-- The key that a character is. -/
def key (style : Style) (c : Byte) : Key Byte :=
  if c = char '\r' ∨ c = char '\n' then .enter else if style.erases c then .erase else .type c

/-- The lines of the characters. -/
def lines (style : Style) (taken : List Byte) : Editor Byte :=
  edit (style.size - 1) (taken.map (key style))

/-- The console holds the line. -/
structure Holds (s : State) (text : List Byte) : Prop where
  index : s.index = text.length
  get : ∀ (k : Nat) (h : k < text.length), s.command k = text[k]

/-- The command is the line up to the first zero byte that was typed. -/
def IsLine (style : Style) (command : Nat → Byte) (line : List Byte) : Prop :=
  line.length < style.size ∧ Spells command (line.takeWhile (· ≠ 0))

variable {style : Style} {s : State} {line taken : List Byte} {c : Byte} {trace : List Action}

theorem lines_snoc :
    lines style (taken ++ [c]) = (lines style taken).press (style.size - 1) (key style c) := by
  rw [lines, List.map_append]
  exact edit_snoc

theorem ran_append (trace trace' : List Action) : ran (trace ++ trace') = ran trace ++ ran trace' :=
  List.filterMap_append

theorem Holds.isLine (h : Holds s line) (hLength : line.length ≤ style.size - 1) :
    IsLine style (update s.command s.index 0) line := by
  have hPos := style.size_pos
  refine ⟨by omega, Spells.takeWhile (fun k hk => ?_) ?_⟩
  · rw [h.index, update_of_ne (by omega)]
    exact h.get k hk
  · rw [h.index, update_self]

theorem Holds.erase (h : Holds s line) : Holds { s with index := s.index - 1 } line.dropLast := by
  refine ⟨?_, fun k hk => ?_⟩
  · change s.index - 1 = _
    rw [h.index, List.length_dropLast]
  · rw [List.length_dropLast] at hk
    rw [List.getElem_dropLast]
    exact h.get k (by omega)

theorem Holds.type (h : Holds s line) (c : Byte) :
    Holds ⟨update s.command s.index c, s.index + 1⟩ (line ++ [c]) := by
  refine ⟨?_, fun k hk => ?_⟩
  · change s.index + 1 = _
    rw [h.index, List.length_append, List.length_singleton]
  · change update s.command s.index c k = _
    rw [List.length_append, List.length_singleton] at hk
    rw [h.index]
    by_cases hLast : k = line.length
    · subst hLast
      rw [update_self, List.getElem_concat_length rfl]
    · rw [update_of_ne hLast, List.getElem_append_left (by omega)]
      exact h.get k (by omega)

/-- A turn does what its key does to the line, and runs a line that is entered. -/
theorem Holds.turn {e : Editor Byte} (h : Holds s e.line) (hLength : e.line.length ≤ style.size - 1) :
    Holds (turn style s c).1 (e.press (style.size - 1) (key style c)).line ∧
      ∃ entered, (e.press (style.size - 1) (key style c)).entered = e.entered ++ entered ∧
        List.Forall₂ (IsLine style) (ran (turn style s c).2) entered := by
  unfold Console.turn key
  split
  next => exact ⟨⟨rfl, fun k hk => absurd hk (by simp [Editor.press])⟩, [e.line], rfl,
    .cons (h.isLine hLength) .nil⟩
  next =>
    split
    next =>
      split
      next => exact ⟨h.erase, [], (List.append_nil _).symm, .nil⟩
      next hNone =>
        have hNil : e.line = [] := by
          rw [h.index] at hNone
          exact List.length_eq_zero_iff.mp (by omega)
        refine ⟨?_, [], (List.append_nil _).symm, .nil⟩
        change Holds s e.line.dropLast
        rw [hNil, List.dropLast_nil, ← hNil]
        exact h
    next =>
      have hSame : s.index < style.size - 1 ↔ e.line.length < style.size - 1 := by rw [h.index]
      by_cases hRoom : s.index < style.size - 1
      · rw [if_pos hRoom, Editor.press, if_pos (hSame.mp hRoom)]
        exact ⟨h.type c, [], (List.append_nil _).symm, .nil⟩
      · rw [if_neg hRoom, Editor.press, if_neg (mt hSame.mpr hRoom)]
        exact ⟨h, [], (List.append_nil _).symm, .nil⟩

/-! ## The terminal -/

/-- What a terminal does with a character that a console prints. -/
def put (r : Row Byte) (c : Byte) : Row Byte :=
  if c = backspace then r.back
  else if c = char '\n' then ⟨[], 0⟩
  else if c = alarm then r
  else r.write c

/-- Nothing stands behind the cursor. -/
def AtEnd (r : Row Byte) : Prop :=
  r.column = r.cells.length

/-- The rows behind an action; a command leaves the cursor at the end of some
row. -/
def after (rows : Row Byte → Prop) : Action → Row Byte → Prop
  | .prints text => fun r => ∃ before, rows before ∧ text.foldl put before = r
  | .runs _ => AtEnd

/-- The terminal can be in the row behind the actions. -/
def Displays (trace : List Action) : Row Byte → Prop :=
  trace.foldl after AtEnd

/-- The row ends with the prompt and the line. -/
def Shown (style : Style) (line : List Byte) (r : Row Byte) : Prop :=
  ∃ left, r.Shows (char ' ') (left ++ style.mark ++ line)

variable {r : Row Byte} {text : List Byte}

theorem displays_snoc {action : Action} :
    Displays (trace ++ [action]) = after (Displays trace) action := by
  rw [Displays, List.foldl_append]
  rfl

theorem put_printable (h : Printable c) : put r c = r.write c := by
  obtain ⟨hFrom, -⟩ := h
  have hBackspace : c ≠ backspace := by
    rintro rfl
    revert hFrom
    decide
  have hNewline : c ≠ char '\n' := by
    rintro rfl
    revert hFrom
    decide
  have hAlarm : c ≠ alarm := by
    rintro rfl
    revert hFrom
    decide
  rw [put, if_neg hBackspace, if_neg hNewline, if_neg hAlarm]

theorem foldl_put_printable (h : ∀ c ∈ text, Printable c) : text.foldl put r = text.foldl Row.write r := by
  induction text generalizing r with
  | nil => rfl
  | cons c text ih =>
      rw [List.foldl_cons, List.foldl_cons, put_printable (h c List.mem_cons_self)]
      exact ih fun c hMem => h c (List.mem_cons_of_mem _ hMem)

theorem foldl_put_bell (h : ∀ c ∈ text, c = alarm) : text.foldl put r = r := by
  induction text generalizing r with
  | nil => rfl
  | cons c text ih =>
      rw [List.foldl_cons, h c List.mem_cons_self]
      exact ih fun c hMem => h c (List.mem_cons_of_mem _ hMem)

theorem AtEnd.shows (h : AtEnd r) : r.Shows (char ' ') r.cells :=
  ⟨h, 0, (List.append_nil _).symm⟩

/-- A prompt comes behind what is on the row. -/
theorem AtEnd.mark (h : AtEnd r) : Shown style [] (style.mark.foldl put r) := by
  refine ⟨r.cells, ?_⟩
  rw [foldl_put_printable style.mark_printable, List.append_nil]
  exact h.shows.writeAll

theorem AtEnd.prompt (h : AtEnd r) : Shown style [] (style.prompt.foldl put r) := by
  rw [Style.prompt, List.foldl_append]
  split
  · exact AtEnd.mark rfl
  · exact h.mark

theorem Shown.erase (h : Shown style (line ++ [c]) r) :
    Shown style line ([backspace, char ' ', backspace].foldl put r) := by
  obtain ⟨left, hShows⟩ := h
  rw [← List.append_assoc] at hShows
  exact ⟨left, hShows.erase⟩

theorem Shown.type (h : Shown style line r) (hPrintable : Printable c) :
    Shown style (line ++ [c]) (put r c) := by
  obtain ⟨left, hShows⟩ := h
  refine ⟨left, ?_⟩
  rw [put_printable hPrintable, ← List.append_assoc]
  exact hShows.write

/-- A turn keeps the prompt and the line on the terminal. -/
theorem shown_turn {e : Editor Byte} (h : Holds s e.line)
    (hShown : ∀ r, Displays trace r → Shown style e.line r)
    (hPrintable : key style c = .type c → Printable c) :
    ∀ r, Displays (trace ++ (turn style s c).2) r →
      Shown style (e.press (style.size - 1) (key style c)).line r := by
  intro r
  unfold turn key
  unfold key at hPrintable
  split
  next =>
    rw [List.append_cons, List.append_cons, displays_snoc, displays_snoc]
    rintro ⟨before, hEnd, rfl⟩
    exact AtEnd.prompt hEnd
  next hOther =>
    rw [if_neg hOther] at hPrintable
    split
    next =>
      split
      next hSome =>
        rw [displays_snoc]
        rintro ⟨before, hBefore, rfl⟩
        have hLine : e.line ≠ [] := by
          rw [h.index] at hSome
          exact List.ne_nil_of_length_pos hSome
        refine Shown.erase (c := e.line.getLast hLine) ?_
        change Shown style (e.line.dropLast ++ _) before
        rw [List.dropLast_append_getLast hLine]
        exact hShown before hBefore
      next hNone =>
        have hNil : e.line = [] := by
          rw [h.index] at hNone
          exact List.length_eq_zero_iff.mp (by omega)
        rw [displays_snoc]
        rintro ⟨before, hBefore, rfl⟩
        rw [foldl_put_bell style.bell_silent]
        change Shown style e.line.dropLast before
        rw [hNil, List.dropLast_nil, ← hNil]
        exact hShown before hBefore
    next hTyped =>
      rw [if_neg hTyped] at hPrintable
      have hSame : s.index < style.size - 1 ↔ e.line.length < style.size - 1 := by rw [h.index]
      by_cases hRoom : s.index < style.size - 1
      · rw [if_pos hRoom, Editor.press, if_pos (hSame.mp hRoom), displays_snoc]
        rintro ⟨before, hBefore, rfl⟩
        exact (hShown before hBefore).type (hPrintable rfl)
      · rw [if_neg hRoom, Editor.press, if_neg (mt hSame.mpr hRoom), List.append_nil]
        exact hShown r

/-! ## The command -/

/-- A scan over a string that stops at its end comes to an end. -/
theorem scan_ends {stop : Nat → Prop} [DecidablePred stop] {k fuel : Nat} (hStop : stop k)
    (hFuel : k < fuel) : ∃ j ≤ k, scan stop fuel 0 = some j := by
  classical
  have hExists : ∃ k, stop k := ⟨k, hStop⟩
  have hLe : Nat.find hExists ≤ k := Nat.find_min' hExists hStop
  exact ⟨Nat.find hExists, hLe, scan_eq_some_iff.mpr
    ⟨Nat.zero_le _, by omega, Nat.find_spec hExists, fun j _ hj => Nat.find_min hExists hj⟩⟩

variable {command : Nat → Byte} {status : BitVec 32 → BitVec 32} {testHart : Word}

theorem atoi_ends {st : Nat → Byte} {k fuel : Nat} (hZero : st k = 0) (hFuel : k < fuel) :
    ∃ value, atoi fuel st = some value := by
  have hNoDigit : ¬ isDigit 0 := by decide
  have hMinus : char '-' ≠ 0 := by decide
  rw [atoi]
  by_cases hNegative : st 0 = char '-'
  · have hPos : k ≠ 0 := by
      rintro rfl
      exact hMinus (hNegative.symm.trans hZero)
    have hStop : ¬ isDigit (st (k - 1 + 1)) := by
      rw [Nat.sub_add_cancel (by omega), hZero]
      exact hNoDigit
    obtain ⟨j, -, hScan⟩ :=
      @scan_ends (fun l => ¬ isDigit (st (l + 1))) _ (k - 1) fuel hStop (by omega)
    simp only [hNegative, ↓reduceIte, hScan, Option.map_some]
    exact ⟨_, rfl⟩
  · obtain ⟨j, -, hScan⟩ :=
      @scan_ends (fun l => ¬ isDigit (st l)) _ k fuel (by rw [hZero]; exact hNoDigit) hFuel
    simp only [hNegative, ↓reduceIte, hScan, Option.map_some]
    exact ⟨_, rfl⟩

/-- No loop of `run_command` goes on behind the end of the command. -/
theorem runCommand_ends {k : Nat} (hZero : command k = 0) (hSize : k < commandSize) :
    ∃ actions, runCommand status testHart command = some actions := by
  have hCompare (r : Nat → Byte) : ∃ c, strcmp commandSize command r = some c := by
    obtain ⟨j, -, hScan⟩ :=
      @scan_ends (fun j => command j = 0 ∨ command j ≠ r j) _ k commandSize (.inl hZero) hSize
    exact ⟨_, by rw [strcmp, hScan, Option.map_some]⟩
  obtain ⟨help, hHelp⟩ := hCompare (literal "help")
  obtain ⟨stat, hStat⟩ := hCompare (literal "stat")
  simp only [runCommand, hHelp, hStat, Option.bind_eq_bind, Option.bind_some]
  split
  · exact ⟨_, rfl⟩
  · split
    · exact ⟨_, rfl⟩
    · split
      · obtain ⟨j, hLe, hScan⟩ :=
          @scan_ends (fun i => command i = char ' ' ∨ command i = 0) _ k commandSize (.inr hZero) hSize
        have hFind : strfindchr commandSize command (char ' ') =
            some (if command j = char ' ' then (j : Int) else -1) := by
          rw [strfindchr, hScan, Option.map_some]
        simp only [hFind, Option.bind_some]
        by_cases hSpace : command j = char ' '
        · have hNe : j ≠ k := by
            rintro rfl
            exact absurd (hSpace.symm.trans hZero) (by decide)
          have hEnd : command (((j : Int) + 1).toNat + (k - (j + 1))) = 0 := by
            rw [show ((j : Int) + 1).toNat + (k - (j + 1)) = k by omega]
            exact hZero
          obtain ⟨value, hValue⟩ := @atoi_ends (fun i => command (((j : Int) + 1).toNat + i))
            (k - (j + 1)) commandSize hEnd (by omega)
          rw [if_pos hSpace, if_neg (by omega), hValue]
          exact ⟨_, rfl⟩
        · rw [if_neg hSpace, if_pos rfl]
          exact ⟨_, rfl⟩
      · split
        · exact ⟨_, rfl⟩
        · exact ⟨_, rfl⟩

end Kernel.Console
