import RiscvOs.Kernel.Console

/-! `user/console.c`, whose loop also reads escape sequences. It takes two more
characters behind an escape, whether they have come yet or not. -/
namespace User.Console

open Semantics Kernel Kernel.Console

def escape : Byte := 0x1b

/-- The loop of `main`, with the prompt `"~> "`. -/
def style : Style where
  size := 256
  erases := fun c => c = backspace ∨ c = delete
  mark := literalText "~> "
  freshRow := false
  bell := []
  size_pos := by decide
  mark_printable := by decide
  bell_silent := silent_nil

/-- The call of `getchar` that the loop is at. -/
inductive Place where
  | first
  | second
  | third (esc1 : Byte)

/-- The loop, with the actions so far as a record. -/
structure Loop where
  console : State
  place : Place
  trace : List Action

/-- What an escape sequence prints. -/
def arrow (esc1 esc2 : Byte) : List Action :=
  if esc1 = 0x5b then
    if esc2 = 0x41 then [.prints (literalText "UP\n")]
    else if esc2 = 0x42 then [.prints (literalText "DOWN\n")]
    else if esc2 = 0x43 then [.prints (literalText "RIGHT\n")]
    else if esc2 = 0x44 then [.prints (literalText "LEFT\n")]
    else []
  else []

/-- The loop goes on with what `getchar` returns; at 255 it sleeps. -/
def Loop.next (s : Loop) (c : Byte) : Loop :=
  match s.place with
  | .first =>
      if c = escape then { s with place := .second }
      else if c = 255 then s
      else
        let r := turn style s.console c
        { s with console := r.1, trace := s.trace ++ r.2 }
  | .second => { s with place := .third c }
  | .third esc1 => { s with place := .first, trace := s.trace ++ arrow esc1 c }

def start (command : Nat → Byte) : Loop where
  console := ⟨command, 0⟩
  place := .first
  trace := [.prints style.mark]

/-- The characters among the results of `getchar` that are typed. -/
def typed : List Byte → List Byte
  | [] => []
  | c :: rest =>
      if c = escape then
        match rest with
        | _ :: _ :: rest => typed rest
        | _ => []
      else if c = 255 then typed rest
      else c :: typed rest

variable {s : Loop} {c : Byte} {results taken : List Byte}

/-- The loop holds the line that the characters come to. -/
structure Follows (s : Loop) (taken : List Byte) : Prop where
  line : Kernel.Console.Holds s.console (lines style taken).line
  commands : List.Forall₂ (IsLine style) (ran s.trace) (lines style taken).entered

theorem ran_arrow (esc1 esc2 : Byte) : ran (arrow esc1 esc2) = [] := by
  unfold arrow
  split_ifs <;> rfl

/-- A character that is typed. -/
theorem Follows.type (h : Follows s taken) (hPlace : s.place = .first) (hEscape : c ≠ escape)
    (hNone : c ≠ 255) : Follows (s.next c) (taken ++ [c]) ∧ (s.next c).place = .first := by
  have hNext : s.next c = { s with
      console := (turn style s.console c).1, trace := s.trace ++ (turn style s.console c).2 } := by
    rw [Loop.next, hPlace]
    simp only [if_neg hEscape, if_neg hNone]
  obtain ⟨hLine, entered, hEntered, hRan⟩ := h.line.turn (c := c) edit_length_le.1
  rw [← lines_snoc] at hLine hEntered
  rw [hNext]
  refine ⟨⟨hLine, ?_⟩, hPlace⟩
  change List.Forall₂ (IsLine style) (ran (s.trace ++ _)) _
  rw [ran_append, hEntered]
  exact List.rel_append h.commands hRan

/-- An escape and the two results behind it type nothing. -/
theorem Follows.sequence (h : Follows s taken) (hPlace : s.place = .first) (esc1 esc2 : Byte) :
    Follows (((s.next escape).next esc1).next esc2) taken ∧
      (((s.next escape).next esc1).next esc2).place = .first := by
  have hNext : ((s.next escape).next esc1).next esc2 =
      { s with place := .first, trace := s.trace ++ arrow esc1 esc2 } := by
    rw [Loop.next.eq_def s, hPlace]
    rfl
  rw [hNext]
  refine ⟨⟨h.line, ?_⟩, rfl⟩
  change List.Forall₂ (IsLine style) (ran (s.trace ++ _)) _
  rw [ran_append, ran_arrow, List.append_nil]
  exact h.commands

/-- Whatever `getchar` returns, the commands are the lines of what is typed. -/
theorem follows_typed (h : Follows s taken) (hPlace : s.place = .first) :
    Follows (results.foldl Loop.next s) (taken ++ typed results) := by
  induction results using typed.induct generalizing s taken with
  | case1 => simpa [typed] using h
  | case2 esc1 esc2 rest ih =>
      obtain ⟨hNext, hBack⟩ := h.sequence hPlace esc1 esc2
      exact ih hNext hBack
  | case3 rest hShort =>
      have hNone : typed (escape :: rest) = [] := by
        cases rest with
        | nil => rfl
        | cons esc1 rest =>
            cases rest with
            | nil => rfl
            | cons esc2 rest => exact absurd rfl (hShort esc1 esc2 rest)
      have hEscape : s.next escape = { s with place := .second } := by
        rw [Loop.next, hPlace]
        rfl
      rw [hNone, List.append_nil, List.foldl_cons, hEscape]
      cases rest with
      | nil => exact ⟨h.line, h.commands⟩
      | cons esc1 rest =>
          cases rest with
          | nil => exact ⟨h.line, h.commands⟩
          | cons esc2 rest => exact absurd rfl (hShort esc1 esc2 rest)
  | case4 rest hEscape ih =>
      have hSleep : s.next 255 = s := by
        rw [Loop.next, hPlace]
        simp only [if_neg hEscape, ↓reduceIte]
      have hTyped : typed (255 :: rest) = typed rest := by
        rw [typed.eq_def]
        simp only [if_neg hEscape, ↓reduceIte]
      rw [List.foldl_cons, hSleep, hTyped]
      exact ih h hPlace
  | case5 c rest hEscape hNone ih =>
      obtain ⟨hNext, hSame⟩ := h.type hPlace hEscape hNone
      have hTyped : typed (c :: rest) = c :: typed rest := by
        rw [typed.eq_def]
        simp only [if_neg hEscape, if_neg hNone]
      have hRest := ih hNext hSame
      rw [List.foldl_cons, hTyped, List.append_cons]
      exact hRest

theorem follows_start (command : Nat → Byte) : Follows (start command) [] :=
  ⟨⟨rfl, fun k hk => absurd hk (Nat.not_lt_zero k)⟩, .nil⟩

/-- Whatever `getchar` returns, and whatever `command` holds at first, the commands
are the lines of the characters that are left without the escape sequences. -/
theorem commands_exact (command : Nat → Byte) (results : List Byte) :
    List.Forall₂ (IsLine style) (ran (results.foldl Loop.next (start command)).trace)
      (lines style (typed results)).entered :=
  (follows_typed (follows_start command) rfl).commands

/-- An escape sequence whose rest has not come yet is typed. -/
example : typed [escape, 255, 255, char '[', char 'A'] = [char '[', char 'A'] ∧
    typed [escape, char '[', char 'A'] = [] := by
  decide

end User.Console
