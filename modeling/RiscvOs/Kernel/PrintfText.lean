import RiscvOs.Kernel.Printf

/-! The text that a format stands for. Whatever the output of a character does,
`_vsnprintf` outputs this text; so `printf` and `snprintf` agree. -/
namespace Kernel.Printf

open Semantics Function

variable {σ : Type} {out : Out σ} {strings : Word → List Byte} {p : Nat × σ} {c : Byte}
  {text text' buf format format' : List Byte} {args : List Word} {flags : Flags} {width n : Nat}

/-! ## Texts -/

/-- The output of a character that collects the text. -/
def collect : Out (List Byte) :=
  fun c _ text => text ++ [c]

/-- The text of a format, and the arguments that it leaves. -/
def formatted (strings : Word → List Byte) (format : List Byte) (args : List Word) :
    Option (List Word × List Byte) :=
  (formatLoop collect strings (format.length + 1) format args (0, [])).map fun r => (r.1, r.2.2)

/-- What prints a text, whatever the output is. -/
def Prints (f : ∀ σ : Type, Out σ → Nat × σ → Nat × σ) (text : List Byte) : Prop :=
  ∀ (σ : Type) (out : Out σ) (p : Nat × σ), f σ out p = putAll out text p

theorem putAll_append : putAll out (text ++ text') p = putAll out text' (putAll out text p) :=
  List.foldl_append ..

theorem putAll_fst : (putAll out text p).1 = p.1 + text.length := by
  induction text generalizing p with
  | nil => rfl
  | cons c text ih =>
      change (putAll out text (put out c p)).1 = _
      rw [ih, put, List.length_cons]
      omega

theorem putAll_collect {before : List Byte} :
    putAll collect text (n, before) = (n + text.length, before ++ text) := by
  induction text generalizing n before with
  | nil =>
      rw [List.append_nil]
      rfl
  | cons c text ih =>
      change putAll collect text (n + 1, before ++ [c]) = _
      rw [ih, List.length_cons, List.append_assoc, Nat.add_assoc, Nat.add_comm 1]
      rfl

theorem iterate_put : (put out c)^[n] p = putAll out (List.replicate n c) p := by
  induction n generalizing p with
  | zero => rfl
  | succ n ih =>
      rw [iterate_succ_apply, ih]
      rfl

theorem foldr_put : buf.foldr (put out) p = putAll out buf.reverse p := by
  rw [putAll, List.foldl_reverse]

/-- Blanks for what a text leaves of the width. -/
def blanks (width length : Nat) : List Byte :=
  List.replicate (width - length) (char ' ')

/-- The text of `_out_rev`. -/
def revText (buf : List Byte) (width : Nat) (flags : Flags) : List Byte :=
  (if !flags.left && !flags.zeropad then blanks width buf.length else []) ++ buf.reverse ++
    if flags.left then blanks width buf.length else []

theorem prints_outRev : Prints (fun _ out p => outRev out buf width flags p) (revText buf width flags) := by
  intro σ out p
  simp only [outRev, iterate_put, foldr_put, revText, putAll_append]
  cases hLeft : flags.left with
  | true =>
      have hLength : width - ((putAll out buf.reverse p).1 - p.1) = width - buf.length := by
        rw [putAll_fst, List.length_reverse]
        omega
      simp only [Bool.not_true, Bool.false_and, Bool.false_eq_true, ↓reduceIte, hLength]
      rfl
  | false =>
      cases hZero : flags.zeropad with
      | true => rfl
      | false => rfl

theorem prints_putCharacter : Prints (fun _ out p => putCharacter out c width flags p)
    ((if flags.left then [] else blanks width 1) ++ [c] ++ if flags.left then blanks width 1 else []) := by
  intro σ out p
  simp only [putCharacter, iterate_put, putAll_append]
  cases flags.left with
  | true => rfl
  | false => rfl

theorem exists_prints_putString {precision : Nat} :
    ∃ printed, Prints (fun _ out p => putString out text precision width flags p) printed := by
  let l := strnlen text (if precision ≠ 0 then precision else 2 ^ 64 - 1)
  let length := if flags.precision then min l precision else l
  let shown := if flags.precision then text.take precision else text
  refine ⟨(if flags.left then [] else blanks width length) ++ shown ++
    if flags.left then blanks width length else [], fun σ out p => ?_⟩
  simp only [putString, iterate_put, putAll_append]
  cases flags.left with
  | true => rfl
  | false => rfl

/-- A conversion prints a text. -/
theorem exists_prints_putArg (spec : Byte) (d : Directive) (arg : Word) :
    ∃ printed, Prints (fun _ out p => putArg out strings spec d arg p) printed := by
  unfold putArg
  cases baseOf spec with
  | some base => exact ⟨_, fun σ out p => prints_outRev σ out p⟩
  | none =>
      dsimp only
      split
      · exact ⟨_, prints_putCharacter⟩
      · split
        · exact exists_prints_putString
        · exact ⟨_, fun σ out p => prints_outRev σ out p⟩

/-! ## All outputs agree -/

/-- A turn outputs the text that it collects. -/
theorem turn_eq (p : Nat × σ) :
    turn out strings c format args p =
      (turn collect strings c format args (0, [])).map fun r => (r.1, r.2.1, putAll out r.2.2.2 p) := by
  unfold turn
  split
  · rfl
  · cases parse format args with
    | none => rfl
    | some d =>
        simp only [Option.bind_eq_bind, Option.bind_some]
        cases d.format with
        | nil => rfl
        | cons spec rest =>
            dsimp only
            split
            · rfl
            · split
              · cases d.args with
                | nil => rfl
                | cons arg args =>
                    obtain ⟨printed, hPrints⟩ := @exists_prints_putArg strings spec d arg
                    simp only [hPrints σ out, hPrints _ collect, putAll_collect, Option.map_some,
                      List.nil_append]
              · rfl

theorem formatLoop_cons {fuel : Nat} :
    formatLoop out strings (fuel + 1) (c :: format) args p =
      (turn out strings c format args p).bind fun r =>
        formatLoop out strings fuel r.1 r.2.1 r.2.2 :=
  rfl

/-- The loop outputs the text that it collects. -/
theorem formatLoop_eq (fuel : Nat) (p : Nat × σ) :
    formatLoop out strings fuel format args p =
      (formatLoop collect strings fuel format args (0, [])).map fun r =>
        (r.1, putAll out r.2.2 p) := by
  induction fuel generalizing σ format args with
  | zero => rfl
  | succ fuel ih =>
      cases format with
      | nil => rfl
      | cons c format =>
          rw [formatLoop_cons, formatLoop_cons, turn_eq p]
          cases hTurn : turn collect strings c format args (0, []) with
          | none => rfl
          | some r =>
              obtain ⟨rest, left, n, printed⟩ := r
              simp only [Option.map_some, Option.bind_some]
              rw [ih (putAll out printed p), @ih _ collect _ _ (n, printed), Option.map_map]
              refine congrArg (Option.map · _) (funext fun r => ?_)
              rw [comp_apply, putAll_collect]
              exact congrArg _ putAll_append.symm

/-! ## Formats behind each other -/

/-- What is read keeps its meaning when something comes behind the format. -/
def Extends (f : Directive → Option Directive) : Prop :=
  ∀ d d' rest, f d = some d' →
    d'.format.length ≤ d.format.length ∧
      (d'.format ≠ [] → f { d with format := d.format ++ rest } =
        some { d' with format := d'.format ++ rest })

theorem Extends.bind {f g : Directive → Option Directive} (hf : Extends f) (hg : Extends g) :
    Extends fun d => (f d).bind g := by
  intro d d' rest h
  obtain ⟨e, hFirst, hSecond⟩ := Option.bind_eq_some_iff.mp h
  obtain ⟨hLeF, hSameF⟩ := hf d e rest hFirst
  obtain ⟨hLeG, hSameG⟩ := hg e d' rest hSecond
  refine ⟨hLeG.trans hLeF, fun hNonempty => ?_⟩
  have hMiddle : e.format ≠ [] := fun hNil => by
    rw [hNil] at hLeG
    exact hNonempty (List.length_eq_zero_iff.mp (Nat.le_zero.mp hLeG))
  change (f { d with format := d.format ++ rest }).bind g = _
  rw [hSameF hMiddle, Option.bind_some, hSameG hNonempty]

theorem parseFlags_extends (flags : Flags) (format rest : List Byte) :
    (parseFlags flags format).2.length ≤ format.length ∧
      ((parseFlags flags format).2 ≠ [] → parseFlags flags (format ++ rest) =
        ((parseFlags flags format).1, (parseFlags flags format).2 ++ rest)) := by
  induction format generalizing flags with
  | nil => exact ⟨le_refl _, fun h => absurd rfl h⟩
  | cons c format ih =>
      rw [List.cons_append, parseFlags, parseFlags]
      have hStep (flags : Flags) := (ih flags).imp (fun hLe => Nat.le_succ_of_le hLe) id
      split_ifs
      · exact hStep _
      · exact hStep _
      · exact hStep _
      · exact hStep _
      · exact hStep _
      · exact ⟨le_refl _, fun _ => rfl⟩

theorem atoiFormat_extends (i : BitVec 32) (format rest : List Byte) :
    (atoiFormat i format).2.length ≤ format.length ∧
      ((atoiFormat i format).2 ≠ [] → atoiFormat i (format ++ rest) =
        ((atoiFormat i format).1, (atoiFormat i format).2 ++ rest)) := by
  induction format generalizing i with
  | nil => exact ⟨le_refl _, fun h => absurd rfl h⟩
  | cons c format ih =>
      rw [List.cons_append, atoiFormat, atoiFormat]
      split
      · exact (ih _).imp (fun hLe => Nat.le_succ_of_le hLe) id
      · exact ⟨le_refl _, fun _ => rfl⟩

theorem parseWidth_extends : Extends parseWidth := by
  rintro ⟨flags, width, precision, format, args⟩ d' rest h
  cases format with
  | nil =>
      have hSame : d' = ⟨flags, width, precision, [], args⟩ := (Option.some.inj h).symm
      rw [hSame]
      exact ⟨le_refl _, fun hNonempty => absurd rfl hNonempty⟩
  | cons c format =>
      have hAtoi := atoiFormat_extends 0 (c :: format) rest
      simp only [parseWidth, peek, List.headD_cons, List.tail_cons, List.cons_append] at h hAtoi ⊢
      by_cases hDigit : isDigit c
      · simp only [hDigit, ↓reduceIte, Option.some.injEq] at h ⊢
        subst h
        refine ⟨hAtoi.1, fun hNonempty => ?_⟩
        rw [hAtoi.2 hNonempty]
      · simp only [hDigit, ↓reduceIte] at h ⊢
        by_cases hStar : c = char '*'
        · simp only [hStar, ↓reduceIte] at h ⊢
          cases args with
          | nil => cases h
          | cons arg args =>
              by_cases hNegative : (arg.setWidth 32).toInt < 0
              · simp only [hNegative, ↓reduceIte] at h ⊢
                cases h
                exact ⟨Nat.le_succ _, fun _ => rfl⟩
              · simp only [hNegative, ↓reduceIte] at h ⊢
                cases h
                exact ⟨Nat.le_succ _, fun _ => rfl⟩
        · simp only [hStar, ↓reduceIte] at h ⊢
          cases h
          exact ⟨le_refl _, fun _ => rfl⟩

theorem parsePrecision_extends : Extends parsePrecision := by
  rintro ⟨flags, width, precision, format, args⟩ d' rest h
  cases format with
  | nil =>
      have hSame : d' = ⟨flags, width, precision, [], args⟩ := (Option.some.inj h).symm
      rw [hSame]
      exact ⟨le_refl _, fun hNonempty => absurd rfl hNonempty⟩
  | cons dot format =>
      simp only [parsePrecision, peek, List.headD_cons, List.tail_cons, List.cons_append] at h ⊢
      by_cases hDot : dot = char '.'
      · simp only [hDot, ↓reduceIte] at h ⊢
        cases format with
        | nil =>
            have hNone : ¬ isDigit 0 ∧ (0 : Byte) ≠ char '*' := by decide
            simp only [List.headD_nil, hNone.1, hNone.2, ↓reduceIte, Option.some.injEq] at h
            subst h
            exact ⟨Nat.zero_le _, fun hNonempty => absurd rfl hNonempty⟩
        | cons c format =>
            have hAtoi := atoiFormat_extends 0 (c :: format) rest
            simp only [List.headD_cons, List.tail_cons, List.cons_append] at h hAtoi ⊢
            by_cases hDigit : isDigit c
            · simp only [hDigit, ↓reduceIte, Option.some.injEq] at h ⊢
              subst h
              refine ⟨Nat.le_succ_of_le hAtoi.1, fun hNonempty => ?_⟩
              rw [hAtoi.2 hNonempty]
            · simp only [hDigit, ↓reduceIte] at h ⊢
              by_cases hStar : c = char '*'
              · simp only [hStar, ↓reduceIte] at h ⊢
                cases args with
                | nil => cases h
                | cons arg args =>
                    cases h
                    exact ⟨Nat.le_succ_of_le (Nat.le_succ _), fun _ => rfl⟩
              · simp only [hStar, ↓reduceIte] at h ⊢
                cases h
                exact ⟨Nat.le_succ _, fun _ => rfl⟩
      · simp only [hDot, ↓reduceIte] at h ⊢
        cases h
        exact ⟨le_refl _, fun _ => rfl⟩

/-- A character of the length field, and another one that may follow. -/
theorem lengthField_extends (flags : Flags) (second : Flags → Flags) (c : Byte) (width precision : Nat)
    (format : List Byte) (args : List Word) (rest : List Byte) (hc : c ≠ 0) :
    let read (format : List Byte) : Directive :=
      if peek format = c then ⟨second flags, width, precision, format.tail, args⟩
      else ⟨flags, width, precision, format, args⟩
    (read format).format.length ≤ format.length ∧ ((read format).format ≠ [] →
      read (format ++ rest) = { read format with format := (read format).format ++ rest }) := by
  cases format with
  | nil =>
      have hEnd : peek [] ≠ c := fun hSame => hc hSame.symm
      simp only [hEnd, ↓reduceIte]
      exact ⟨le_refl _, fun hNonempty => absurd rfl hNonempty⟩
  | cons c' format =>
      simp only [peek, List.headD_cons, List.cons_append, List.tail_cons]
      by_cases hSame : c' = c
      · simp only [hSame, ↓reduceIte]
        exact ⟨Nat.le_succ _, fun _ => trivial⟩
      · simp only [hSame, ↓reduceIte]
        exact ⟨le_refl _, fun _ => rfl⟩

theorem parseLength_extends : Extends fun d => some (parseLength d) := by
  rintro ⟨flags, width, precision, format, args⟩ d' rest h
  cases h
  cases format with
  | nil =>
      have hSame : parseLength ⟨flags, width, precision, [], args⟩ = ⟨flags, width, precision, [], args⟩ := rfl
      rw [hSame]
      exact ⟨le_refl _, fun hNonempty => absurd rfl hNonempty⟩
  | cons c format =>
      simp only [Option.some.injEq, parseLength]
      change _ ∧ (_ → (if c = _ then _ else if c = _ then _ else if c = _ ∨ c = _ ∨ c = _ then _ else _) = _)
      have hPeek : peek (c :: format) = c := rfl
      simp only [hPeek, List.tail_cons, List.cons_append]
      by_cases hLong : c = char 'l'
      · simp only [hLong, ↓reduceIte]
        have hSecond := lengthField_extends { flags with long := true }
          (fun flags => { flags with longLong := true }) (char 'l') width precision format args rest
          (by decide)
        exact hSecond.imp (fun hLe => Nat.le_succ_of_le hLe) id
      · simp only [hLong, ↓reduceIte]
        by_cases hShort : c = char 'h'
        · simp only [hShort, ↓reduceIte]
          have hSecond := lengthField_extends { flags with short := true }
            (fun flags => { flags with char := true }) (char 'h') width precision format args rest
            (by decide)
          exact hSecond.imp (fun hLe => Nat.le_succ_of_le hLe) id
        · simp only [hShort, ↓reduceIte]
          by_cases hOther : c = char 't' ∨ c = char 'j' ∨ c = char 'z'
          · simp only [hOther, ↓reduceIte]
            exact ⟨Nat.le_succ _, fun _ => trivial⟩
          · simp only [hOther, ↓reduceIte]
            exact ⟨le_refl _, fun _ => rfl⟩

/-- What is read between a `%` and the specifier, with a format behind it. -/
theorem parse_extends {d : Directive} (h : parse format args = some d) :
    d.format.length ≤ format.length ∧ ∀ rest, d.format ≠ [] →
      parse (format ++ rest) args = some { d with format := d.format ++ rest } := by
  have hAll : Extends fun d => (parseWidth d).bind fun d => (parsePrecision d).bind fun d =>
      some (parseLength d) :=
    parseWidth_extends.bind (parsePrecision_extends.bind parseLength_extends)
  have hFlags := parseFlags_extends noFlags format
  rw [parse] at h
  obtain ⟨hLe, -⟩ := hAll ⟨(parseFlags noFlags format).1, 0, 0, (parseFlags noFlags format).2, args⟩ d [] h
  refine ⟨hLe.trans (hFlags []).1, fun rest hNonempty => ?_⟩
  have hMiddle : (parseFlags noFlags format).2 ≠ [] := fun hNil => by
    rw [hNil] at hLe
    exact hNonempty (List.length_eq_zero_iff.mp (Nat.le_zero.mp hLe))
  obtain ⟨-, hSame⟩ :=
    hAll ⟨(parseFlags noFlags format).1, 0, 0, (parseFlags noFlags format).2, args⟩ d rest h
  rw [parse, (hFlags rest).2 hMiddle]
  exact hSame hNonempty

/-- A turn does not look behind its directive. -/
theorem turn_extends {r : List Byte × List Word × (Nat × σ)} (h : turn out strings c format args p = some r) :
    r.1.length ≤ format.length ∧
      ∀ rest, turn out strings c (format ++ rest) args p = some (r.1 ++ rest, r.2) := by
  unfold turn at h ⊢
  split at h
  next hPlain =>
    cases h
    exact ⟨le_refl _, fun rest => if_pos hPlain⟩
  next hPercent =>
    obtain ⟨d, hParse, hRest⟩ := Option.bind_eq_some_iff.mp h
    obtain ⟨hLe, hSame⟩ := parse_extends hParse
    cases hFormat : d.format with
    | nil =>
        rw [hFormat] at hRest
        cases hRest
    | cons spec behind =>
        rw [hFormat] at hRest hLe hSame
        have hLess : behind.length ≤ format.length := Nat.le_of_succ_le hLe
        refine ⟨?_, fun rest => ?_⟩
        · revert hRest
          dsimp only
          split_ifs
          · exact fun hRest => nomatch hRest
          · cases d.args with
            | nil => exact fun hRest => nomatch hRest
            | cons arg args =>
                rintro ⟨⟩
                exact hLess
          · rintro ⟨⟩
            exact hLess
        · rw [if_neg hPercent, hSame rest (List.cons_ne_nil _ _), Option.bind_eq_bind,
            Option.bind_some]
          revert hRest
          dsimp only [List.cons_append]
          split_ifs
          · exact fun hRest => nomatch hRest
          · cases d.args with
            | nil => exact fun hRest => nomatch hRest
            | cons arg args =>
                rintro ⟨⟩
                rfl
          · rintro ⟨⟩
            rfl

/-- Any fuel that lasts to the end of the format does. -/
theorem formatLoop_fuel {fuel fuel' : Nat} (h : format.length < fuel) (h' : format.length < fuel') :
    formatLoop out strings fuel format args p = formatLoop out strings fuel' format args p := by
  induction fuel generalizing fuel' format args p with
  | zero => omega
  | succ fuel ih =>
      cases fuel' with
      | zero => omega
      | succ fuel' =>
          cases format with
          | nil => rfl
          | cons c format =>
              rw [List.length_cons] at h h'
              rw [formatLoop_cons, formatLoop_cons]
              refine Option.bind_congr fun r hTurn => ?_
              have hLe := (turn_extends hTurn).1
              exact ih (by omega) (by omega)

theorem formatLoop_append {fuel : Nat} {r : List Word × (Nat × σ)} (hFuel : (format ++ format').length < fuel)
    (h : formatLoop out strings fuel format args p = some r) :
    formatLoop out strings fuel (format ++ format') args p =
      formatLoop out strings fuel format' r.1 r.2 := by
  induction fuel generalizing format args p with
  | zero => omega
  | succ fuel ih =>
      cases format with
      | nil =>
          cases h
          rfl
      | cons c format =>
          rw [List.cons_append, List.length_cons] at hFuel
          rw [formatLoop_cons] at h
          obtain ⟨next, hTurn, hRest⟩ := Option.bind_eq_some_iff.mp h
          obtain ⟨hLe, hSame⟩ := turn_extends hTurn
          rw [List.length_append] at hFuel
          have hLess : (next.1 ++ format').length < fuel := by
            rw [List.length_append]
            omega
          rw [List.cons_append, formatLoop_cons, hSame format', Option.bind_some, ih hLess hRest]
          rw [List.length_append] at hLess
          exact formatLoop_fuel (by omega) (by omega)

/-- A format that does not end within a directive can be printed before another one:
the texts come behind each other, and the second format goes on with the arguments. -/
theorem formatted_append {left : List Word} (h : formatted strings format args = some (left, text)) :
    formatted strings (format ++ format') args =
      (formatted strings format' left).map fun r => (r.1, text ++ r.2) := by
  obtain ⟨r, hLoop, hResult⟩ := Option.map_eq_some_iff.mp h
  cases hResult
  have hEnough : format.length < (format ++ format').length + 1 := by
    rw [List.length_append]
    omega
  rw [formatLoop_fuel (Nat.lt_succ_self _) hEnough] at hLoop
  rw [formatted, formatLoop_append (Nat.lt_succ_self _) hLoop, formatLoop_eq, formatted,
    @formatLoop_fuel _ _ _ _ _ _ _ (format'.length + 1) (by rw [List.length_append]; omega)
      (Nat.lt_succ_self _), Option.map_map, Option.map_map]
  refine congrArg (Option.map · _) (funext fun next => ?_)
  simp only [comp_apply]
  rw [show r.2 = (r.2.1, r.2.2) from rfl, putAll_collect]

/-- The format of the line for a hart, and that of its status behind it. -/
example :
    formatted (fun _ => []) (literalText "Hart %d: " ++ literalText "stopped\n") [3] =
      (formatted (fun _ => []) (literalText "stopped\n") []).map fun r =>
        (r.1, literalText "Hart 3: " ++ r.2) :=
  formatted_append (by decide)

end Kernel.Printf
