import RiscvOs.Kernel.Console
import RiscvOs.Sbi.Ctrap
import RiscvOs.Sbi.RingBuffRuns

/-! The way of a character from the UART to a command: the interrupt handler of
the SBI puts it in the ring, the loop of `main` takes it from there by a call, and
all other traps of all harts come in between. -/
namespace Kernel.Console

open Semantics Function Sbi.Svccall
open Sbi.Ctrap (Machine Trap)
open Sbi.RingBuff (Ring ringPut ringGet)

/-- The trap is a call of `GETCHAR`. -/
structure Polls (m : Machine) (trap : Trap) : Prop where
  sync : trap.isAsync = false
  cause : trap.cause = 9
  getchar : service (reg m.mem trap.mscratch xregA7) = .getchar

def Takes (m : Machine) : Sbi.Ctrap.Event → Prop
  | .trap _ trap => Polls m trap
  | _ => False

/-- The SBI and the loop of `main`; `trace` is what the loop has done. -/
structure System where
  machine : Machine
  console : State
  trace : List Action

/-- The turn for what `sbi_getchar` returns. -/
def System.take (style : Style) (c : Byte) (s : System) : System :=
  if c = 0xff then s
  else
    let r := turn style s.console c
    { s with console := r.1, trace := s.trace ++ r.2 }

/-- A poll comes with what it returns. -/
inductive Event where
  | machine (event : Sbi.Ctrap.Event)
  | poll (trap : Trap) (c : Byte)

/-- The loop of `main` on a hart polls, or something else happens to the machine.
Nothing else calls `GETCHAR`. -/
inductive Step (b : Sbi.Table.Tables) (park : Word) (style : Style) (hart : Sbi.Hart) :
    System → Event → System → Prop where
  | machine {s : System} {event : Sbi.Ctrap.Event} {m : Machine}
      (hStep : Sbi.Ctrap.Step b park s.machine event m) (hOther : ¬ Takes s.machine event) :
      Step b park style hart s (.machine event) { s with machine := m }
  | poll {s : System} {trap : Trap} {c : Byte} {m : Machine} (hPolls : Polls s.machine trap)
      (hStep : Sbi.Ctrap.Step b park s.machine (.trap hart trap) m)
      (hReturns : c = (reg m.mem trap.mscratch xregA0).setWidth 8) :
      Step b park style hart s (.poll trap c) ({ s with machine := m }.take style c)

def arrived : Sbi.Ctrap.Event → List Byte
  | .receive c => [c]
  | .tick _ => []
  | .trap _ _ => []

/-- The characters that the UART receives. -/
def arrivals (events : List Event) : List Byte :=
  events.flatMap fun
    | .machine event => arrived event
    | .poll _ _ => []

/-- The characters that the polls return. -/
def taken (events : List Event) : List Byte :=
  events.flatMap fun
    | .machine _ => []
    | .poll _ c => if c = 0xff then [] else [c]

/-- The loop starts with a prompt, when the given characters have come before. -/
structure Starts (style : Style) (early : List Byte) (s : System) : Prop where
  queue : ∃ queue, Sbi.RingBuff.Holds s.machine.ring queue ∧ early = queue ++ s.machine.received
  index : s.console.index = 0
  trace : s.trace = [.prints style.mark]

/-- An interrupt of the UART finds room for the characters that it moves. -/
def Fits (m : Machine) : Sbi.Ctrap.Event → Prop
  | .trap _ trap => trap.isAsync = true → trap.cause = 11 → trap.irq = 10 →
      m.ring.stop + (m.received.takeWhile (· ≠ 0xff)).length ≤ 10
  | _ => True

def FitsIn (s : System) : Event → Prop
  | .machine event => Fits s.machine event
  | .poll _ _ => True

/-- What the console has done with the characters that came, and with those that the
polls returned. -/
structure Served (b : Sbi.Table.Tables) (park : Word) (style : Style) (hart : Sbi.Hart)
    (arrivals taken : List Byte) (s : System) : Prop where
  /-- No character is made up, repeated or overtaken, and the next poll returns the
  first in the ring. -/
  inOrder : ∃ queue, Sbi.RingBuff.Holds s.machine.ring queue ∧
    (taken ++ queue ++ s.machine.received).Sublist arrivals ∧
    ∀ trap c t, Step b park style hart s (.poll trap c) t → c = queue.headD 0xff
  /-- An interrupt of the UART takes the characters up to a 0xff. -/
  interrupts : ∀ other trap m, trap.isAsync = true → trap.cause = 11 → trap.irq = 10 →
    Sbi.Ctrap.Step b park s.machine (.trap other trap) m →
    m.received = (s.machine.received.dropWhile (· ≠ 0xff)).tail
  /-- The commands that were run are the lines that were entered. -/
  commands : List.Forall₂ (IsLine style) (ran s.trace) (lines style taken).entered
  /-- The terminal shows the prompt and the line. -/
  shown : (∀ c ∈ taken, key style c = .type c → Printable c) →
    ∀ r, Displays s.trace r → Shown style (lines style taken).line r
  /-- `run_command` comes to an end. -/
  ends : ∀ command ∈ ran s.trace, ∀ status testHart,
    ∃ actions, Command.runCommand status testHart command = some actions

variable {b : Sbi.Table.Tables} {park : Word} {style : Style} {hart : Sbi.Hart} {m m' : Machine}
  {trap : Trap} {event : Sbi.Ctrap.Event} {s t : System} {events : List Event}
  {ring : Ring} {queue received early before typed : List Byte} {c : Byte}

/-! ## The ring -/

theorem ringPut_holds (h : Sbi.RingBuff.Holds ring queue) (c : Byte) :
    Sbi.RingBuff.Holds (ringPut ring c) (if queue.length < 10 then queue ++ [c] else queue) := by
  have hSame : ring.stop < Sbi.RingBuff.buffSize ↔ queue.length < 10 := by
    rw [h.stop]
    exact Int.ofNat_lt
  rw [ringPut]
  by_cases hRoom : queue.length < 10
  · rw [if_pos (hSame.mpr hRoom), if_pos hRoom]
    exact h.push hRoom c
  · rw [if_neg (mt hSame.mp hRoom), if_neg hRoom]
    exact h

theorem ringGet_nil (h : Sbi.RingBuff.Holds ring []) : ringGet ring = (0xff, ring) := by
  have hStop : ¬ ring.stop > 0 := by
    rw [h.stop]
    decide
  rw [ringGet, if_neg hStop]

theorem ringGet_cons (h : Sbi.RingBuff.Holds ring (c :: queue)) :
    (ringGet ring).1 = c ∧ Sbi.RingBuff.Holds (ringGet ring).2 queue := by
  have hStop : ring.stop > 0 := by
    rw [h.stop, List.length_cons]
    omega
  rw [ringGet, if_pos hStop]
  exact ⟨h.first.1, h.pop⟩

/-- An interrupt moves characters from the UART to the ring in order, and loses
only what the ring has no room for, and one 0xff. -/
theorem uartHandleIrq_holds (h : Sbi.RingBuff.Holds ring queue) :
    ∃ queue', Sbi.RingBuff.Holds (Sbi.Ctrap.uartHandleIrq received ring).2 queue' ∧
      (queue' ++ (Sbi.Ctrap.uartHandleIrq received ring).1).Sublist (queue ++ received) ∧
      (queue.length + (received.takeWhile (· ≠ 0xff)).length ≤ 10 →
        (queue' ++ (Sbi.Ctrap.uartHandleIrq received ring).1).filter (· ≠ 0xff) =
          (queue ++ received).filter (· ≠ 0xff)) := by
  induction received generalizing ring queue with
  | nil => exact ⟨queue, h, List.Sublist.refl _, fun _ => rfl⟩
  | cons c received ih =>
      rw [Sbi.Ctrap.uartHandleIrq]
      by_cases hEnd : c = 0xff
      · rw [if_neg (not_not.mpr hEnd)]
        refine ⟨queue, h, List.Sublist.append_left (List.sublist_cons_self ..) _, fun _ => ?_⟩
        rw [List.filter_append, List.filter_append, hEnd]
        rfl
      · rw [if_pos hEnd]
        obtain ⟨queue', hHolds, hSublist, hComplete⟩ := ih (ringPut_holds h c)
        refine ⟨queue', hHolds, hSublist.trans ?_, fun hFits => ?_⟩
        · split
          · rw [List.append_assoc]
            exact List.Sublist.refl _
          · exact List.Sublist.append_left (List.sublist_cons_self ..) _
        · rw [List.takeWhile_cons_of_pos (by simpa using hEnd), List.length_cons] at hFits
          have hRoom : queue.length < 10 := by omega
          rw [if_pos hRoom] at hComplete
          rw [hComplete (by rw [List.length_append, List.length_singleton]; omega),
            List.append_assoc]
          rfl

theorem uartHandleIrq_received :
    (Sbi.Ctrap.uartHandleIrq received ring).1 = (received.dropWhile (· ≠ 0xff)).tail := by
  induction received generalizing ring with
  | nil => rfl
  | cons c received ih =>
      rw [Sbi.Ctrap.uartHandleIrq]
      by_cases hEnd : c = 0xff
      · rw [if_neg (not_not.mpr hEnd), List.dropWhile_cons_of_neg (by simpa using hEnd)]
        rfl
      · rw [if_pos hEnd, List.dropWhile_cons_of_pos (by simpa using hEnd), ih]

/-! ## One step of the machine -/

/-- A call of `GETCHAR` returns the first character of the ring, or 0xff. -/
theorem poll_effect (hPolls : Polls m trap)
    (hStep : Sbi.Ctrap.Step b park m (.trap hart trap) m') :
    m'.received = m.received ∧ m'.ring = (ringGet m.ring).2 ∧
      (reg m'.mem trap.mscratch xregA0).setWidth 8 = (ringGet m.ring).1 := by
  obtain ⟨hSync, hCause, hService⟩ := hPolls
  cases hStep with
  | trap hTime hPending =>
      have hCall : service (reg (m.on hart).table.mem trap.mscratch xregA7) = .getchar := hService
      have hChar : Sbi.Ctrap.getChar trap (m.on hart) = ringGet m.ring := by
        rw [Sbi.Ctrap.getChar, hCall]
        rfl
      have hHandler : Sbi.Ctrap.cTrapHandler b park hart trap (m.on hart) =
          (.returned, { m.on hart with
            table := { (setReg trap.mscratch xregA0 ((ringGet m.ring).1.setWidth 64)
              (m.on hart).toState).table with csr.mepc := trap.mepc + 4 }
            ring := (ringGet m.ring).2 }) := by
        simp only [Sbi.Ctrap.cTrapHandler, hSync, hCause, hChar, svccallHandle, hCall]
        rfl
      rw [hHandler]
      refine ⟨rfl, rfl, ?_⟩
      change (reg ((m.on hart).table.mem.store64 (regAddr trap.mscratch xregA0) _)
        trap.mscratch xregA0).setWidth 8 = _
      rw [reg_setReg, BitVec.setWidth_setWidth_of_le _ (by decide), BitVec.setWidth_eq]

/-- What a poll returns is the first character of the ring. -/
theorem poll_returns (hStep : Step b park style hart s (.poll trap c) t)
    (h : Sbi.RingBuff.Holds s.machine.ring queue) : c = queue.headD 0xff := by
  cases hStep with
  | poll hPolls hStep hReturns =>
      rw [hReturns, (poll_effect hPolls hStep).2.2]
      cases queue with
      | nil => exact congrArg Prod.fst (ringGet_nil h)
      | cons first queue => exact (ringGet_cons h).1

/-- An interrupt of the UART empties it up to a 0xff. -/
theorem interrupt_received (hAsync : trap.isAsync = true) (hCause : trap.cause = 11)
    (hIrq : trap.irq = 10) (hStep : Sbi.Ctrap.Step b park m (.trap hart trap) m') :
    m'.received = (m.received.dropWhile (· ≠ 0xff)).tail := by
  cases hStep with
  | trap hTime hPending =>
      rw [← @uartHandleIrq_received m.ring]
      simp only [Sbi.Ctrap.cTrapHandler, hAsync, hCause, Sbi.Ctrap.plicHandleIrq, hIrq]
      rfl

/-- Any other trap leaves the characters, or is an interrupt of the UART. -/
theorem trap_input (hOther : ¬ Polls m trap) :
    let s := (Sbi.Ctrap.cTrapHandler b park hart trap (m.on hart)).2
    (s.received = m.received ∧ s.ring = m.ring) ∨
      (trap.isAsync = true ∧ trap.cause = 11 ∧ trap.irq = 10 ∧
        (s.received, s.ring) = Sbi.Ctrap.uartHandleIrq m.received m.ring) := by
  unfold Sbi.Ctrap.cTrapHandler
  cases hAsync : trap.isAsync with
  | true =>
      simp only [↓reduceIte]
      split
      · exact .inl ⟨rfl, rfl⟩
      · exact .inl ⟨rfl, rfl⟩
      next hCause =>
        by_cases hIrq : trap.irq = 10
        · refine .inr ⟨trivial, hCause, hIrq, ?_⟩
          simp only [Sbi.Ctrap.plicHandleIrq, if_pos hIrq]
          rfl
        · refine .inl ?_
          simp only [Sbi.Ctrap.plicHandleIrq, if_neg hIrq]
          exact ⟨rfl, rfl⟩
      · exact .inl ⟨rfl, rfl⟩
  | false =>
      simp only [Bool.false_eq_true, ↓reduceIte]
      split
      next hCause =>
        have hRing : (Sbi.Ctrap.getChar trap (m.on hart)).2 = m.ring := by
          unfold Sbi.Ctrap.getChar
          split
          next hService => exact absurd ⟨hAsync, hCause, hService⟩ hOther
          next => rfl
        refine .inl ?_
        split
        · exact ⟨rfl, hRing⟩
        · exact ⟨rfl, hRing⟩
      · exact .inl ⟨rfl, rfl⟩

theorem machine_effect (hStep : Sbi.Ctrap.Step b park m event m') (hOther : ¬ Takes m event)
    (h : Sbi.RingBuff.Holds m.ring queue) :
    ∃ queue', Sbi.RingBuff.Holds m'.ring queue' ∧
      (queue' ++ m'.received).Sublist (queue ++ m.received ++ arrived event) ∧
      (Fits m event → (queue' ++ m'.received).filter (· ≠ 0xff) =
        (queue ++ m.received ++ arrived event).filter (· ≠ 0xff)) := by
  cases hStep with
  | tick hLe hFinite =>
      refine ⟨queue, h, ?_, fun _ => ?_⟩
      · rw [arrived, List.append_nil]
      · rw [arrived, List.append_nil]
  | receive c =>
      refine ⟨queue, h, ?_, fun _ => ?_⟩
      · rw [arrived, List.append_assoc]
      · rw [arrived, List.append_assoc]
  | @trap hart trap hTime hPending =>
      have hInput := @trap_input b park hart m trap hOther
      generalize hLeft : (Sbi.Ctrap.cTrapHandler b park hart trap (m.on hart)).2 = left at hInput
      have hReceived : (m.back hart left).received = left.received := rfl
      have hRing : (m.back hart left).ring = left.ring := rfl
      rw [arrived, List.append_nil, hReceived, hRing]
      rcases hInput with ⟨hSameReceived, hSameRing⟩ | ⟨hAsync, hCause, hIrq, hBoth⟩
      · rw [hSameReceived, hSameRing]
        exact ⟨queue, h, List.Sublist.refl _, fun _ => rfl⟩
      · obtain ⟨queue', hHolds, hSublist, hComplete⟩ := @uartHandleIrq_holds _ _ m.received h
        rw [← hBoth] at hHolds hSublist hComplete
        refine ⟨queue', hHolds, hSublist, fun hFits => hComplete ?_⟩
        have hRoom : m.ring.stop + (m.received.takeWhile (· ≠ 0xff)).length ≤ 10 :=
          hFits hAsync hCause hIrq
        rw [h.stop] at hRoom
        omega

/-! ## Runs -/

theorem arrivals_snoc {event : Event} :
    arrivals (events ++ [event]) = arrivals events ++ arrivals [event] :=
  List.flatMap_append

theorem taken_snoc {event : Event} : taken (events ++ [event]) = taken events ++ taken [event] :=
  List.flatMap_append

theorem arrivals_machine : arrivals [.machine event] = arrived event :=
  List.append_nil _

theorem arrivals_poll : arrivals [.poll trap c] = [] :=
  rfl

theorem taken_machine : taken [.machine event] = [] :=
  rfl

theorem taken_poll : taken [.poll trap c] = if c = 0xff then [] else [c] :=
  List.append_nil _

/-- The console holds the line that the characters come to. -/
structure Inv (style : Style) (taken : List Byte) (s : System) : Prop where
  line : Holds s.console (lines style taken).line
  commands : List.Forall₂ (IsLine style) (ran s.trace) (lines style taken).entered
  shown : (∀ c ∈ taken, key style c = .type c → Printable c) →
    ∀ r, Displays s.trace r → Shown style (lines style taken).line r

theorem Starts.inv (h : Starts style early s) : Inv style [] s := by
  refine ⟨⟨h.index, fun k hk => absurd hk (Nat.not_lt_zero k)⟩, ?_, fun _ r => ?_⟩
  · rw [h.trace]
    exact .nil
  · rw [h.trace]
    rintro ⟨before, hEnd, rfl⟩
    exact AtEnd.mark hEnd

/-- A character that is taken does what its key does. -/
theorem Inv.take (h : Inv style typed s) :
    Inv style (typed ++ if c = 0xff then [] else [c]) (s.take style c) := by
  rw [System.take]
  split
  next =>
    rw [List.append_nil]
    exact h
  next =>
    have hLength : (lines style typed).line.length ≤ style.size - 1 := edit_length_le.1
    obtain ⟨hLine, entered, hEntered, hRan⟩ := h.line.turn (c := c) hLength
    rw [← lines_snoc] at hLine hEntered
    refine ⟨hLine, ?_, fun hPrintable => ?_⟩
    · change List.Forall₂ (IsLine style) (ran (s.trace ++ _)) _
      rw [ran_append, hEntered]
      exact List.rel_append h.commands hRan
    · have hBefore : ∀ c ∈ typed, key style c = .type c → Printable c :=
        fun c hMem => hPrintable c (List.mem_append_left _ hMem)
      have hLast : key style c = .type c → Printable c :=
        hPrintable c (List.mem_append_right _ List.mem_cons_self)
      have hShown := shown_turn h.line (h.shown hBefore) hLast
      rw [← lines_snoc] at hShown
      exact hShown

theorem Inv.step {event : Event} (h : Inv style typed s) (hStep : Step b park style hart s event t) :
    Inv style (typed ++ taken [event]) t := by
  cases hStep with
  | machine hStep hOther =>
      rw [taken_machine, List.append_nil]
      exact ⟨h.line, h.commands, h.shown⟩
  | @poll trap c m hPolls hStep =>
      have hSame : Inv style typed { s with machine := m } := ⟨h.line, h.commands, h.shown⟩
      rw [taken_poll]
      exact hSame.take

/-- The characters before the ring, in it and behind it. -/
def InOrder (before taken : List Byte) (s : System) : Prop :=
  ∃ queue, Sbi.RingBuff.Holds s.machine.ring queue ∧
    (taken ++ queue ++ s.machine.received).Sublist before

/-- None of the characters but 0xff is missing. -/
def Complete (before taken : List Byte) (s : System) : Prop :=
  ∃ queue, Sbi.RingBuff.Holds s.machine.ring queue ∧
    (taken ++ queue ++ s.machine.received).filter (· ≠ 0xff) = before.filter (· ≠ 0xff)

/-- A poll moves the first character of the ring to the loop, unless it is 0xff. -/
theorem poll_moves (hStep : Step b park style hart s (.poll trap c) t)
    (h : Sbi.RingBuff.Holds s.machine.ring queue) :
    ∃ queue', Sbi.RingBuff.Holds t.machine.ring queue' ∧
      (taken [.poll trap c] ++ queue' ++ t.machine.received).Sublist (queue ++ s.machine.received) ∧
      (taken [.poll trap c] ++ queue' ++ t.machine.received).filter (· ≠ 0xff) =
        (queue ++ s.machine.received).filter (· ≠ 0xff) := by
  have hFirst := poll_returns hStep h
  rw [taken_poll]
  cases hStep with
  | @poll trap c m hPolls hStep _ =>
      obtain ⟨hReceived, hRing, -⟩ := poll_effect hPolls hStep
      have hMachine : ({ s with machine := m }.take style c).machine = m := by
        rw [System.take]
        split
        · rfl
        · rfl
      rw [hMachine, hReceived, hRing]
      cases queue with
      | nil =>
          rw [ringGet_nil h, hFirst]
          exact ⟨[], h, List.Sublist.refl _, rfl⟩
      | cons first queue =>
          obtain rfl : c = first := hFirst
          refine ⟨queue, (ringGet_cons h).2, ?_, ?_⟩
          · split
            · exact List.sublist_cons_self ..
            · exact List.Sublist.refl _
          · split
            next hEnd =>
              rw [hEnd]
              rfl
            next => rfl

/-- One step keeps the order of the characters, and loses none when they fit. -/
theorem step_input {event : Event} (hStep : Step b park style hart s event t) :
    (InOrder before typed s → InOrder (before ++ arrivals [event]) (typed ++ taken [event]) t) ∧
      (FitsIn s event → Complete before typed s →
        Complete (before ++ arrivals [event]) (typed ++ taken [event]) t) := by
  cases event with
  | machine event =>
      rw [arrivals_machine, taken_machine, List.append_nil]
      cases hStep with
      | @machine _ m hStep hOther =>
          constructor
          · rintro ⟨queue, hHolds, hOrder⟩
            obtain ⟨queue', hNext, hSublist, -⟩ := machine_effect hStep hOther hHolds
            refine ⟨queue', hNext, ?_⟩
            have hMoved := hSublist.append_left typed
            rw [← List.append_assoc, ← List.append_assoc, ← List.append_assoc] at hMoved
            exact hMoved.trans (hOrder.append_right _)
          · rintro hFits ⟨queue, hHolds, hComplete⟩
            obtain ⟨queue', hNext, -, hSame⟩ := machine_effect hStep hOther hHolds
            refine ⟨queue', hNext, ?_⟩
            have hBefore : (before ++ arrived event).filter (· ≠ 0xff) =
                (typed ++ (queue ++ s.machine.received ++ arrived event)).filter (· ≠ 0xff) := by
              rw [List.filter_append, ← hComplete, ← List.filter_append]
              simp only [List.append_assoc]
            rw [hBefore, List.append_assoc, List.filter_append, hSame hFits, ← List.filter_append]
  | poll trap c =>
      rw [arrivals_poll, List.append_nil]
      constructor
      · rintro ⟨queue, hHolds, hOrder⟩
        obtain ⟨queue', hNext, hSublist, -⟩ := poll_moves hStep hHolds
        refine ⟨queue', hNext, ?_⟩
        have hMoved := hSublist.append_left typed
        simp only [List.append_assoc] at hMoved hOrder ⊢
        exact hMoved.trans hOrder
      · rintro - ⟨queue, hHolds, hComplete⟩
        obtain ⟨queue', hNext, -, hSame⟩ := poll_moves hStep hHolds
        refine ⟨queue', hNext, ?_⟩
        rw [← hComplete]
        simp only [List.append_assoc] at hSame ⊢
        rw [List.filter_append, hSame, ← List.filter_append]

theorem Starts.inOrder (h : Starts style early s) : InOrder early [] s ∧ Complete early [] s := by
  obtain ⟨queue, hHolds, rfl⟩ := h.queue
  exact ⟨⟨queue, hHolds, List.Sublist.refl _⟩, queue, hHolds, rfl⟩

theorem run_inv (hStart : Starts style early s) (run : Run (Step b park style hart) s events t) :
    Inv style (taken events) t ∧ InOrder (early ++ arrivals events) (taken events) t := by
  induction run with
  | nil =>
      refine ⟨hStart.inv, ?_⟩
      rw [arrivals, List.flatMap_nil, List.append_nil]
      exact hStart.inOrder.1
  | snoc prior last ih =>
      obtain ⟨hInv, hOrder⟩ := ih
      rw [arrivals_snoc, taken_snoc, ← List.append_assoc]
      exact ⟨hInv.step last, (step_input last).1 hOrder⟩

/-- Whatever the traps of the harts come between, `main` runs the lines that were
typed, in order, and its terminal shows the line that is being typed. -/
theorem served_of_run (hStart : Starts (mainStyle hart) early s)
    (run : Run (Step b park (mainStyle hart) hart) s events t) :
    Served b park (mainStyle hart) hart (early ++ arrivals events) (taken events) t := by
  obtain ⟨hInv, queue, hHolds, hSublist⟩ := run_inv hStart run
  have hEnds (command : Nat → Byte) (line : List Byte) (hLine : IsLine (mainStyle hart) command line) :
      ∀ status testHart, ∃ actions, Command.runCommand status testHart command = some actions := by
    obtain ⟨hLength, hSpells⟩ := hLine
    have hShort := (List.takeWhile_prefix (p := (· ≠ 0)) (l := line)).length_le
    exact fun status testHart => runCommand_ends hSpells.terminated (hShort.trans_lt hLength)
  refine ⟨⟨queue, hHolds, hSublist, fun _ _ _ hPoll => poll_returns hPoll hHolds⟩,
    fun _ _ _ hAsync hCause hIrq hStep => interrupt_received hAsync hCause hIrq hStep,
    hInv.commands, hInv.shown, ?_⟩
  exact ((List.forall₂_and_left _ _).mp
    (hInv.commands.imp fun command line hLine => ⟨hEnds command line hLine, hLine⟩)).1

/-- No character is lost while every interrupt finds room in the ring. -/
theorem complete_of_run (hStart : Starts style early s)
    (run : Run (Guarded (Step b park style hart) FitsIn) s events t) :
    Complete (early ++ arrivals events) (taken events) t := by
  induction run with
  | nil =>
      rw [arrivals, List.flatMap_nil, List.append_nil]
      exact hStart.inOrder.2
  | snoc prior last ih =>
      rw [arrivals_snoc, taken_snoc, ← List.append_assoc]
      exact (step_input last.2).2 last.1 ih

/-! ## A character that is typed -/

/-- Hart 0 waits for a character; `a7` is the number of `GETCHAR`. -/
def waiting : System where
  machine :=
    { mem := Memory.store64 (fun _ => 0) (regAddr 0x80004000 xregA7) 11
      msip := fun _ => false
      mtimecmp := fun _ => Sbi.Ctrap.clintMtimecmpInfinite
      output := []
      received := []
      ring := ⟨fun _ => 0, 0, 0⟩
      completed := []
      csr := Sbi.mainCsrs 0x80000100
      mip := fun _ => 0
      time := 0 }
  console := ⟨fun _ => 0, 0⟩
  trace := [.prints (mainStyle 0).mark]

def uartTrap : Trap := ⟨0x800000000000000b, 0, 0x80004000, 0, 0, 10⟩

def callTrap : Trap := ⟨9, 0, 0x80004000, 0, 0, 0⟩

/-- The character comes, the UART interrupts, and the loop polls. -/
def typedX : List Event :=
  [.machine (.receive (char 'x')), .machine (.trap 0 uartTrap), .poll callTrap (char 'x')]

example : ∃ t, Run (Guarded (Step Sbi.Table.bootTables 0x80000100 (mainStyle 0) 0) FitsIn)
      waiting typedX t ∧
    Served Sbi.Table.bootTables 0x80000100 (mainStyle 0) 0 [char 'x'] [char 'x'] t ∧
    Complete [char 'x'] [char 'x'] t := by
  have hAsync : uartTrap.isAsync = true := by decide
  have hUart : uartTrap.cause ≠ 7 := by decide
  have hSync : callTrap.isAsync = false := by decide
  have hCall : callTrap.cause = 9 := by decide
  have hGetchar : service (reg waiting.machine.mem 0x80004000 xregA7) = .getchar := by
    change service (reg (Memory.store64 _ _ _) _ _) = _
    rw [reg_setReg]
    rfl
  let step := Guarded (Step Sbi.Table.bootTables 0x80000100 (mainStyle 0) 0) FitsIn
  let m : Machine := { waiting.machine with received := [char 'x'] }
  let m' := m.back 0 (Sbi.Ctrap.cTrapHandler Sbi.Table.bootTables 0x80000100 0 uartTrap (m.on 0)).2
  have hReceive : step waiting (.machine (.receive (char 'x'))) { waiting with machine := m } :=
    ⟨trivial, .machine (.receive _) id⟩
  have hFits : Fits m (.trap 0 uartTrap) := by
    intro _ _ _
    change (0 : Int) + 1 ≤ 10
    decide
  have hInterrupt : step { waiting with machine := m } (.machine (.trap 0 uartTrap))
      { waiting with machine := m' } :=
    ⟨hFits, .machine (.trap rfl fun _ hCause => absurd hCause hUart)
      fun hPolls => absurd (hPolls.sync.symm.trans hAsync) (by decide)⟩
  have hPolls : Polls m' callTrap := ⟨hSync, hCall, hGetchar⟩
  have hNoTimer : callTrap.isAsync = true → callTrap.cause = 7 → m'.TimerPending 0 :=
    fun hNot => absurd (hSync.symm.trans hNot) (by decide)
  have hPoll : Sbi.Ctrap.Step Sbi.Table.bootTables 0x80000100 m' (.trap 0 callTrap) _ :=
    .trap rfl hNoTimer
  have hFirst : (Sbi.RingBuff.ringGet m'.ring).1 = char 'x' := by rfl
  have run : Run step waiting typedX _ := .snoc (.snoc (.snoc (.nil _) hReceive) hInterrupt)
    ⟨trivial, .poll hPolls hPoll (hFirst.symm.trans (poll_effect hPolls hPoll).2.2.symm)⟩
  have hStart : Starts (mainStyle 0) [] waiting := ⟨⟨[], Sbi.RingBuff.holds_boot, rfl⟩, rfl, rfl⟩
  exact ⟨_, run, served_of_run hStart run.of_guarded, complete_of_run hStart run⟩

end Kernel.Console
