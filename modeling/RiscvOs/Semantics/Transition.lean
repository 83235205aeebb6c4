import Mathlib.Data.List.Basic

/-! Finite runs of a labelled transition relation. A run lists the events in
the order in which they happened; it may stop after any of them. -/
namespace Semantics

variable {State Event : Type*}

/-- The events of the list, one after the other, lead from the first state
to the last one. -/
inductive Run (step : State → Event → State → Prop) : State → List Event → State → Prop where
  | nil (s : State) : Run step s [] s
  | snoc {s t u : State} {events : List Event} {event : Event}
      (prior : Run step s events t) (last : step t event u) :
      Run step s (events ++ [event]) u

/-- Keep only the transitions whose event is allowed in the state before it. -/
def Guarded (step : State → Event → State → Prop) (allowed : State → Event → Prop)
    (s : State) (event : Event) (t : State) : Prop :=
  allowed s event ∧ step s event t

namespace Run

variable {step : State → Event → State → Prop} {s t u : State} {events later : List Event}

/-- What holds at the start and survives every transition holds at the end
of every run. -/
theorem invariant (run : Run step s events t) (Inv : State → Prop) (hStart : Inv s)
    (hStep : ∀ a event b, Inv a → step a event b → Inv b) : Inv t := by
  induction run with
  | nil => exact hStart
  | snoc prior last ih => exact hStep _ _ _ ih last

/-- A run is matched by a run of another system with the same events, if every
transition is matched by one. -/
theorem simulation {Abstract : Type*} {spec : Abstract → Event → Abstract → Prop}
    (run : Run step s events t) (related : State → Abstract → Prop) {a : Abstract}
    (hStart : related s a)
    (hStep : ∀ s a event t, related s a → step s event t → ∃ b, spec a event b ∧ related t b) :
    ∃ b, Run spec a events b ∧ related t b := by
  induction run with
  | nil => exact ⟨a, Run.nil a, hStart⟩
  | snoc prior last ih =>
      obtain ⟨b, hRun, hRelated⟩ := ih
      obtain ⟨c, hSpec, hNext⟩ := hStep _ b _ _ hRelated last
      exact ⟨c, Run.snoc hRun hSpec, hNext⟩

theorem eq_of_nil (run : Run step s [] t) : t = s := by
  generalize hEvents : [] = events at run
  cases run with
  | nil => rfl
  | snoc prior last => simp at hEvents

theorem trans (first : Run step s events t) (second : Run step t later u) :
    Run step s (events ++ later) u := by
  induction second with
  | nil => simpa using first
  | snoc prior last ih => simpa only [List.append_assoc] using Run.snoc ih last

theorem cons {event : Event} (head : step s event t) (rest : Run step t later u) :
    Run step s (event :: later) u :=
  trans (Run.snoc (Run.nil s) head) rest

/-- The transition for one event of a run, with what came before and after it. -/
theorem split {before after : List Event} {event : Event}
    (run : Run step s (before ++ event :: after) t) :
    ∃ a b, Run step s before a ∧ step a event b ∧ Run step b after t := by
  generalize hEvents : before ++ event :: after = events at run
  induction run generalizing after with
  | nil => simp at hEvents
  | snoc prior last ih =>
      rcases List.eq_nil_or_concat after with rfl | ⟨front, final, rfl⟩
      · obtain ⟨rfl, hSame⟩ := List.append_inj' hEvents rfl
        obtain rfl := List.singleton_injective hSame
        exact ⟨_, _, prior, last, Run.nil _⟩
      · rw [List.concat_eq_append, ← List.cons_append, ← List.append_assoc] at hEvents
        obtain ⟨hFront, hSame⟩ := List.append_inj' hEvents rfl
        obtain rfl := List.singleton_injective hSame
        obtain ⟨a, b, hBefore, hStep, hAfter⟩ := ih hFront
        refine ⟨a, b, hBefore, hStep, ?_⟩
        rw [List.concat_eq_append]
        exact Run.snoc hAfter last

/-- A run that obeys a guard is a run. -/
theorem of_guarded {allowed : State → Event → Prop} (run : Run (Guarded step allowed) s events t) :
    Run step s events t := by
  induction run with
  | nil => exact Run.nil _
  | snoc prior last ih => exact Run.snoc ih last.2

end Run

end Semantics
