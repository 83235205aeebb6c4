import Mathlib.Data.BitVec
import Mathlib.Logic.Function.Basic
import Mathlib.Logic.Relation

/-! Loops with a deterministic body. The body leads from a state to the next
one, or ends the loop in the state that it finds. A loop with a counter is a fold
over the values of the counter. -/
namespace Semantics

variable {State : Type*}

/-- The loop, for at most the given number of tests of its body. -/
def loop (body : State → Option State) : Nat → State → Option State
  | 0, _ => none
  | fuel + 1, s =>
      match body s with
      | none => some s
      | some t => loop body fuel t

/-- The loop ends in the second state. -/
def EndsIn (body : State → Option State) (s t : State) : Prop :=
  ∃ fuel, loop body fuel s = some t

/-- The loop comes to the second state. -/
def Reaches (body : State → Option State) : State → State → Prop :=
  Relation.ReflTransGen fun s t => body s = some t

variable {body : State → Option State} {s t u : State}

theorem endsIn_of_none (h : body s = none) : EndsIn body s s :=
  ⟨1, by simp only [loop, h]⟩

theorem endsIn_of_some (h : body s = some t) : EndsIn body s u ↔ EndsIn body t u := by
  constructor
  · rintro ⟨fuel, hEnd⟩
    cases fuel with
    | zero => cases hEnd
    | succ fuel =>
        simp only [loop, h] at hEnd
        exact ⟨fuel, hEnd⟩
  · rintro ⟨fuel, hEnd⟩
    exact ⟨fuel + 1, by simpa only [loop, h] using hEnd⟩

theorem endsIn_iff_of_none (h : body s = none) : EndsIn body s t ↔ t = s := by
  constructor
  · rintro ⟨fuel, hEnd⟩
    cases fuel with
    | zero => cases hEnd
    | succ fuel =>
        simp only [loop, h] at hEnd
        exact (Option.some.inj hEnd).symm
  · rintro rfl
    exact endsIn_of_none h

/-- A loop does not end when its body always leads on. -/
theorem not_endsIn_of_invariant (Inv : State → Prop)
    (hStep : ∀ s, Inv s → ∃ t, body s = some t ∧ Inv t) (hStart : Inv s) :
    ¬ EndsIn body s t := by
  rintro ⟨fuel, hEnd⟩
  induction fuel generalizing s with
  | zero => cases hEnd
  | succ fuel ih =>
      obtain ⟨next, hNext, hInv⟩ := hStep s hStart
      simp only [loop, hNext] at hEnd
      exact ih hInv hEnd

/-- A body that leads back to its state repeats it for ever. -/
theorem not_endsIn_of_fixed (h : body s = some s) : ¬ EndsIn body s t :=
  not_endsIn_of_invariant (· = s) (fun _ hSame => ⟨s, by rw [hSame, h], rfl⟩) rfl

theorem reaches_of_none (h : body s = none) (hReach : Reaches body s t) : t = s := by
  rcases hReach.cases_head with hSame | ⟨next, hNext, -⟩
  · exact hSame.symm
  · rw [h] at hNext
    cases hNext

theorem reaches_of_fixed (h : body s = some s) (hReach : Reaches body s t) : t = s := by
  induction hReach with
  | refl => rfl
  | tail _ hStep ih =>
      rw [ih, h] at hStep
      exact (Option.some.inj hStep).symm

/-- The states that a loop comes to behind its first step. -/
theorem reaches_of_some (h : body s = some t) (hReach : Reaches body s u) :
    u = s ∨ Reaches body t u := by
  rcases hReach.cases_head with hSame | ⟨next, hNext, hRest⟩
  · exact .inl hSame.symm
  · rw [h] at hNext
    cases hNext
    exact .inr hRest

/-! ## Counters -/

/-- The values of `x` in `for (x = first; x < bound; x++)`. -/
def counters {w : Nat} (first bound : BitVec w) : List (BitVec w) :=
  (List.range (bound.toNat - first.toNat)).map fun k => first + BitVec.ofNat w k

theorem mem_counters {w : Nat} {first bound x : BitVec w} :
    x ∈ counters first bound ↔ first.toNat ≤ x.toNat ∧ x.toNat < bound.toNat := by
  have hBound := bound.isLt
  simp only [counters, List.mem_map, List.mem_range]
  constructor
  · rintro ⟨k, hk, rfl⟩
    rw [BitVec.toNat_add, BitVec.toNat_ofNat, Nat.add_mod_mod, Nat.mod_eq_of_lt (by omega)]
    omega
  · rintro ⟨hFirst, hLt⟩
    refine ⟨x.toNat - first.toNat, by omega, BitVec.eq_of_toNat_eq ?_⟩
    rw [BitVec.toNat_add, BitVec.toNat_ofNat, Nat.add_mod_mod, Nat.mod_eq_of_lt (by omega)]
    omega

/-- A loop that writes one value in several places. -/
theorem foldl_update_const {Place Value : Type*} [DecidableEq Place] (places : List Place)
    (value : Value) (f : Place → Value) :
    places.foldl (fun f place => Function.update f place value) f =
      fun place => if place ∈ places then value else f place := by
  induction places generalizing f with
  | nil => simp
  | cons first rest ih =>
      funext place
      rw [List.foldl_cons, ih]
      by_cases hRest : place ∈ rest
      · simp [hRest]
      · by_cases hFirst : place = first
        · simp [hFirst]
        · simp [hRest, hFirst]

/-! ## Scans -/

/-- The loop that counts from an index on until the test holds. -/
def scan (stop : Nat → Prop) [DecidablePred stop] : Nat → Nat → Option Nat :=
  loop fun i => if stop i then none else some (i + 1)

/-- The scan ends at the first index that the test holds of, when the fuel lasts
to it. -/
theorem scan_eq_some_iff {stop : Nat → Prop} [DecidablePred stop] {fuel i k : Nat} :
    scan stop fuel i = some k ↔
      i ≤ k ∧ k < i + fuel ∧ stop k ∧ ∀ j, i ≤ j → j < k → ¬ stop j := by
  induction fuel generalizing i with
  | zero =>
      constructor
      · intro h
        cases h
      · rintro ⟨hLe, hLt, -, -⟩
        omega
  | succ fuel ih =>
      unfold scan at ih ⊢
      by_cases hStop : stop i
      · simp only [loop, hStop, ↓reduceIte, Option.some.injEq]
        constructor
        · rintro rfl
          exact ⟨le_refl _, by omega, hStop, fun j hLe hLt => by omega⟩
        · rintro ⟨hLe, -, -, hBefore⟩
          by_contra hOther
          exact hBefore i (le_refl _) (by omega) hStop
      · simp only [loop, hStop, ↓reduceIte, ih]
        constructor
        · rintro ⟨hLe, hLt, hAt, hBefore⟩
          refine ⟨by omega, by omega, hAt, fun j hFrom hTo => ?_⟩
          obtain rfl | hBehind : j = i ∨ i + 1 ≤ j := by omega
          · exact hStop
          · exact hBefore j hBehind hTo
        · rintro ⟨hLe, hLt, hAt, hBefore⟩
          have hOther : i ≠ k := by
            rintro rfl
            exact hStop hAt
          exact ⟨by omega, by omega, hAt, fun j hFrom hTo => hBefore j (by omega) hTo⟩

end Semantics
