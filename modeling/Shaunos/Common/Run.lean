import Mathlib.Logic.Basic
import Mathlib.Data.List.Basic

/-!
# Runs of a system that answers calls

A system is a partial step function: `step s c = some t` when the call `c`, made in the state `s`,
returns and leaves the state `t`. `Reach step ok init` are the states that runs from `init` reach
when every call meets `ok` in the state it is made in.

* `Reach.invariant` — what holds at first and is kept by every such call holds of every reached state.
* `keepsAll_iff`, `keepsAll_iff_of_runs`, `keepsAll_iff_of_inv` — a condition on calls that says exactly when a property is kept;
* `allCalls_iff_of_inv` — the same for a property of the calls;
* `Reach.of_runCalls` — a list of calls that runs through reaches the state it ends in.
-/

namespace Shaunos

variable {S C : Type*}

/-- The states reached from `init` by calls that meet `ok`. -/
inductive Reach (step : S → C → Option S) (ok : S → C → Prop) (init : S) : S → Prop
  | start : Reach step ok init init
  | call {s t : S} {c : C} : Reach step ok init s → ok s c → step s c = some t →
      Reach step ok init t

/-- Make the calls of a list one after the other. -/
def runCalls (step : S → C → Option S) : S → List C → Option S
  | s, [] => some s
  | s, c :: cs => (step s c).bind fun t => runCalls step t cs

/-- Every call of a list meets `ok` in the state it is made in. -/
def AllCalls (step : S → C → Option S) (ok : S → C → Prop) : S → List C → Prop
  | _, [] => True
  | s, c :: cs => ok s c ∧ ∀ t ∈ step s c, AllCalls step ok t cs

instance AllCalls.decidable (step : S → C → Option S) (ok : S → C → Prop)
    [∀ s c, Decidable (ok s c)] : ∀ s cs, Decidable (AllCalls step ok s cs)
  | _, [] => isTrue trivial
  | s, c :: cs =>
      have : ∀ t, Decidable (AllCalls step ok t cs) := fun t => AllCalls.decidable step ok t cs
      inferInstanceAs (Decidable (ok s c ∧ ∀ t ∈ step s c, AllCalls step ok t cs))

/-- Every call of a list returns, and `P` holds at first and behind every call. -/
def KeepsAll (step : S → C → Option S) (P : S → Prop) : S → List C → Prop
  | s, [] => P s
  | s, c :: cs => P s ∧ ∃ t, step s c = some t ∧ KeepsAll step P t cs

theorem KeepsAll.head {step : S → C → Option S} {P : S → Prop} {s : S} {cs : List C}
    (h : KeepsAll step P s cs) : P s := by
  cases cs with
  | nil => exact h
  | cons => exact h.1

theorem KeepsAll.last {step : S → C → Option S} {P : S → Prop} {s : S} {cs : List C}
    (h : KeepsAll step P s cs) : ∃ t, runCalls step s cs = some t ∧ P t := by
  induction cs generalizing s with
  | nil => exact ⟨s, rfl, h⟩
  | cons c cs ih =>
      have ⟨_, t, ht, hrest⟩ := h
      have ⟨u, hu, hP⟩ := ih hrest
      exact ⟨u, by rw [runCalls, ht]; exact hu, hP⟩

/-- If a call that returns keeps `P` exactly when it meets `ok`, then `P` holds all along a run exactly when
all its calls meet `ok`. -/
theorem keepsAll_iff_of_runs {step : S → C → Option S} {P : S → Prop} {ok : S → C → Prop}
    (hstep : ∀ s c t, P s → step s c = some t → (P t ↔ ok s c)) {s : S} (hs : P s) (cs : List C)
    (hrun : (runCalls step s cs).isSome = true) : KeepsAll step P s cs ↔ AllCalls step ok s cs := by
  induction cs generalizing s with
  | nil => exact iff_of_true hs trivial
  | cons c cs ih =>
      rw [runCalls, Option.isSome_bind] at hrun
      have ⟨t, ht, hrest⟩ : ∃ t, step s c = some t ∧ (runCalls step t cs).isSome = true := by
        cases hc : step s c with
        | none => simp [hc] at hrun
        | some t => exact ⟨t, rfl, by simpa [hc] using hrun⟩
      have hiff := hstep s c t hs ht
      constructor
      · rintro ⟨_, u, hu, hkeep⟩
        obtain rfl : t = u := Option.some.inj (ht.symm.trans hu)
        refine ⟨hiff.mp hkeep.head, ?_⟩
        intro u hu
        obtain rfl : t = u := Option.some.inj (ht.symm.trans hu)
        exact (ih hkeep.head hrest).mp hkeep
      · rintro ⟨hok, hall⟩
        have hPt := hiff.mpr hok
        exact ⟨hs, t, ht, (ih hPt hrest).mpr (hall t ht)⟩

/-- If a call returns and keeps `P` exactly when it meets `ok`, then a list of calls runs through with `P`
all along exactly when all of them meet `ok`. -/
theorem keepsAll_iff {step : S → C → Option S} {P : S → Prop} {ok : S → C → Prop}
    (hstep : ∀ s c, P s → ((∃ t, step s c = some t ∧ P t) ↔ ok s c)) {s : S} (hs : P s) (cs : List C) :
    KeepsAll step P s cs ↔ AllCalls step ok s cs := by
  induction cs generalizing s with
  | nil => exact iff_of_true hs trivial
  | cons c cs ih =>
      constructor
      · rintro ⟨_, t, ht, hkeep⟩
        refine ⟨(hstep s c hs).mp ⟨t, ht, hkeep.head⟩, ?_⟩
        intro u hu
        obtain rfl : t = u := Option.some.inj (ht.symm.trans hu)
        exact (ih hkeep.head).mp hkeep
      · rintro ⟨hok, hrest⟩
        have ⟨t, ht, hPt⟩ := (hstep s c hs).mpr hok
        exact ⟨hs, t, ht, (ih hPt).mpr (hrest t ht)⟩

/-- The same with an invariant that says more than `P`, for calls that fit. -/
theorem keepsAll_iff_of_inv {step : S → C → Option S} {P : S → Prop} (Inv : S → Prop)
    {fits ok : S → C → Prop} (hP : ∀ s, Inv s → P s)
    (hgood : ∀ s c, Inv s → fits s c → ok s c → ∃ t, step s c = some t ∧ Inv t)
    (hbad : ∀ s c t, Inv s → fits s c → ¬ ok s c → step s c = some t → ¬ P t) {s : S} (hs : Inv s)
    (cs : List C) (hfits : AllCalls step fits s cs) : KeepsAll step P s cs ↔ AllCalls step ok s cs := by
  induction cs generalizing s with
  | nil => exact iff_of_true (hP s hs) trivial
  | cons c cs ih =>
      have ⟨hfit, hrest⟩ := hfits
      by_cases hok : ok s c
      · have ⟨t, ht, hinv⟩ := hgood s c hs hfit hok
        have hiff := ih hinv (hrest t ht)
        constructor
        · rintro ⟨_, u, hu, hkeep⟩
          obtain rfl : t = u := Option.some.inj (ht.symm.trans hu)
          refine ⟨hok, ?_⟩
          intro u hu
          obtain rfl : t = u := Option.some.inj (ht.symm.trans hu)
          exact hiff.mp hkeep
        · rintro ⟨_, hall⟩
          exact ⟨hP s hs, t, ht, hiff.mpr (hall t ht)⟩
      · refine iff_of_false ?_ fun hall => hok hall.1
        rintro ⟨_, t, ht, hkeep⟩
        exact hbad s c t hs hfit hok ht hkeep.head

/-- In a system without a condition on calls, every list of calls is fine. -/
theorem AllCalls.of_forall {step : S → C → Option S} {ok : S → C → Prop} (h : ∀ s c, ok s c) (s : S)
    (cs : List C) : AllCalls step ok s cs := by
  induction cs generalizing s with
  | nil => trivial
  | cons c cs ih => exact ⟨h s c, fun t _ => ih t⟩

namespace Reach

variable {step : S → C → Option S} {ok : S → C → Prop} {init s t : S}

/-- The invariant rule. -/
theorem invariant (h : Reach step ok init s) {Inv : S → Prop} (hinit : Inv init)
    (hstep : ∀ s c t, Inv s → ok s c → step s c = some t → Inv t) : Inv s := by
  induction h with
  | start => exact hinit
  | call _ hok hcall ih => exact hstep _ _ _ ih hok hcall

/-- A list of calls that meet `ok` reaches the state it ends in. -/
theorem of_runCalls (h : Reach step ok init s) (cs : List C) (hok : AllCalls step ok s cs)
    (hrun : runCalls step s cs = some t) : Reach step ok init t := by
  induction cs generalizing s with
  | nil =>
      obtain rfl : s = t := by simpa [runCalls] using hrun
      exact h
  | cons c cs ih =>
      obtain ⟨u, hu, hrest⟩ := Option.bind_eq_some_iff.mp hrun
      exact ih (h.call hok.1 hu) (hok.2 u hu) hrest

end Reach

/-- If calls have a property exactly when they meet `ok`, as long as an invariant holds that calls which meet `ok`
keep, then all calls of a run have it exactly when all meet `ok`. -/
theorem allCalls_iff_of_inv {step : S → C → Option S} (Inv : S → Prop) {P ok : S → C → Prop}
    (hiff : ∀ s c, Inv s → (P s c ↔ ok s c)) (hkeep : ∀ s c t, Inv s → ok s c → step s c = some t → Inv t) {s : S}
    (hs : Inv s) (cs : List C) : AllCalls step P s cs ↔ AllCalls step ok s cs := by
  induction cs generalizing s with
  | nil => exact Iff.rfl
  | cons c cs ih =>
      rw [AllCalls, AllCalls, hiff s c hs]
      refine and_congr_right fun hok => forall₂_congr fun t ht => ?_
      exact ih (hkeep s c t hs hok ht)

end Shaunos
