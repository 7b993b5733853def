import Mathlib.Order.MinMax
import Mathlib.Data.List.Basic

/-!
# Lists of intervals

A set of places is kept as a list of half-open intervals, sorted and without overlaps. A new interval is
put into its place. It loses at its front what the interval before it has, and the intervals behind it
lose what it has.

* `Spaced.addIvl` — the list stays sorted and without overlaps;
* `covers_addIvl` — the places of the list are those it had and those of the new interval.
-/

namespace Shaunos

variable {α : Type*} [LinearOrder α]

/-- The intervals are nonempty and sorted, they do not overlap, and they start at `lo` or behind it. -/
def Spaced : (lo : α) → List (α × α) → Prop
  | _, [] => True
  | lo, p :: q => lo ≤ p.1 ∧ p.1 < p.2 ∧ Spaced p.2 q

/-- A place of one of the intervals. -/
def Covers (q : List (α × α)) (x : α) : Prop := ∃ p ∈ q, p.1 ≤ x ∧ x < p.2

/-- Drop what lies before `e`. -/
def cutFront (e : α) : List (α × α) → List (α × α)
  | [] => []
  | p :: q => if e ≤ p.1 then p :: q else if e < p.2 then (e, p.2) :: q else cutFront e q

/-- Put `[s, e)` in front of a list; the interval before it ends at `lo`. -/
def placeIvl (lo s e : α) (q : List (α × α)) : List (α × α) :=
  if e ≤ max lo s then q else (max lo s, e) :: cutFront e q

/-- Put `[s, e)` into a list; the interval before the list ends at `lo`. -/
def addIvl (s e : α) : (lo : α) → List (α × α) → List (α × α)
  | lo, [] => placeIvl lo s e []
  | lo, p :: q => if s < p.1 then placeIvl lo s e (p :: q) else p :: addIvl s e p.2 q

variable {lo s e x : α} {p : α × α} {q : List (α × α)}

@[simp] theorem spaced_nil : Spaced lo [] := trivial

@[simp] theorem spaced_cons : Spaced lo (p :: q) ↔ lo ≤ p.1 ∧ p.1 < p.2 ∧ Spaced p.2 q := Iff.rfl

@[simp] theorem covers_nil : ¬ Covers [] x := by
  simp [Covers]

@[simp] theorem covers_cons : Covers (p :: q) x ↔ (p.1 ≤ x ∧ x < p.2) ∨ Covers q x := by
  simp [Covers]

theorem Spaced.mono {lo' : α} (h : Spaced lo q) (hle : lo' ≤ lo) : Spaced lo' q := by
  cases q with
  | nil => trivial
  | cons p q => exact ⟨hle.trans h.1, h.2⟩

/-- Nothing lies before the list. -/
theorem Spaced.le_of_covers (h : Spaced lo q) (hx : Covers q x) : lo ≤ x := by
  induction q generalizing lo with
  | nil => exact absurd hx covers_nil
  | cons p q ih =>
      rcases covers_cons.mp hx with hp | hq
      · exact h.1.trans hp.1
      · exact (h.1.trans h.2.1.le).trans (ih h.2.2 hq)

/-- An interval of the list is nonempty and starts at `lo` or behind it. -/
theorem Spaced.of_mem (h : Spaced lo q) (hp : p ∈ q) : lo ≤ p.1 ∧ p.1 < p.2 := by
  induction q generalizing lo with
  | nil => exact absurd hp List.not_mem_nil
  | cons p' q ih =>
      rcases List.mem_cons.mp hp with rfl | hq
      · exact ⟨h.1, h.2.1⟩
      · have ⟨hle, hlt⟩ := ih h.2.2 hq
        exact ⟨(h.1.trans h.2.1.le).trans hle, hlt⟩

theorem Spaced.cutFront (h : Spaced lo q) : Spaced (max lo e) (cutFront e q) := by
  induction q generalizing lo with
  | nil => trivial
  | cons p q ih =>
      rw [Shaunos.cutFront]
      split
      · rename_i hle
        exact ⟨max_le h.1 hle, h.2⟩
      rename_i hnle
      split
      · rename_i hlt
        exact ⟨max_le (h.1.trans (not_le.mp hnle).le) le_rfl, hlt, h.2.2⟩
      · exact (ih h.2.2).mono (max_le_max_right e (h.1.trans h.2.1.le))

theorem covers_cutFront (h : Spaced lo q) : Covers (cutFront e q) x ↔ Covers q x ∧ e ≤ x := by
  induction q generalizing lo with
  | nil => simp [Shaunos.cutFront]
  | cons p q ih =>
      rw [Shaunos.cutFront]
      split
      · rename_i hle
        refine ⟨fun hx => ⟨hx, ?_⟩, And.left⟩
        have hp : Spaced p.1 (p :: q) := ⟨le_rfl, h.2⟩
        exact hle.trans (hp.le_of_covers hx)
      rename_i hnle
      have hpe : p.1 < e := not_le.mp hnle
      split
      · -- the rest of the list lies behind `e`
        rename_i hlt
        have hq : Covers q x → e ≤ x := fun hx => hlt.le.trans (h.2.2.le_of_covers hx)
        simp only [covers_cons]
        constructor
        · rintro (⟨hle, hx⟩ | hx)
          · exact ⟨.inl ⟨hpe.le.trans hle, hx⟩, hle⟩
          · exact ⟨.inr hx, hq hx⟩
        · rintro ⟨⟨_, hx⟩ | hx, hle⟩
          · exact .inl ⟨hle, hx⟩
          · exact .inr hx
      · -- the whole interval lies before `e`
        rename_i hnlt
        rw [ih h.2.2, covers_cons]
        constructor
        · rintro ⟨hx, hle⟩
          exact ⟨.inr hx, hle⟩
        · rintro ⟨⟨_, hx⟩ | hx, hle⟩
          · exact absurd (hx.trans_le (not_lt.mp hnlt)) (not_lt.mpr hle)
          · exact ⟨hx, hle⟩

theorem Spaced.placeIvl (h : Spaced lo q) : Spaced lo (placeIvl lo s e q) := by
  rw [Shaunos.placeIvl]
  split
  · exact h
  · rename_i hnle
    exact ⟨le_max_left lo s, not_le.mp hnle, h.cutFront.mono (le_max_right lo e)⟩

theorem Spaced.addIvl (h : Spaced lo q) : Spaced lo (addIvl s e lo q) := by
  induction q generalizing lo with
  | nil => exact h.placeIvl
  | cons p q ih =>
      rw [Shaunos.addIvl]
      split
      · exact h.placeIvl
      · exact ⟨h.1, h.2.1, ih h.2.2⟩

theorem Spaced.of_forall {lo' : α} (h : Spaced lo q) (hle : ∀ p ∈ q, lo' ≤ p.1) : Spaced lo' q := by
  cases q with
  | nil => trivial
  | cons p q => exact ⟨hle p List.mem_cons_self, h.2⟩

/-- If no interval has `e` or ends at it only, the cut list starts behind `e`. -/
theorem lt_of_mem_cutFront (h : Spaced lo q) (he : ∀ p ∈ q, p.1 ≤ e → p.2 ≤ e)
    (hp : p ∈ Shaunos.cutFront e q) : e < p.1 := by
  induction q generalizing lo with
  | nil => exact absurd hp List.not_mem_nil
  | cons p' q ih =>
      have hp' := he p' List.mem_cons_self
      rw [Shaunos.cutFront] at hp
      split at hp
      · rename_i hle
        have hlt : e < p'.1 := by
          refine lt_of_le_of_ne hle ?_
          rintro rfl
          exact absurd (hp' le_rfl) (not_le.mpr h.2.1)
        rcases List.mem_cons.mp hp with rfl | hq
        · exact hlt
        · exact hlt.trans_le (h.2.1.le.trans (h.2.2.of_mem hq).1)
      rename_i hnle
      split at hp
      · rename_i hlt
        exact absurd (hp' (not_le.mp hnle).le) (not_le.mpr hlt)
      · exact ih h.2.2 (fun p hp => he p (List.mem_cons_of_mem p' hp)) hp

/-- The places of the list when no interval of it starts at `s` or before. -/
theorem covers_placeIvl (h : Spaced lo q) (hs : ∀ p ∈ q, s < p.1) :
    Covers (placeIvl lo s e q) x ↔ Covers q x ∨ max lo s ≤ x ∧ x < e := by
  rw [placeIvl]
  split
  · rename_i hle
    refine ⟨.inl, ?_⟩
    rintro (hx | ⟨hx, hxe⟩)
    · exact hx
    · exact absurd (hxe.trans_le hle) (not_lt.mpr hx)
  · have hq : Covers q x → max lo s ≤ x := by
      rintro ⟨p, hp, hpx⟩
      exact (max_le (h.of_mem hp).1 (hs p hp).le).trans hpx.1
    rw [covers_cons, covers_cutFront h]
    constructor
    · rintro (hx | ⟨hx, _⟩)
      · exact .inr hx
      · exact .inl hx
    · rintro (hx | hx)
      · rcases lt_or_ge x e with hlt | hge
        · exact .inl ⟨hq hx, hlt⟩
        · exact .inr ⟨hx, hge⟩
      · exact .inl hx

/-- The places of the new list. -/
theorem covers_addIvl (h : Spaced lo q) :
    Covers (addIvl s e lo q) x ↔ Covers q x ∨ max lo s ≤ x ∧ x < e := by
  induction q generalizing lo with
  | nil =>
      rw [addIvl]
      exact covers_placeIvl trivial (by simp)
  | cons p q ih =>
      rw [addIvl]
      split
      · rename_i hsp
        refine covers_placeIvl h ?_
        intro p' hp'
        rcases List.mem_cons.mp hp' with rfl | hp'
        · exact hsp
        · exact hsp.trans (h.2.1.trans_le (h.2.2.of_mem hp').1)
      · -- what the new interval shares with the first one is there already
        rename_i hnsp
        have hps : p.1 ≤ s := not_lt.mp hnsp
        rw [covers_cons, covers_cons, ih h.2.2, max_eq_right (h.1.trans hps), or_assoc]
        constructor
        · rintro (hp | hq | ⟨hx, hxe⟩)
          · exact .inl hp
          · exact .inr (.inl hq)
          · exact .inr (.inr ⟨(le_max_right p.2 s).trans hx, hxe⟩)
        · rintro (hp | hq | ⟨hx, hxe⟩)
          · exact .inl hp
          · exact .inr (.inl hq)
          · rcases lt_or_ge x p.2 with hlt | hge
            · exact .inl ⟨hps.trans hx, hlt⟩
            · exact .inr (.inr ⟨max_le hge hx, hxe⟩)

end Shaunos
