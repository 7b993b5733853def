import Mathlib.Data.List.Basic
import Mathlib.Order.Basic
import Mathlib.Order.Nat

/-!
# The first of the best

Elements of a list have a score, or none when they do not count. `FirstLeast score l a`: of the elements
that have the least score, `a` is the one that stands first.

`scanLeast` is the usual loop with a running best, that stops at the score 0.

* `firstLeast_unique`, `exists_firstLeast` — there is one, exactly when some element has a score;
* `scanLeast_eq_some`, `scanLeast_eq_none` — the loop finds it.
-/

namespace Shaunos

variable {α : Type*} {score : α → Option ℕ} {l : List α} {a b : α}

/-- Of the elements of `l` with the least score, `a` stands first. -/
def FirstLeast (score : α → Option ℕ) (l : List α) (a : α) : Prop :=
  ∃ pre post w, l = pre ++ a :: post ∧ score a = some w ∧ (∀ b ∈ pre, ∀ v ∈ score b, w < v) ∧
    ∀ b ∈ post, ∀ v ∈ score b, w ≤ v

namespace FirstLeast

theorem mem (h : FirstLeast score l a) : a ∈ l := by
  obtain ⟨pre, post, w, rfl, -⟩ := h
  simp

theorem isSome (h : FirstLeast score l a) : (score a).isSome = true := by
  obtain ⟨pre, post, w, -, ha, -⟩ := h
  simp [ha]

theorem le (h : FirstLeast score l a) (hb : b ∈ l) {v w : ℕ} (hw : score a = some w) (hv : score b = some v) :
    w ≤ v := by
  obtain ⟨pre, post, u, rfl, ha, hpre, hpost⟩ := h
  obtain rfl : u = w := Option.some.inj (ha.symm.trans hw)
  rcases List.mem_append.mp hb with hb | hb
  · exact (hpre b hb v hv).le
  · rcases List.mem_cons.mp hb with rfl | hb
    · exact (Option.some.inj (hw.symm.trans hv)).le
    · exact hpost b hb v hv

/-- An element at the front that has no score, or a worse one, does not matter. -/
theorem cons (h : FirstLeast score l a) {w : ℕ} (hw : score a = some w) (hb : ∀ v ∈ score b, w < v) :
    FirstLeast score (b :: l) a := by
  obtain ⟨pre, post, u, rfl, ha, hpre, hpost⟩ := h
  obtain rfl : u = w := Option.some.inj (ha.symm.trans hw)
  refine ⟨b :: pre, post, u, rfl, ha, ?_, hpost⟩
  intro c hc
  rcases List.mem_cons.mp hc with rfl | hc
  · exact hb
  · exact hpre c hc

theorem head {w : ℕ} (hw : score a = some w) (hl : ∀ b ∈ l, ∀ v ∈ score b, w ≤ v) : FirstLeast score (a :: l) a :=
  ⟨[], l, w, rfl, hw, by simp, hl⟩

/-- An element at the end that is not better does not matter. -/
theorem snoc_of_le (h : FirstLeast score l a) {w : ℕ} (hw : score a = some w) (hb : ∀ v ∈ score b, w ≤ v) :
    FirstLeast score (l ++ [b]) a := by
  obtain ⟨pre, post, u, rfl, ha, hpre, hpost⟩ := h
  obtain rfl : u = w := Option.some.inj (ha.symm.trans hw)
  refine ⟨pre, post ++ [b], u, by simp, ha, hpre, ?_⟩
  intro c hc
  rcases List.mem_append.mp hc with hc | hc
  · exact hpost c hc
  · exact List.mem_singleton.mp hc ▸ hb

/-- An element at the end that is better than all before it. -/
theorem snoc_of_lt {w : ℕ} (hw : score a = some w) (hl : ∀ b ∈ l, ∀ v ∈ score b, w < v) :
    FirstLeast score (l ++ [a]) a := ⟨l, [], w, rfl, hw, hl, by simp⟩

end FirstLeast

theorem firstLeast_unique (ha : FirstLeast score l a) (hb : FirstLeast score l b) : a = b := by
  induction l with
  | nil => exact absurd ha.mem (by simp)
  | cons x l ih =>
      obtain ⟨pa, qa, w, hla, hwa, hpa, hqa⟩ := ha
      obtain ⟨pb, qb, v, hlb, hvb, hpb, hqb⟩ := hb
      cases pa with
      | nil =>
          obtain ⟨rfl, rfl⟩ := List.cons.inj hla
          cases pb with
          | nil => exact (List.cons.inj hlb).1
          | cons y pb =>
              obtain ⟨rfl, rfl⟩ := List.cons.inj hlb
              have h₁ := hpb x List.mem_cons_self w hwa
              have h₂ := hqa b (by simp) v hvb
              omega
      | cons y pa =>
          obtain ⟨rfl, rfl⟩ := List.cons.inj hla
          cases pb with
          | nil =>
              obtain ⟨rfl, rfl⟩ := List.cons.inj hlb
              have h₁ := hpa x List.mem_cons_self v hvb
              have h₂ := hqb a (by simp) w hwa
              omega
          | cons z pb =>
              obtain ⟨rfl, hrest⟩ := List.cons.inj hlb
              refine ih ⟨pa, qa, w, rfl, hwa, ?_, hqa⟩ ⟨pb, qb, v, hrest, hvb, ?_, hqb⟩
              · exact fun c hc => hpa c (List.mem_cons_of_mem x hc)
              · exact fun c hc => hpb c (List.mem_cons_of_mem x hc)

theorem exists_firstLeast (h : ∃ b ∈ l, (score b).isSome = true) : ∃ a, FirstLeast score l a := by
  induction l with
  | nil => simp at h
  | cons x l ih =>
      by_cases hl : ∃ b ∈ l, (score b).isSome = true
      · obtain ⟨a, ha⟩ := ih hl
        obtain ⟨w, hw⟩ := Option.isSome_iff_exists.mp ha.isSome
        by_cases hx : ∀ v ∈ score x, w < v
        · exact ⟨a, ha.cons hw hx⟩
        · push Not at hx
          obtain ⟨v, hv, hvw⟩ := hx
          exact ⟨x, .head hv fun b hb u hu => hvw.trans (ha.le hb hw hu)⟩
      · obtain ⟨b, hb, hsome⟩ := h
        rcases List.mem_cons.mp hb with rfl | hb
        · obtain ⟨w, hw⟩ := Option.isSome_iff_exists.mp hsome
          refine ⟨b, .head hw fun c hc v hv => ?_⟩
          exact absurd ⟨c, hc, Option.isSome_of_mem hv⟩ hl
        · exact absurd ⟨b, hb, hsome⟩ hl

/-- The loop with a running best: `best` is the best so far, and a score has to be under `bound` to be better. -/
def scanLeast (score : α → Option ℕ) : List α → Option α → ℕ → Option α
  | [], best, _ => best
  | a :: l, best, bound =>
      match score a with
      | none => scanLeast score l best bound
      | some w =>
          if w < bound then if w = 0 then some a else scanLeast score l (some a) w
          else scanLeast score l best bound

/-- With nothing better behind it, the best so far is the result. -/
theorem scanLeast_of_le {best : Option α} {bound : ℕ} (h : ∀ b ∈ l, ∀ v ∈ score b, bound ≤ v) :
    scanLeast score l best bound = best := by
  induction l with
  | nil => rfl
  | cons x l ih =>
      have ihl := ih fun b hb => h b (List.mem_cons_of_mem x hb)
      rw [scanLeast]
      cases hx : score x with
      | none => exact ihl
      | some w =>
          have hle := h x List.mem_cons_self w hx
          simp only [if_neg hle.not_gt, ihl]

theorem scanLeast_of_firstLeast {best : Option α} {bound w : ℕ} (h : FirstLeast score l a) (hw : score a = some w)
    (hlt : w < bound) : scanLeast score l best bound = some a := by
  obtain ⟨pre, post, u, rfl, ha, hpre, hpost⟩ := h
  obtain rfl : u = w := Option.some.inj (ha.symm.trans hw)
  induction pre generalizing best bound with
  | nil =>
      rw [List.nil_append, scanLeast, ha]
      simp only [if_pos hlt]
      split_ifs
      · rfl
      · exact scanLeast_of_le hpost
  | cons x pre ih =>
      have hrest := fun b hb => hpre b (List.mem_cons_of_mem x hb)
      rw [List.cons_append, scanLeast]
      cases hx : score x with
      | none => exact ih hrest hlt
      | some v =>
          have hv := hpre x List.mem_cons_self v hx
          simp only
          split_ifs with hvb hzero
          · omega
          · exact ih hrest hv
          · exact ih hrest hlt

variable {bound : ℕ}

theorem scanLeast_eq_none (hbound : ∀ b ∈ l, ∀ v ∈ score b, v < bound) :
    scanLeast score l none bound = none ↔ ∀ b ∈ l, score b = none := by
  constructor
  · intro hnone
    by_contra hex
    push Not at hex
    obtain ⟨b, hb, hne⟩ := hex
    obtain ⟨a, ha⟩ := exists_firstLeast ⟨b, hb, Option.isSome_iff_ne_none.mpr hne⟩
    obtain ⟨w, hw⟩ := Option.isSome_iff_exists.mp ha.isSome
    rw [scanLeast_of_firstLeast ha hw (hbound a ha.mem w hw)] at hnone
    cases hnone
  · intro hall
    exact scanLeast_of_le fun b hb v hv => absurd ((hall b hb).symm.trans hv) (by simp)

theorem scanLeast_eq_some (hbound : ∀ b ∈ l, ∀ v ∈ score b, v < bound) :
    scanLeast score l none bound = some a ↔ FirstLeast score l a := by
  constructor
  · intro hsome
    have hex : ∃ b ∈ l, (score b).isSome = true := by
      by_contra hno
      push Not at hno
      have hnone := (scanLeast_eq_none hbound).mpr fun b hb => by simpa using hno b hb
      rw [hnone] at hsome
      cases hsome
    obtain ⟨c, hc⟩ := exists_firstLeast hex
    obtain ⟨w, hw⟩ := Option.isSome_iff_exists.mp hc.isSome
    rw [scanLeast_of_firstLeast hc hw (hbound c hc.mem w hw)] at hsome
    obtain rfl := Option.some.inj hsome
    exact hc
  · intro ha
    obtain ⟨w, hw⟩ := Option.isSome_iff_exists.mp ha.isSome
    exact scanLeast_of_firstLeast ha hw (hbound a ha.mem w hw)

end Shaunos
