import Mathlib.Data.List.Basic

/-!
# Records that follow one another

A block is cut into records of various lengths, each of which names its own length. `Tiling` says
that the records from one place on end exactly at another; the places at which they start make a
list. A scan goes from record to record until one is a hit or the end is reached.

* `Tiling.scan_eq` — a scan looks through the list of records;
* `Tiling.merge`, `Tiling.split` — a record swallows its successor, or is cut in two.
-/

namespace Shaunos

/-- `ps` are the starts of records of lengths `len` that follow one another from `s` to `e`. -/
def Tiling (len : ℕ → ℕ) : (s : ℕ) → (ps : List ℕ) → (e : ℕ) → Prop
  | s, [], e => s = e
  | s, p :: ps, e => p = s ∧ 0 < len p ∧ Tiling len (p + len p) ps e

/-- The starts of the records from `s` on that lie before `e`. -/
def starts (len : ℕ → ℕ) (e : ℕ) : (fuel s : ℕ) → List ℕ
  | 0, _ => []
  | fuel + 1, s => if s < e ∧ 0 < len s then s :: starts len e fuel (s + len s) else []

/-- Go from record to record up to `e`: the first hit. A record of length 0 is never left. -/
def scan (len : ℕ → ℕ) (hit : ℕ → Bool) (e : ℕ) : (fuel s : ℕ) → Option (Option ℕ)
  | 0, _ => none
  | fuel + 1, s =>
      if hit s then some (some s)
      else if e ≤ s + len s then some none
      else scan len hit e fuel (s + len s)

namespace Tiling

variable {len len' : ℕ → ℕ} {s m e p q : ℕ} {ps qs : List ℕ}

theorem append_iff : Tiling len s (ps ++ qs) e ↔ ∃ m, Tiling len s ps m ∧ Tiling len m qs e := by
  induction ps generalizing s with
  | nil => simp [Tiling]
  | cons p ps ih =>
      simp only [List.cons_append, Tiling, ih]
      constructor
      · rintro ⟨rfl, hlen, m, h₁, h₂⟩
        exact ⟨m, ⟨rfl, hlen, h₁⟩, h₂⟩
      · rintro ⟨m, ⟨rfl, hlen, h₁⟩, h₂⟩
        exact ⟨rfl, hlen, m, h₁, h₂⟩

theorem le (h : Tiling len s ps e) : s ≤ e := by
  induction ps generalizing s with
  | nil => exact Nat.le_of_eq h
  | cons p ps ih =>
      obtain ⟨rfl, -, h⟩ := h
      have := ih h
      omega

/-- Records lie between the two places. -/
theorem bounds (h : Tiling len s ps e) (hp : p ∈ ps) : s ≤ p ∧ 0 < len p ∧ p + len p ≤ e := by
  induction ps generalizing s with
  | nil => simp at hp
  | cons q ps ih =>
      obtain ⟨rfl, hlen, h⟩ := h
      rcases List.mem_cons.mp hp with rfl | hp
      · exact ⟨Nat.le_refl p, hlen, h.le⟩
      · obtain ⟨h₁, h₂⟩ := ih h hp
        exact ⟨by omega, h₂⟩

/-- Records start one behind the other. -/
theorem pairwise (h : Tiling len s ps e) : ps.Pairwise fun p q => p + len p ≤ q := by
  induction ps generalizing s with
  | nil => exact List.Pairwise.nil
  | cons p ps ih =>
      obtain ⟨rfl, -, h⟩ := h
      exact List.Pairwise.cons (fun q hq => (h.bounds hq).1) (ih h)

theorem nodup (h : Tiling len s ps e) : ps.Nodup := by
  induction ps generalizing s with
  | nil => exact List.nodup_nil
  | cons p ps ih =>
      obtain ⟨rfl, hlen, h⟩ := h
      refine List.nodup_cons.mpr ⟨fun hp => ?_, ih h⟩
      have := (h.bounds hp).1
      omega

/-- Two records do not overlap. -/
theorem apart (h : Tiling len s ps e) (hp : p ∈ ps) (hq : q ∈ ps) (hne : p ≠ q) :
    p + len p ≤ q ∨ q + len q ≤ p := by
  induction ps generalizing s with
  | nil => simp at hp
  | cons r ps ih =>
      obtain ⟨rfl, -, h⟩ := h
      rcases List.mem_cons.mp hp with hpr | hp <;> rcases List.mem_cons.mp hq with hqr | hq
      · exact absurd (hpr.trans hqr.symm) hne
      · exact Or.inl (hpr ▸ (h.bounds hq).1)
      · exact Or.inr (hqr ▸ (h.bounds hp).1)
      · exact ih h hp hq

/-- Every place belongs to a record. -/
theorem exists_mem (h : Tiling len s ps e) (hs : s ≤ q) (he : q < e) :
    ∃ p ∈ ps, p ≤ q ∧ q < p + len p := by
  induction ps generalizing s with
  | nil =>
      simp only [Tiling] at h
      omega
  | cons p ps ih =>
      obtain ⟨rfl, hlen, h⟩ := h
      by_cases hq : q < p + len p
      · exact ⟨p, List.mem_cons_self, hs, hq⟩
      · obtain ⟨r, hr, hrq⟩ := ih h (by omega)
        exact ⟨r, List.mem_cons_of_mem p hr, hrq⟩

theorem congr (h : Tiling len s ps e) (heq : ∀ p ∈ ps, len' p = len p) : Tiling len' s ps e := by
  induction ps generalizing s with
  | nil => exact h
  | cons p ps ih =>
      obtain ⟨rfl, hlen, h⟩ := h
      have hp : len' p = len p := heq p List.mem_cons_self
      refine ⟨rfl, by omega, ?_⟩
      rw [hp]
      exact ih h fun q hq => heq q (List.mem_cons_of_mem p hq)

/-- The records are determined by the two places. -/
theorem unique (h : Tiling len s ps e) (h' : Tiling len s qs e) : ps = qs := by
  induction ps generalizing s qs with
  | nil =>
      cases qs with
      | nil => rfl
      | cons q qs =>
          obtain ⟨rfl, hlen, h'⟩ := h'
          have := h'.le
          simp only [Tiling] at h
          omega
  | cons p ps ih =>
      obtain ⟨rfl, hlen, h⟩ := h
      cases qs with
      | nil =>
          have := h.le
          simp only [Tiling] at h'
          omega
      | cons q qs =>
          obtain ⟨rfl, -, h'⟩ := h'
          rw [ih h h']

/-- The records of a tiling can be computed. -/
theorem starts_eq (h : Tiling len s ps e) {fuel : ℕ} (hfuel : e ≤ s + fuel) :
    starts len e fuel s = ps := by
  induction ps generalizing s fuel with
  | nil =>
      simp only [Tiling] at h
      cases fuel with
      | zero => rfl
      | succ fuel => rw [starts, if_neg (by omega)]
  | cons p ps ih =>
      obtain ⟨rfl, hlen, h⟩ := h
      have hle := h.le
      cases fuel with
      | zero => omega
      | succ fuel => rw [starts, if_pos ⟨by omega, hlen⟩, ih h (by omega)]

/-- A record swallows its successor. -/
theorem merge (h : Tiling len s (ps ++ p :: q :: qs) e) (hp : len' p = len p + len q)
    (hrest : ∀ r ∈ ps ++ qs, len' r = len r) : Tiling len' s (ps ++ p :: qs) e := by
  obtain ⟨_, h₁, rfl, hlen, rfl, -, h₂⟩ := append_iff.mp h
  refine append_iff.mpr ⟨p, h₁.congr fun r hr => hrest r (List.mem_append_left _ hr), rfl, by omega, ?_⟩
  rw [hp, ← Nat.add_assoc]
  exact h₂.congr fun r hr => hrest r (List.mem_append_right _ hr)

/-- A record is cut in two. -/
theorem split (h : Tiling len s (ps ++ p :: qs) e) (hp : 0 < len' p) (hq : 0 < len' (p + len' p))
    (hsum : len' p + len' (p + len' p) = len p) (hrest : ∀ r ∈ ps ++ qs, len' r = len r) :
    Tiling len' s (ps ++ p :: (p + len' p) :: qs) e := by
  obtain ⟨_, h₁, rfl, -, h₂⟩ := append_iff.mp h
  refine append_iff.mpr ⟨p, h₁.congr fun r hr => hrest r (List.mem_append_left _ hr), rfl, hp, rfl, hq,
    ?_⟩
  rw [Nat.add_assoc, hsum]
  exact h₂.congr fun r hr => hrest r (List.mem_append_right _ hr)

/-- The scan of records that are not over yet. -/
theorem scan_eq (h : Tiling len s (p :: ps) e) (hit : ℕ → Bool) {fuel : ℕ} (hfuel : e ≤ s + fuel) :
    scan len hit e fuel s = some ((p :: ps).find? hit) := by
  induction ps generalizing s p fuel with
  | nil =>
      obtain ⟨rfl, hlen, h⟩ := h
      simp only [Tiling] at h
      cases fuel with
      | zero => omega
      | succ fuel =>
          rw [scan, List.find?_cons]
          cases hit p with
          | true => rfl
          | false => simp [h]
  | cons q ps ih =>
      obtain ⟨rfl, hlen, h⟩ := h
      have hlt : p + len p < e := by
        obtain ⟨rfl, hlen', h⟩ := h
        have := h.le
        omega
      cases fuel with
      | zero => omega
      | succ fuel =>
          rw [scan, List.find?_cons]
          cases hit p with
          | true => rfl
          | false =>
              rw [if_neg (by simp), if_neg (by omega)]
              exact ih h (by omega)

end Tiling

end Shaunos
