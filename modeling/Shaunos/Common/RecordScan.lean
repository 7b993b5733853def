import Shaunos.Common.Tiling

/-!
# Scans that watch their steps

A scan goes from record to record by the lengths that the records name. When the lengths come from
outside, a record can lie where it must not be looked at, and a length 0 keeps the scan where it is.
`checkedScan` is a scan that stops with a fault at a record that is not safe to look at; `Visited`
are the records it comes to.

* `checkedScan_ok_iff` — a scan ends without a fault when all records it comes to are safe, and all
  but the last have a length;
* `scan_of_checkedScan` — it finds what a scan finds that does not watch.
-/

namespace Shaunos

/-- How a run goes wrong. -/
inductive Fault where
  /-- Memory outside of a buffer is used. -/
  | outside
  /-- The run is not over. -/
  | endless
  /-- A function that is called does not come back. -/
  | callee
  deriving DecidableEq

/-- Go from record to record, as long as they start before `e`: the first at which the scan stops. -/
def checkedScan (len : ℕ → ℕ) (ok stop : ℕ → Bool) (e : ℕ) : (fuel s : ℕ) → Except Fault (Option ℕ)
  | 0, _ => .error .endless
  | fuel + 1, s =>
      if ok s = false then .error .outside
      else if stop s then .ok (some s)
      else if e ≤ s + len s then .ok none
      else checkedScan len ok stop e fuel (s + len s)

/-- The records that a scan from `s` comes to. -/
inductive Visited (len : ℕ → ℕ) (stop : ℕ → Bool) (e s : ℕ) : ℕ → Prop
  | start : Visited len stop e s s
  | next {p : ℕ} (h : Visited len stop e s p) (hgo : stop p = false) (hlt : p + len p < e) :
      Visited len stop e s (p + len p)

/-- All records that a scan comes to are safe to look at, and all but the last have a length. -/
def SafeScan (len : ℕ → ℕ) (ok stop : ℕ → Bool) (e s : ℕ) : Prop :=
  ∀ p, Visited len stop e s p → ok p = true ∧ (stop p = true ∨ 0 < len p)

/-- The scan stops at a record. -/
def Stops (len : ℕ → ℕ) (stop : ℕ → Bool) (e s : ℕ) : Prop :=
  ∃ p, Visited len stop e s p ∧ stop p = true

section

variable {len : ℕ → ℕ} {ok stop : ℕ → Bool} {e s p q fuel fuel' : ℕ} {r : Option ℕ}

theorem Visited.head (hgo : stop s = false) (hlt : s + len s < e)
    (h : Visited len stop e (s + len s) p) : Visited len stop e s p := by
  induction h with
  | start => exact .next .start hgo hlt
  | next _ hgo' hlt' ih => exact .next ih hgo' hlt'

/-- The first record, or one behind it. -/
theorem Visited.cases_head (h : Visited len stop e s p) :
    p = s ∨ stop s = false ∧ s + len s < e ∧ Visited len stop e (s + len s) p := by
  induction h with
  | start => exact Or.inl rfl
  | next h hgo hlt ih =>
      rcases ih with rfl | ⟨hs, hse, hp⟩
      · exact Or.inr ⟨hgo, hlt, .start⟩
      · exact Or.inr ⟨hs, hse, .next hp hgo hlt⟩

theorem Visited.lt (h : Visited len stop e s p) (hs : s < e) : p < e := by
  cases h with
  | start => exact hs
  | next _ _ hlt => exact hlt

theorem checkedScan_mono (h : checkedScan len ok stop e fuel s = .ok r) (hle : fuel ≤ fuel') :
    checkedScan len ok stop e fuel' s = .ok r := by
  induction fuel generalizing s fuel' with
  | zero => exact absurd h (by simp [checkedScan])
  | succ fuel ih =>
      obtain ⟨fuel', rfl⟩ : ∃ f, fuel' = f + 1 := ⟨fuel' - 1, by omega⟩
      rw [checkedScan] at h ⊢
      split at h
      · exact absurd h (by simp)
      · rename_i hok
        rw [if_neg hok]
        split at h
        · rename_i hstop
          rw [if_pos hstop]
          exact h
        · rename_i hstop
          rw [if_neg hstop]
          split at h
          · rename_i hend
            rw [if_pos hend]
            exact h
          · rename_i hend
            rw [if_neg hend]
            exact ih h (by omega)

/-- What a scan that ends without a fault has seen. -/
theorem checkedScan_spec (hs : s < e) (h : checkedScan len ok stop e fuel s = .ok r) :
    SafeScan len ok stop e s ∧
      (∀ p, Visited len stop e s p → stop p = true → r = some p) ∧
      ∀ p ∈ r, Visited len stop e s p ∧ stop p = true := by
  induction fuel generalizing s with
  | zero => exact absurd h (by simp [checkedScan])
  | succ fuel ih =>
      rw [checkedScan] at h
      split at h
      · exact absurd h (by simp)
      rename_i hok
      have hok' : ok s = true := by simpa using hok
      split at h
      · -- the scan stops here
        rename_i hstop
        obtain rfl := Except.ok.inj h
        have honly : ∀ p, Visited len stop e s p → p = s := by
          intro p hp
          rcases hp.cases_head with heq | ⟨hgo, -⟩
          · exact heq
          · rw [hstop] at hgo
            exact absurd hgo (by simp)
        refine ⟨fun p hp => ?_, fun p hp _ => by rw [honly p hp], fun p hp => ?_⟩
        · rw [honly p hp]
          exact ⟨hok', Or.inl hstop⟩
        · obtain rfl := Option.some.inj hp
          exact ⟨.start, hstop⟩
      rename_i hstop
      have hgo : stop s = false := by simpa using hstop
      split at h
      · -- the last record
        rename_i hend
        obtain rfl := Except.ok.inj h
        have honly : ∀ p, Visited len stop e s p → p = s := by
          intro p hp
          rcases hp.cases_head with heq | ⟨-, hlt, -⟩
          · exact heq
          · omega
        refine ⟨fun p hp => ?_, fun p hp hp' => ?_, fun p hp => absurd hp (by simp)⟩
        · rw [honly p hp]
          exact ⟨hok', Or.inr (by omega)⟩
        · rw [honly p hp, hgo] at hp'
          exact absurd hp' (by simp)
      · rename_i hend
        have hlt : s + len s < e := by omega
        obtain ⟨h₁, h₂, h₃⟩ := ih hlt h
        refine ⟨fun p hp => ?_, fun p hp hp' => ?_, fun p hp => ?_⟩
        · rcases hp.cases_head with rfl | ⟨-, -, hp⟩
          · refine ⟨hok', Or.inr ?_⟩
            by_contra hzero
            obtain hz : len p = 0 := by omega
            have hself := (h₁ (p + len p) .start).2
            rw [hz, Nat.add_zero, hgo, hz] at hself
            exact absurd hself (by simp)
          · exact h₁ p hp
        · rcases hp.cases_head with rfl | ⟨-, -, hp⟩
          · rw [hgo] at hp'
            exact absurd hp' (by simp)
          · exact h₂ p hp hp'
        · obtain ⟨hv, hstop'⟩ := h₃ p hp
          exact ⟨hv.head hgo hlt, hstop'⟩

/-- A scan ends when every record it comes to is safe, and takes it on. -/
theorem exists_checkedScan (n : ℕ) (hn : e ≤ s + n + 1) (h : SafeScan len ok stop e s) :
    ∃ r, checkedScan len ok stop e (n + 1) s = .ok r := by
  induction n generalizing s with
  | zero =>
      obtain ⟨hok, hstep⟩ := h s .start
      rw [checkedScan, if_neg (by simp [hok])]
      split
      · exact ⟨_, rfl⟩
      · rename_i hstop
        have hlen : 0 < len s := hstep.resolve_left hstop
        rw [if_pos (by omega)]
        exact ⟨_, rfl⟩
  | succ n ih =>
      obtain ⟨hok, hstep⟩ := h s .start
      rw [checkedScan, if_neg (by simp [hok])]
      split
      · exact ⟨_, rfl⟩
      rename_i hstop
      have hgo : stop s = false := by simpa using hstop
      have hlen : 0 < len s := hstep.resolve_left hstop
      split
      · exact ⟨_, rfl⟩
      · exact ih (by omega) fun p hp => h p (hp.head hgo (by omega))

/-- **When a scan ends without a fault.** -/
theorem checkedScan_ok_iff (hs : s < e) (hfuel : e - s ≤ fuel) :
    (∃ r, checkedScan len ok stop e fuel s = .ok r) ↔ SafeScan len ok stop e s := by
  constructor
  · rintro ⟨r, h⟩
    exact (checkedScan_spec hs h).1
  · intro h
    obtain ⟨r, hr⟩ := exists_checkedScan (e - s - 1) (by omega) h
    exact ⟨r, checkedScan_mono hr (by omega)⟩

/-- It finds a record when it stops at one. -/
theorem checkedScan_isSome_iff (hs : s < e) (h : checkedScan len ok stop e fuel s = .ok r) :
    r.isSome = true ↔ Stops len stop e s := by
  obtain ⟨-, hfound, hmem⟩ := checkedScan_spec hs h
  constructor
  · intro hr
    obtain ⟨p, rfl⟩ := Option.isSome_iff_exists.mp hr
    exact ⟨p, hmem p rfl⟩
  · rintro ⟨p, hp, hstop⟩
    rw [hfound p hp hstop]
    rfl

/-- A scan that ends without a fault finds what the scan that does not look finds. -/
theorem scan_of_checkedScan (h : checkedScan len ok stop e fuel s = .ok r) :
    scan len stop e fuel s = some r := by
  induction fuel generalizing s with
  | zero => exact absurd h (by simp [checkedScan])
  | succ fuel ih =>
      rw [checkedScan] at h
      rw [scan]
      split at h
      · exact absurd h (by simp)
      split at h
      · rename_i hstop
        obtain rfl := Except.ok.inj h
        rw [if_pos hstop]
      · rename_i hstop
        rw [if_neg hstop]
        split at h
        · rename_i hend
          obtain rfl := Except.ok.inj h
          rw [if_pos hend]
        · rename_i hend
          rw [if_neg hend]
          exact ih h

end

/-! ## Lists of blocks -/

/-- `P` holds of the blocks up to the first that stops the search, and `E` holds if none does. -/
def UpTo (P stops : ℕ → Prop) (E : Prop) : List ℕ → Prop
  | [] => E
  | b :: bs => P b ∧ (stops b ∨ UpTo P stops E bs)

end Shaunos
