import Shaunos.Common.RecordScan

/-!
# Walks over records

A walk does something at every record that a scan comes to. What is done at a record can depend on what was done
before, and says whether the walk goes on, and how far.

* `exists_walk` — a walk ends if it goes ahead with every step;
* `walk_invariant` — what every step keeps holds at the end;
* `mem_walk_iff` — what a walk over fixed records has logged;
* `WalkReaches.last` — what is so behind some record, and kept from there on, holds at the end.
-/

namespace Shaunos

variable {σ α : Type*}

/-- Do `act` at record after record, as long as they start before `e`. With what is done comes the length of the
record, if the walk goes on. -/
def walk (act : ℕ → σ → σ × Option ℕ) (e : ℕ) : (fuel p : ℕ) → σ → Option σ
  | 0, _, _ => none
  | fuel + 1, p, s =>
      if e ≤ p then some s
      else
        match act p s with
        | (s, none) => some s
        | (s, some len) => walk act e fuel (p + len) s

/-- The records that a walk comes to, each with what has been done before. -/
inductive WalkReaches (act : ℕ → σ → σ × Option ℕ) (e p : ℕ) (s : σ) : ℕ → σ → Prop
  | start : WalkReaches act e p s p s
  | next {q len : ℕ} {t t' : σ} : WalkReaches act e p s q t → q < e → act q t = (t', some len) →
      WalkReaches act e p s (q + len) t'

section

variable {act : ℕ → σ → σ × Option ℕ} {e p q fuel len : ℕ} {s s' r t : σ}

theorem walk_end (h : e ≤ p) : walk act e (fuel + 1) p s = some s := if_pos h

theorem walk_stop (h : p < e) (hact : act p s = (s', none)) : walk act e (fuel + 1) p s = some s' := by
  rw [walk, if_neg (Nat.not_le.mpr h), hact]

theorem walk_next (h : p < e) (hact : act p s = (s', some len)) :
    walk act e (fuel + 1) p s = walk act e fuel (p + len) s' := by
  rw [walk, if_neg (Nat.not_le.mpr h), hact]

/-- A walk ends if all records that it goes on behind have a length. -/
theorem exists_walk (hlen : ∀ p s s' len, p < e → act p s = (s', some len) → 0 < len) (hfuel : e ≤ p + fuel) :
    ∃ r, walk act e (fuel + 1) p s = some r := by
  induction fuel generalizing p s with
  | zero => exact ⟨s, walk_end hfuel⟩
  | succ fuel ih =>
      rcases Nat.lt_or_ge p e with hp | hp
      · cases hact : act p s with
        | mk s' next =>
            cases next with
            | none => exact ⟨s', walk_stop hp hact⟩
            | some len =>
                have hpos := hlen p s s' len hp hact
                rw [walk_next hp hact]
                exact ih (by omega)
      · exact ⟨s, walk_end hp⟩

/-- What holds at the start and is kept by every step holds at the end. -/
theorem walk_invariant {I : ℕ → σ → Prop} {J : σ → Prop} (hend : ∀ p s, e ≤ p → I p s → J s)
    (hstop : ∀ p s s', p < e → I p s → act p s = (s', none) → J s')
    (hnext : ∀ p s s' len, p < e → I p s → act p s = (s', some len) → I (p + len) s')
    (hs : I p s) (h : walk act e fuel p s = some r) : J r := by
  induction fuel generalizing p s with
  | zero => cases h
  | succ fuel ih =>
      rcases Nat.lt_or_ge p e with hp | hp
      · cases hact : act p s with
        | mk s' next =>
            cases next with
            | none =>
                rw [walk_stop hp hact] at h
                obtain rfl := Option.some.inj h
                exact hstop p s s' hp hs hact
            | some len =>
                rw [walk_next hp hact] at h
                exact ih (hnext p s s' len hp hs hact) h
      · rw [walk_end hp] at h
        obtain rfl := Option.some.inj h
        exact hend p s hp hs

theorem WalkReaches.le (h : WalkReaches act e p s q t) : p ≤ q := by
  induction h with
  | start => exact Nat.le_refl p
  | next _ _ _ ih => exact Nat.le_add_right_of_le ih

/-- A walk goes on from every record that it comes to. -/
theorem WalkReaches.rest (ht : WalkReaches act e p s q t) (h : walk act e fuel p s = some r) :
    ∃ fuel', walk act e fuel' q t = some r := by
  induction ht with
  | start => exact ⟨fuel, h⟩
  | next _ hlt hact ih =>
      obtain ⟨fuel', h⟩ := ih
      cases fuel' with
      | zero => cases h
      | succ fuel' =>
          rw [walk_next hlt hact] at h
          exact ⟨fuel', h⟩

/-- What is so behind a record that a walk comes to, and is kept by every step, holds at the end. -/
theorem WalkReaches.last {J : σ → Prop} (ht : WalkReaches act e p s q t) (hlt : q < e) (hJ : J (act q t).1)
    (hkeep : ∀ p s, J s → J (act p s).1) (h : walk act e fuel p s = some r) : J r := by
  obtain ⟨fuel', h⟩ := ht.rest h
  cases fuel' with
  | zero => cases h
  | succ fuel' =>
      have hstep (p : ℕ) (s s' : σ) (next : Option ℕ) (hs : J s) (hact : act p s = (s', next)) : J s' := by
        have hJ := hkeep p s hs
        rwa [hact] at hJ
      cases hact : act q t with
      | mk t' next =>
          rw [hact] at hJ
          cases next with
          | none =>
              rw [walk_stop hlt hact] at h
              obtain rfl := Option.some.inj h
              exact hJ
          | some len =>
              rw [walk_next hlt hact] at h
              exact walk_invariant (I := fun _ => J) (fun _ _ _ hs => hs) (fun p s s' _ => hstep p s s' none)
                (fun p s s' len _ => hstep p s s' (some len)) hJ h

theorem Visited.le {len : ℕ → ℕ} {stop : ℕ → Bool} (h : Visited len stop e p q) : p ≤ q := by
  induction h with
  | start => exact Nat.le_refl p
  | next _ _ _ ih => exact Nat.le_add_right_of_le ih

/-- Of two records that a scan comes to, it comes to one from the other. -/
theorem Visited.total {len : ℕ → ℕ} {stop : ℕ → Bool} {t : ℕ} (hp : Visited len stop e t p)
    (hq : Visited len stop e t q) : Visited len stop e p q ∨ Visited len stop e q p := by
  induction hp with
  | start => exact .inl hq
  | next _ hgo hlt ih =>
      rcases ih with h | h
      · rcases h.cases_head with rfl | ⟨_, _, h⟩
        · exact .inr (.next .start hgo hlt)
        · exact .inl h
      · exact .inr (.next h hgo hlt)

/-- No record comes behind the last. -/
theorem Visited.le_last {len : ℕ → ℕ} {stop : ℕ → Bool} {t : ℕ} (hp : Visited len stop e t p)
    (hq : Visited len stop e t q) (hlast : stop p = true ∨ e ≤ p + len p) : q ≤ p := by
  rcases hp.total hq with h | h
  · rcases h.cases_head with rfl | ⟨hgo, hlt, _⟩
    · exact Nat.le_refl q
    · rw [hgo] at hlast
      rcases hlast with hlast | hlast
      · cases hlast
      · omega
  · exact h.le

/-- A walk over records with fixed lengths has logged what is logged at the records that a scan comes to. -/
theorem mem_walk_iff {stop : ℕ → Bool} {len : ℕ → ℕ} {f : σ → List α} {g : ℕ → List α}
    (hlog : ∀ p s, f (act p s).1 = g p ++ f s)
    (hnext : ∀ p s, (act p s).2 = if stop p then none else some (len p)) {x : α} (hp : p < e)
    (h : walk act e fuel p s = some r) : x ∈ f r ↔ (∃ q, Visited len stop e p q ∧ x ∈ g q) ∨ x ∈ f s := by
  induction fuel generalizing p s with
  | zero => cases h
  | succ fuel ih =>
      have hlog := hlog p s
      have hnext := hnext p s
      cases hact : act p s with
      | mk s' next =>
          rw [hact] at hlog hnext
          dsimp only at hlog hnext
          have hhere : (∃ q, Visited len stop e p q ∧ x ∈ g q) ↔ x ∈ g p ∨
              stop p = false ∧ p + len p < e ∧ ∃ q, Visited len stop e (p + len p) q ∧ x ∈ g q := by
            constructor
            · rintro ⟨q, hq, hx⟩
              rcases hq.cases_head with rfl | ⟨hgo, hlt, hq⟩
              · exact .inl hx
              · exact .inr ⟨hgo, hlt, q, hq, hx⟩
            · rintro (hx | ⟨hgo, hlt, q, hq, hx⟩)
              · exact ⟨p, .start, hx⟩
              · exact ⟨q, hq.head hgo hlt, hx⟩
          rw [hhere]
          cases hstop : stop p with
          | true =>
              rw [hstop, if_pos rfl] at hnext
              subst hnext
              rw [walk_stop hp hact] at h
              obtain rfl := Option.some.inj h
              rw [hlog, List.mem_append]
              simp
          | false =>
              rw [hstop, if_neg (by simp)] at hnext
              subst hnext
              rw [walk_next hp hact] at h
              rcases Nat.lt_or_ge (p + len p) e with hlt | hge
              · rw [ih hlt h, hlog, List.mem_append]
                simp only [hlt, true_and]
                rw [or_left_comm, or_assoc]
              · cases fuel with
                | zero => cases h
                | succ fuel =>
                    rw [walk_end hge] at h
                    obtain rfl := Option.some.inj h
                    rw [hlog, List.mem_append]
                    simp [Nat.not_lt.mpr hge]

end

end Shaunos
