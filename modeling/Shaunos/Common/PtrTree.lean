import Mathlib

/-!
# Trees of pointers in a store

A store holds numbered nodes, and a node is an array of numbers of other nodes. The number 0 points
to nothing, and a node that cannot be read has no entries. `walk` follows a list of indices from a
root; `nodes` are the nodes of the tree of a given depth below a root, and `Separate` says that no
node occurs twice in it.

* `walk_congr`, `nodes_congr`, `separate_congr` — a tree depends on its own nodes only;
* `walk_zeros` — below a node full of zeros there is nothing.
-/

namespace Shaunos.PtrTree

/-- The entries of the nodes that can be read. -/
abbrev Store := ℕ → Option (ℕ → ℕ)

/-- Follow indices from `p`. -/
def walk (E : Store) : ℕ → List ℕ → Option ℕ
  | p, [] => some p
  | p, i :: is => if p = 0 then some 0 else (E p).bind fun e => walk E (e i) is

/-- The nodes of the tree with `d` levels at `p`. -/
def nodes (E : Store) : ℕ → ℕ → Set ℕ
  | 0, _ => ∅
  | d + 1, p => {b | p ≠ 0 ∧ (b = p ∨ ∃ e, E p = some e ∧ ∃ i, b ∈ nodes E d (e i))}

/-- No node occurs twice in the tree with `d` levels at `p`. -/
def Separate (E : Store) : ℕ → ℕ → Prop
  | 0, _ => True
  | d + 1, p => p ≠ 0 → ∀ e, E p = some e →
      (∀ i, p ∉ nodes E d (e i)) ∧ (∀ i j, i ≠ j → Disjoint (nodes E d (e i)) (nodes E d (e j))) ∧
        ∀ i, Separate E d (e i)

/-- Every node on the way is there. -/
def Complete (E : Store) : ℕ → List ℕ → Prop
  | _, [] => True
  | p, i :: is => p ≠ 0 ∧ ∀ e, E p = some e → Complete E (e i) is

section

variable {E E' : Store} {d p : ℕ}

theorem walk_cons_of_ne {e : ℕ → ℕ} (hp : p ≠ 0) (he : E p = some e) (i : ℕ) (is : List ℕ) :
    walk E p (i :: is) = walk E (e i) is := by
  rw [walk, if_neg hp, he, Option.bind_some]

@[simp] theorem walk_zero (E : Store) (is : List ℕ) : walk E 0 is = some 0 := by
  cases is with
  | nil => rfl
  | cons i is => rw [walk, if_pos rfl]

@[simp] theorem nodes_zero (E : Store) (d : ℕ) : nodes E d 0 = ∅ := by
  cases d with
  | zero => rfl
  | succ d =>
      rw [nodes, Set.eq_empty_iff_forall_notMem]
      rintro b ⟨h, -⟩
      exact h rfl

theorem separate_zero (E : Store) (d : ℕ) : Separate E d 0 := by
  cases d with
  | zero => trivial
  | succ d => exact fun h => absurd rfl h

/-- The root is a node. -/
theorem root_mem_nodes (E : Store) (d : ℕ) (hp : p ≠ 0) : p ∈ nodes E (d + 1) p := ⟨hp, Or.inl rfl⟩

/-- The nodes below a node are nodes. -/
theorem nodes_child_subset {e : ℕ → ℕ} (hp : p ≠ 0) (he : E p = some e) (i : ℕ) :
    nodes E d (e i) ⊆ nodes E (d + 1) p := fun _ hb => ⟨hp, Or.inr ⟨e, he, i, hb⟩⟩

theorem nodes_congr (h : ∀ b ∈ nodes E d p, E' b = E b) : nodes E' d p = nodes E d p := by
  induction d generalizing p with
  | zero => rfl
  | succ d ih =>
      by_cases hp : p = 0
      · subst hp
        simp
      have hroot : E' p = E p := h p (root_mem_nodes E d hp)
      ext b
      refine and_congr_right fun _ => or_congr_right ?_
      rw [hroot]
      refine exists_congr fun e => and_congr_right fun he => exists_congr fun i => ?_
      rw [ih fun b hb => h b (nodes_child_subset hp he i hb)]

theorem walk_congr (h : ∀ b ∈ nodes E d p, E' b = E b) {is : List ℕ} (hlen : is.length ≤ d) :
    walk E' p is = walk E p is := by
  induction is generalizing p d with
  | nil => rfl
  | cons i is ih =>
      by_cases hp : p = 0
      · subst hp
        simp
      cases d with
      | zero => simp at hlen
      | succ d =>
          rw [walk, walk, if_neg hp, if_neg hp, h p (root_mem_nodes E d hp)]
          refine Option.bind_congr fun e he => ih (d := d) (fun b hb => ?_) (by simpa using hlen)
          exact h b (nodes_child_subset hp he i hb)

theorem separate_congr (h : ∀ b ∈ nodes E d p, E' b = E b) (hs : Separate E d p) :
    Separate E' d p := by
  induction d generalizing p with
  | zero => trivial
  | succ d ih =>
      intro hp e he
      rw [h p (root_mem_nodes E d hp)] at he
      obtain ⟨h₁, h₂, h₃⟩ := hs hp e he
      have hchild : ∀ i, ∀ b ∈ nodes E d (e i), E' b = E b := fun i b hb =>
        h b (nodes_child_subset hp he i hb)
      refine ⟨fun i => ?_, fun i j hij => ?_, fun i => ih (hchild i) (h₃ i)⟩
      · rw [nodes_congr (hchild i)]
        exact h₁ i
      · rw [nodes_congr (hchild i), nodes_congr (hchild j)]
        exact h₂ i j hij

theorem complete_congr (h : ∀ b ∈ nodes E d p, E' b = E b) {is : List ℕ} (hlen : is.length ≤ d) :
    Complete E' p is ↔ Complete E p is := by
  induction is generalizing p d with
  | nil => rfl
  | cons i is ih =>
      refine and_congr_right fun hp => ?_
      cases d with
      | zero => simp at hlen
      | succ d =>
          rw [h p (root_mem_nodes E d hp)]
          refine forall_congr' fun e => forall_congr' fun he => ?_
          exact ih (d := d) (fun b hb => h b (nodes_child_subset hp he i hb)) (by simpa using hlen)

/-- A way that leads somewhere is complete. -/
theorem complete_of_walk {is : List ℕ} {b : ℕ} (hb : b ≠ 0) (h : walk E p is = some b) :
    Complete E p is := by
  induction is generalizing p with
  | nil => trivial
  | cons i is ih =>
      have hp : p ≠ 0 := by
        rintro rfl
        rw [walk_zero] at h
        exact hb (Option.some.inj h).symm
      refine ⟨hp, fun e he => ?_⟩
      rw [walk_cons_of_ne hp he] at h
      exact ih h

/-- Below a node full of zeros there is nothing. -/
theorem walk_zeros (hp : E p = some fun _ => 0) {is : List ℕ} (hne : is ≠ []) :
    walk E p is = some 0 := by
  cases is with
  | nil => exact absurd rfl hne
  | cons i is =>
      by_cases h0 : p = 0
      · subst h0
        simp
      · rw [walk_cons_of_ne h0 hp, walk_zero]

theorem nodes_zeros (hp : E p = some fun _ => 0) : nodes E (d + 1) p ⊆ {p} := by
  rintro b ⟨-, rfl | ⟨e, he, i, hb⟩⟩
  · rfl
  · rw [hp] at he
    obtain rfl := Option.some.inj he
    simp at hb

theorem separate_zeros (hp : E p = some fun _ => 0) : Separate E (d + 1) p := by
  intro _ e he
  rw [hp] at he
  obtain rfl := Option.some.inj he
  exact ⟨by simp, by simp, fun _ => separate_zero E d⟩

end

/-! ## Changing one entry of a node -/

section

variable {E E' : Store} {d p i q : ℕ} {e : ℕ → ℕ}

/-- The tree after entry `i` of its root was changed to `q` and the tree below `q` appeared: its
nodes are among the old ones and those below `q`. -/
theorem nodes_of_update (hp : p ≠ 0) (he : E p = some e) (he' : E' p = some (Function.update e i q))
    (hother : ∀ j, j ≠ i → ∀ b ∈ nodes E d (e j), E' b = E b) :
    nodes E' (d + 1) p ⊆ nodes E (d + 1) p ∪ nodes E' d q := by
  rintro b ⟨-, rfl | ⟨f, hf, j, hb⟩⟩
  · exact Or.inl (root_mem_nodes E d hp)
  · rw [he'] at hf
    obtain rfl := Option.some.inj hf
    by_cases hj : j = i
    · subst hj
      rw [Function.update_self] at hb
      exact Or.inr hb
    · rw [Function.update_of_ne hj, nodes_congr (hother j hj)] at hb
      exact Or.inl (nodes_child_subset hp he j hb)

/-- The changed tree is separate when the tree below `q` is and shares no node with the rest. -/
theorem separate_of_update (hs : Separate E (d + 1) p) (hp : p ≠ 0) (he : E p = some e)
    (he' : E' p = some (Function.update e i q))
    (hother : ∀ j, j ≠ i → ∀ b ∈ nodes E d (e j), E' b = E b) (hq : Separate E' d q)
    (hpq : p ∉ nodes E' d q) (hdisj : ∀ j, j ≠ i → Disjoint (nodes E d (e j)) (nodes E' d q)) :
    Separate E' (d + 1) p := by
  obtain ⟨h₁, h₂, h₃⟩ := hs hp e he
  have hself : Function.update e i q i = q := Function.update_self i q e
  have hne : ∀ j, j ≠ i → Function.update e i q j = e j := fun j hj => Function.update_of_ne hj q e
  intro _ f hf
  rw [he'] at hf
  obtain rfl := Option.some.inj hf
  refine ⟨fun j => ?_, fun j k hjk => ?_, fun j => ?_⟩
  · by_cases hj : j = i
    · subst hj
      rwa [hself]
    · rw [hne j hj, nodes_congr (hother j hj)]
      exact h₁ j
  · by_cases hj : j = i
    · subst hj
      rw [hself, hne k (Ne.symm hjk), nodes_congr (hother k (Ne.symm hjk))]
      exact (hdisj k (Ne.symm hjk)).symm
    · by_cases hk : k = i
      · subst hk
        rw [hself, hne j hj, nodes_congr (hother j hj)]
        exact hdisj j hj
      · rw [hne j hj, hne k hk, nodes_congr (hother j hj), nodes_congr (hother k hk)]
        exact h₂ j k hjk
  · by_cases hj : j = i
    · subst hj
      rwa [hself]
    · rw [hne j hj]
      exact separate_congr (hother j hj) (h₃ j)

end

end Shaunos.PtrTree
