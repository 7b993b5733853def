import Mathlib
import Shaunos.Mm.Buddy

/-!
# The search of `alloc_pages_lowmem`

Reference: `Kernel/mm.c` (`alloc_pages_lowmem`, `page_is_ok`).

The search goes through the low map from its first page on. Where it finds `nr` unused pages behind
each other it asks whether the *first* of them is reserved; if it is, it goes on `nr` pages further
on. It compares only the first page with the end of the map, so the last of the `nr` pages may be a
page of the upper map.

* `lowmemLoop_spec` — which run the search ends with: the first one it tries whose first page is not
  reserved;
* `lowmemReads_inside_iff` — when a search without a result stays inside the low map;
* `lowmem_right_iff` — when `alloc_pages_lowmem` does what its callers expect.
-/

namespace Shaunos.Mm

/-! ## The low map -/

/-- `mem_lower_map[i].count == -1`. -/
def State.LowUnused (s : State) (i : ℕ) : Prop := (s.page (i - s.lowmemPages)).count = -1

instance (s : State) : DecidablePred s.LowUnused := fun i =>
  inferInstanceAs (Decidable ((s.page (i - s.lowmemPages)).count = -1))

/-- `page_is_ok(&mem_lower_map[i])`. -/
def State.LowOk (s : State) (i : ℕ) : Prop := pageIsOk s (i - s.lowmemPages) = true

instance (s : State) : DecidablePred s.LowOk := fun i =>
  inferInstanceAs (Decidable (pageIsOk s (i - s.lowmemPages) = true))

/-- The address of `mem_lower_map[i]`'s page. -/
def lowAddr (i : ℕ) : BitVec 32 := 0xC0000000#32 + (BitVec.ofNat 32 i <<< pageShift)

/-- The map with the `nr` pages from `i` on in use, once each. -/
def State.lowTake (s : State) (i nr : ℕ) : State :=
  s.modifyRange (i - s.lowmemPages) nr fun pg => { pg with count := 0 }

/-- The entries that one pass of the outer loop of `alloc_pages_lowmem` looks at. -/
def lowmemPassReads (s : State) (nr i : ℕ) : List ℕ :=
  if s.LowUnused i then List.range' i (min nr (lowmemRun s i nr + 1)) else [i]

/-- The entries that the outer loop looks at, from `i` on. -/
def lowmemReads (s : State) (nr : ℕ) : ℕ → ℕ → List ℕ
  | 0, _ => []
  | fuel + 1, i =>
      if i < s.lowmemPages then
        lowmemPassReads s nr i ++
          if s.LowUnused i then
            if lowmemRun s i nr < nr ∨ ¬ s.LowOk i then
              lowmemReads s nr fuel (i + lowmemRun s i nr)
            else []
          else lowmemReads s nr fuel (i + 1)
      else []

/-- The `nr` pages from `i` on lie in the low map, and all of them are unused and not reserved. -/
def Suitable (s : State) (nr i : ℕ) : Prop :=
  i + nr ≤ s.lowmemPages ∧ ∀ j < nr, s.LowUnused (i + j) ∧ s.LowOk (i + j)

/-- `alloc_pages_lowmem` takes a suitable run, and only that, if there is one. Otherwise it returns
-1, changes nothing and does not look at a descriptor behind the low map. -/
def LowmemRight (s : State) (nr : ℕ) : Prop :=
  (∃ i, Suitable s nr i ∧ allocPagesLowmem s nr = (lowAddr i, s.lowTake i nr)) ∨
    (∀ i, ¬ Suitable s nr i) ∧ allocPagesLowmem s nr = (-1, s) ∧
      ∀ i ∈ lowmemReads s nr s.lowmemPages 0, i < s.lowmemPages

/-! ## Which pages the search tries -/

/-- Page `i` is a whole number of times `nr` behind the start `a` of an unused stretch that reaches
to it, and the pages that many steps of `nr` lead over are reserved. -/
def Tried (s : State) (nr i : ℕ) : Prop :=
  i < s.lowmemPages ∧ ∃ a k, i = a + k * nr ∧ (a = 0 ∨ ¬ s.LowUnused (a - 1)) ∧
    (∀ j, a ≤ j → j ≤ i → s.LowUnused j) ∧ ∀ l < k, ¬ s.LowOk (a + l * nr)

/-- What the search asks of the run at `i`: its pages are unused, and the first is not reserved. -/
def Open (s : State) (nr i : ℕ) : Prop := (∀ j < nr, s.LowUnused (i + j)) ∧ s.LowOk i

/-- The search meets a page in use before the end of the map, or has its `nr` pages before it. -/
def Stays (s : State) (nr i : ℕ) : Prop :=
  i + nr ≤ s.lowmemPages ∨ ∃ j, i ≤ j ∧ j < s.lowmemPages ∧ ¬ s.LowUnused j

/-- The first open run that is tried is suitable. -/
def LowmemServes (s : State) (nr : ℕ) : Prop :=
  ∃ i, Tried s nr i ∧ Open s nr i ∧ (∀ i' < i, Tried s nr i' → ¬ Open s nr i') ∧ Suitable s nr i

/-- The first open run that is tried is suitable; or none is open, none is suitable, and no run that
is tried reaches over the end of the map. -/
def LowmemFits (s : State) (nr : ℕ) : Prop :=
  LowmemServes s nr ∨
    (∀ i, Tried s nr i → ¬ Open s nr i) ∧ (∀ i, ¬ Suitable s nr i) ∧
      ∀ i, Tried s nr i → Stays s nr i

section

variable {s : State} {nr i : ℕ}

/-! ### The inner loop -/

theorem lowmemRun_eq_findIdx (s : State) (i nr : ℕ) :
    lowmemRun s i nr = (List.range nr).findIdx fun num => !decide (s.LowUnused (i + num)) := by
  have hcond : (fun num : ℕ => (s.page ((i + num : ℕ) - s.lowmemPages)).count == -1) =
      fun num => decide (s.LowUnused (i + num)) := by
    funext num
    rw [beq_eq_decide]
    rfl
  have hle : (List.range nr).findIdx (fun num => !decide (s.LowUnused (i + num))) ≤
      (List.range nr).length := List.findIdx_le_length
  rw [lowmemRun, hcond, List.takeWhile_eq_take_findIdx_not, List.length_take, Nat.min_eq_left hle]

theorem lowmemRun_le (s : State) (i nr : ℕ) : lowmemRun s i nr ≤ nr := by
  rw [lowmemRun_eq_findIdx]
  exact List.findIdx_le_length.trans List.length_range.le

theorem lowUnused_of_lt_lowmemRun {j : ℕ} (hj : j < lowmemRun s i nr) : s.LowUnused (i + j) := by
  rw [lowmemRun_eq_findIdx] at hj
  have h := List.not_of_lt_findIdx hj
  simpa using h

theorem not_lowUnused_lowmemRun (h : lowmemRun s i nr < nr) :
    ¬ s.LowUnused (i + lowmemRun s i nr) := by
  rw [lowmemRun_eq_findIdx] at h ⊢
  have hget := List.findIdx_getElem (w := by rwa [List.length_range])
  simpa using hget

/-- The run at `i` is open when the inner loop comes to its end and the first page is in order. -/
theorem open_iff : Open s nr i ↔ lowmemRun s i nr = nr ∧ s.LowOk i := by
  refine and_congr_left' ⟨fun h => ?_, fun h j hj => lowUnused_of_lt_lowmemRun (h.symm ▸ hj)⟩
  by_contra hne
  have hlt : lowmemRun s i nr < nr := lt_of_le_of_ne (lowmemRun_le s i nr) hne
  exact not_lowUnused_lowmemRun hlt (h _ hlt)

theorem Open.lowUnused (h : Open s nr i) (hnr : 0 < nr) : s.LowUnused i := h.1 0 hnr

instance (s : State) (nr : ℕ) : DecidablePred (Open s nr) := fun _ => decidable_of_iff' _ open_iff

/-- Where the outer loop goes on when it does not stop at `i`. -/
def lowmemNext (s : State) (nr i : ℕ) : ℕ :=
  if s.LowUnused i then i + lowmemRun s i nr else i + 1

theorem lt_lowmemNext (hnr : 0 < nr) : i < lowmemNext s nr i := by
  unfold lowmemNext
  split
  · rename_i hunused
    have hpos : lowmemRun s i nr ≠ 0 := by
      intro hzero
      have h := not_lowUnused_lowmemRun (s := s) (i := i) (hzero ▸ hnr)
      rw [hzero, Nat.add_zero] at h
      exact h hunused
    omega
  · omega

/-- `count++` on unused pages. -/
theorem modifyRange_of_lowUnused (h : ∀ j < nr, s.LowUnused (i + j)) :
    s.modifyRange (i - s.lowmemPages) nr (fun pg => { pg with count := pg.count + 1 }) =
      s.lowTake i nr := by
  unfold State.lowTake State.modifyRange
  congr 1
  funext p
  by_cases hp : (i - s.lowmemPages : ℤ) ≤ p ∧ p < i - s.lowmemPages + nr
  · have hcount := h (p - (i - s.lowmemPages)).toNat (by omega)
    rw [State.LowUnused, show ((i + (p - (i - s.lowmemPages)).toNat : ℕ) - s.lowmemPages : ℤ) = p by
      omega] at hcount
    rw [if_pos hp, if_pos hp]
    dsimp only
    rw [hcount]
    rfl
  · rw [if_neg hp, if_neg hp]

/-- One pass of the outer loop. -/
theorem allocPagesLowmemLoop_succ (hnr : 0 < nr) (fuel : ℕ) (hi : i < s.lowmemPages) :
    allocPagesLowmemLoop s nr (fuel + 1) i =
      if Open s nr i then (lowAddr i, s.lowTake i nr)
      else allocPagesLowmemLoop s nr fuel (lowmemNext s nr i) := by
  rw [allocPagesLowmemLoop, if_pos hi]
  by_cases hunused : s.LowUnused i
  · have hrun := lowmemRun_le s i nr
    rw [if_pos (beq_iff_eq.mpr hunused), lowmemNext, if_pos hunused]
    dsimp only
    by_cases hopen : Open s nr i
    · have hfound := open_iff.mp hopen
      have hskip : ¬ (lowmemRun s i nr < nr ∨ (!pageIsOk s (i - s.lowmemPages)) = true) := by
        rw [hfound.1, show pageIsOk s (i - s.lowmemPages) = true from hfound.2]
        simp
      rw [if_pos hopen, if_neg hskip, modifyRange_of_lowUnused hopen.1]
      rfl
    · have hskip : lowmemRun s i nr < nr ∨ (!pageIsOk s (i - s.lowmemPages)) = true := by
        by_contra h
        push Not at h
        have hok : s.LowOk i := by simpa [State.LowOk] using h.2
        exact hopen (open_iff.mpr ⟨le_antisymm hrun h.1, hok⟩)
      rw [if_neg hopen, if_pos hskip]
  · have hused : ¬ ((s.page (i - s.lowmemPages)).count == -1) = true := by
      rw [beq_iff_eq]
      exact hunused
    rw [if_neg hused, lowmemNext, if_neg hunused, if_neg fun h => hunused (h.lowUnused hnr)]

theorem lowmemReads_succ (hnr : 0 < nr) (fuel : ℕ) (hi : i < s.lowmemPages) :
    lowmemReads s nr (fuel + 1) i = lowmemPassReads s nr i ++
      if Open s nr i then [] else lowmemReads s nr fuel (lowmemNext s nr i) := by
  rw [lowmemReads, if_pos hi]
  congr 1
  by_cases hunused : s.LowUnused i
  · have hrun := lowmemRun_le s i nr
    rw [if_pos hunused, lowmemNext, if_pos hunused]
    by_cases hopen : Open s nr i
    · have hrun := open_iff.mp hopen
      rw [if_pos hopen, if_neg (by rw [hrun.1]; simp [hrun.2])]
    · have hskip : lowmemRun s i nr < nr ∨ ¬ s.LowOk i := by
        by_contra h
        push Not at h
        exact hopen (open_iff.mpr ⟨le_antisymm hrun h.1, h.2⟩)
      rw [if_neg hopen, if_pos hskip]
  · rw [if_neg hunused, lowmemNext, if_neg hunused, if_neg fun h => hunused (h.lowUnused hnr)]

/-! ### The pages the loop comes to -/

theorem Tried.lowUnused (h : Tried s nr i) : s.LowUnused i := by
  have ⟨_, a, k, hak, _, hall, _⟩ := h
  exact hall i (by rw [hak]; exact Nat.le_add_right a _) le_rfl

/-- A stretch of unused pages starts at one place only. -/
theorem start_le {a b : ℕ} (ha : a = 0 ∨ ¬ s.LowUnused (a - 1)) (hai : a ≤ i)
    (hall : ∀ j, b ≤ j → j ≤ i → s.LowUnused j) : a ≤ b := by
  by_contra hlt
  push Not at hlt
  rcases ha with rfl | ha
  · omega
  · exact ha (hall (a - 1) (by omega) (by omega))

/-- What holds of every page that the outer loop comes to. -/
def Reached (s : State) (nr i : ℕ) : Prop := i < s.lowmemPages → s.LowUnused i → Tried s nr i

theorem reached_of_used (h : i = 0 ∨ ¬ s.LowUnused (i - 1)) : Reached s nr i := by
  intro hi hunused
  refine ⟨hi, i, 0, by omega, h, ?_, fun l hl => absurd hl (Nat.not_lt_zero l)⟩
  intro j hij hji
  rwa [le_antisymm hji hij]

theorem Reached.next (h : Reached s nr i) (hi : i < s.lowmemPages) (hopen : ¬ Open s nr i) :
    Reached s nr (lowmemNext s nr i) := by
  by_cases hunused : s.LowUnused i
  · have hrun := lowmemRun_le s i nr
    rw [lowmemNext, if_pos hunused]
    intro hlt hnext
    rcases hrun.lt_or_eq with hless | heq
    · exact absurd hnext (not_lowUnused_lowmemRun hless)
    · -- the first page is reserved: one more step of `nr`
      have hresvd : ¬ s.LowOk i := fun hok => hopen (open_iff.mpr ⟨heq, hok⟩)
      have ⟨_, a, k, hak, hstart, hall, hsteps⟩ := h hi hunused
      refine ⟨hlt, a, k + 1, by rw [heq, hak]; ring, hstart, ?_, ?_⟩
      · intro j haj hj
        rcases Nat.lt_or_ge i j with hij | hij
        · rcases hj.lt_or_eq with hlast | rfl
          · have hmid := lowUnused_of_lt_lowmemRun (show j - i < lowmemRun s i nr by omega)
            rwa [show i + (j - i) = j by omega] at hmid
          · exact hnext
        · exact hall j haj hij
      · intro l hl
        rcases (Nat.lt_succ_iff_lt_or_eq.mp hl) with hl | rfl
        · exact hsteps l hl
        · rwa [← hak]
  · rw [lowmemNext, if_neg hunused]
    exact reached_of_used (.inr hunused)

/-- The loop leaves out no page that is to be tried. -/
theorem Reached.not_tried (h : Reached s nr i) (hi : i < s.lowmemPages) {i' : ℕ} (hlt : i < i')
    (hnext : i' < lowmemNext s nr i) : ¬ Tried s nr i' := by
  intro h'
  by_cases hunused : s.LowUnused i
  · rw [lowmemNext, if_pos hunused] at hnext
    have hrun := lowmemRun_le s i nr
    have ⟨_, a, k, hak, hstart, hall, _⟩ := h hi hunused
    have ⟨_, a', k', hak', hstart', hall', _⟩ := h'
    have hai : a ≤ i := hak ▸ Nat.le_add_right a _
    have hai' : a' ≤ i := by
      by_contra hgt
      push Not at hgt
      have ha' : a' ≤ i' := hak' ▸ Nat.le_add_right a' _
      have hmid := lowUnused_of_lt_lowmemRun (show a' - 1 - i < lowmemRun s i nr by omega)
      rw [show i + (a' - 1 - i) = a' - 1 by omega] at hmid
      rcases hstart' with rfl | hstart'
      · omega
      · exact hstart' hmid
    have haa : a = a' := le_antisymm
      (start_le hstart hai fun j hj hji => hall' j hj (hji.trans hlt.le))
      (start_le hstart' hai' hall)
    subst haa
    have hkk : k < k' := by
      by_contra hge
      push Not at hge
      have := Nat.mul_le_mul_right nr hge
      omega
    have hstep : (k + 1) * nr ≤ k' * nr := Nat.mul_le_mul_right nr hkk
    rw [Nat.succ_mul] at hstep
    omega
  · rw [lowmemNext, if_neg hunused] at hnext
    omega

/-! ### The whole search -/

/-- The search ends with the first open run that it tries. -/
theorem lowmemLoop_spec (hnr : 0 < nr) (fuel : ℕ) (hfuel : s.lowmemPages ≤ i + fuel)
    (hreach : Reached s nr i) (hpast : ∀ i' < i, Tried s nr i' → ¬ Open s nr i') :
    (∃ j, Tried s nr j ∧ Open s nr j ∧ (∀ i' < j, Tried s nr i' → ¬ Open s nr i') ∧
        allocPagesLowmemLoop s nr fuel i = (lowAddr j, s.lowTake j nr)) ∨
      (∀ j, Tried s nr j → ¬ Open s nr j) ∧ allocPagesLowmemLoop s nr fuel i = (-1, s) := by
  have hbehind (hi : ¬ i < s.lowmemPages) : ∀ j, Tried s nr j → ¬ Open s nr j := fun j hj =>
    hpast j (by have := hj.1; omega) hj
  induction fuel generalizing i with
  | zero => exact .inr ⟨hbehind (by omega), rfl⟩
  | succ fuel ih =>
      by_cases hi : i < s.lowmemPages
      · rw [allocPagesLowmemLoop_succ hnr fuel hi]
        by_cases hopen : Open s nr i
        · rw [if_pos hopen]
          exact .inl ⟨i, hreach hi (hopen.lowUnused hnr), hopen, hpast, rfl⟩
        · rw [if_neg hopen]
          have hlt := lt_lowmemNext (s := s) (i := i) hnr
          have hpast' : ∀ i' < lowmemNext s nr i, Tried s nr i' → ¬ Open s nr i' := by
            intro i' hi' htried
            rcases lt_trichotomy i' i with hless | rfl | hmore
            · exact hpast i' hless htried
            · exact hopen
            · exact absurd htried (hreach.not_tried hi hmore hi')
          refine ih (by omega) (hreach.next hi hopen) hpast' ?_
          intro hend j hj
          exact hpast' j (by have := hj.1; omega) hj
      · refine .inr ⟨hbehind hi, ?_⟩
        rw [allocPagesLowmemLoop, if_neg hi]

theorem passReads_inside_iff (hnr : 0 < nr) (hi : i < s.lowmemPages) (hreach : Reached s nr i) :
    (∀ j ∈ lowmemPassReads s nr i, j < s.lowmemPages) ↔ (Tried s nr i → Stays s nr i) := by
  by_cases hunused : s.LowUnused i
  · have hrun := lowmemRun_le s i nr
    have hreads : (∀ j ∈ lowmemPassReads s nr i, j < s.lowmemPages) ↔
        i + min nr (lowmemRun s i nr + 1) ≤ s.lowmemPages := by
      rw [lowmemPassReads, if_pos hunused]
      simp only [List.mem_range'_1]
      exact ⟨fun h => by have := h (i + min nr (lowmemRun s i nr + 1) - 1) (by omega); omega,
        fun h j hj => by omega⟩
    rw [hreads, imp_iff_right (hreach hi hunused)]
    constructor
    · intro h
      rcases hrun.lt_or_eq with hless | heq
      · exact .inr ⟨_, Nat.le_add_right i _, by omega, not_lowUnused_lowmemRun hless⟩
      · exact .inl (by omega)
    · rintro (hfit | ⟨j, hij, hj, hused⟩)
      · omega
      · have hge : lowmemRun s i nr ≤ j - i := by
          by_contra hlt
          push Not at hlt
          have hmid := lowUnused_of_lt_lowmemRun hlt
          rw [show i + (j - i) = j by omega] at hmid
          exact hused hmid
        omega
  · rw [lowmemPassReads, if_neg hunused]
    simp only [List.mem_singleton, forall_eq]
    exact iff_of_true hi fun h => absurd h.lowUnused hunused

/-- A search without a result stays inside the low map when no run it tries reaches over its end. -/
theorem lowmemReads_inside_iff (hnr : 0 < nr) (fuel : ℕ) (hfuel : s.lowmemPages ≤ i + fuel)
    (hreach : Reached s nr i) (hnone : ∀ j, Tried s nr j → ¬ Open s nr j) :
    (∀ j ∈ lowmemReads s nr fuel i, j < s.lowmemPages) ↔
      ∀ j, i ≤ j → Tried s nr j → Stays s nr j := by
  have hbehind (hi : ¬ i < s.lowmemPages) : ∀ j, i ≤ j → Tried s nr j → Stays s nr j :=
    fun j hij hj => absurd hj.1 (by omega)
  induction fuel generalizing i with
  | zero => exact iff_of_true (fun j hj => absurd hj List.not_mem_nil) (hbehind (by omega))
  | succ fuel ih =>
      by_cases hi : i < s.lowmemPages
      · have hopen : ¬ Open s nr i := fun h => hnone i (hreach hi (h.lowUnused hnr)) h
        have hlt := lt_lowmemNext (s := s) (i := i) hnr
        have hrest := ih (by omega) (hreach.next hi hopen) fun hend j hij hj =>
          absurd hj.1 (by omega)
        rw [lowmemReads_succ hnr fuel hi, if_neg hopen, List.forall_mem_append,
          passReads_inside_iff hnr hi hreach]
        refine (and_congr_right' hrest).trans ⟨?_, ?_⟩
        · rintro ⟨hhere, hlater⟩ j hij hj
          rcases hij.eq_or_lt with rfl | hij
          · exact hhere hj
          · rcases Nat.lt_or_ge j (lowmemNext s nr i) with hskip | hnext
            · exact absurd hj (hreach.not_tried hi hij hskip)
            · exact hlater j hnext hj
        · exact fun h => ⟨h i le_rfl, fun j hj => h j (hlt.le.trans hj)⟩
      · refine iff_of_true ?_ (hbehind hi)
        rw [lowmemReads, if_neg hi]
        exact fun j hj => absurd hj List.not_mem_nil

/-! ## When `alloc_pages_lowmem` is right -/

theorem lowTake_page {j : ℕ} (hj : j < nr) :
    ((s.lowTake i nr).page ((i + j : ℕ) - s.lowmemPages)).count = 0 := by
  unfold State.lowTake State.modifyRange
  dsimp only
  rw [if_pos ⟨by omega, by omega⟩]

theorem lowTake_page_of_lt {j : ℕ} (hj : j < i) :
    (s.lowTake i nr).page (j - s.lowmemPages) = s.page (j - s.lowmemPages) := by
  unfold State.lowTake State.modifyRange
  dsimp only
  rw [if_neg fun h => by omega]

theorem lowTake_ne (hnr : 0 < nr) (hopen : Open s nr i) : s.lowTake i nr ≠ s := by
  intro h
  have hzero := lowTake_page (s := s) (i := i) hnr
  have hunused : (s.page ((i + 0 : ℕ) - s.lowmemPages)).count = -1 := hopen.lowUnused hnr
  rw [h, hunused] at hzero
  exact absurd hzero (by decide)

/-- Which run was taken can be read off the map. -/
theorem le_of_lowTake_eq {j : ℕ} (hnr : 0 < nr) (hopen : s.LowUnused j)
    (h : s.lowTake i nr = s.lowTake j nr) : i ≤ j := by
  by_contra hlt
  push Not at hlt
  have hzero := lowTake_page (s := s) (i := j) hnr
  have hunused : (s.page ((j + 0 : ℕ) - s.lowmemPages)).count = -1 := hopen
  rw [← h, Nat.add_zero, lowTake_page_of_lt hlt] at hzero
  rw [Nat.add_zero, hzero] at hunused
  exact absurd hunused (by decide)

theorem Suitable.isOpen (h : Suitable s nr i) (hnr : 0 < nr) : Open s nr i :=
  ⟨fun j hj => (h.2 j hj).1, (h.2 0 hnr).2⟩

/-- What `alloc_pages_lowmem` does: it takes the first open run that it tries, or fails. -/
theorem allocPagesLowmem_spec (hnr : 0 < nr) :
    (∃ j, Tried s nr j ∧ Open s nr j ∧ (∀ i' < j, Tried s nr i' → ¬ Open s nr i') ∧
        allocPagesLowmem s nr = (lowAddr j, s.lowTake j nr)) ∨
      (∀ j, Tried s nr j → ¬ Open s nr j) ∧ allocPagesLowmem s nr = (-1, s) := by
  rw [allocPagesLowmem, if_neg (by omega), Int.toNat_natCast]
  exact lowmemLoop_spec hnr s.lowmemPages (by omega) (reached_of_used (.inl rfl))
    fun i' hi' => absurd hi' (Nat.not_lt_zero i')

/-- The run that is taken is suitable exactly when the search is served. -/
theorem serves_iff_suitable (htried : Tried s nr i) (hopen : Open s nr i)
    (hfirst : ∀ i' < i, Tried s nr i' → ¬ Open s nr i') :
    LowmemServes s nr ↔ Suitable s nr i := by
  refine ⟨?_, fun hsuit => ⟨i, htried, hopen, hfirst, hsuit⟩⟩
  rintro ⟨j, htried', hopen', hfirst', hsuit⟩
  rcases lt_trichotomy i j with hlt | rfl | hgt
  · exact absurd hopen (hfirst' i hlt htried)
  · exact hsuit
  · exact absurd hopen' (hfirst j hgt htried')

theorem not_serves (hnone : ∀ j, Tried s nr j → ¬ Open s nr j) : ¬ LowmemServes s nr :=
  fun ⟨j, htried, hopen, _⟩ => hnone j htried hopen

/-- `alloc_pages_lowmem` is right on exactly the maps on which the first open run it tries is
suitable, or on which there is no run to find and none that it tries reaches over the end. -/
theorem lowmem_right_iff (s : State) (nr : ℕ) (hnr : 0 < nr) :
    LowmemRight s nr ↔ LowmemFits s nr := by
  rcases allocPagesLowmem_spec (s := s) hnr with ⟨i, htried, hopen, hfirst, hres⟩ | ⟨hnone, hres⟩
  · rw [LowmemRight, LowmemFits, hres, serves_iff_suitable htried hopen hfirst]
    constructor
    · rintro (⟨j, hsuit, heq⟩ | ⟨_, heq, _⟩)
      · have htake := congrArg Prod.snd heq
        have hij : i = j := le_antisymm
          (le_of_lowTake_eq hnr ((hsuit.isOpen hnr).lowUnused hnr) htake)
          (le_of_lowTake_eq hnr (hopen.lowUnused hnr) htake.symm)
        exact .inl (hij ▸ hsuit)
      · exact absurd (congrArg Prod.snd heq) (lowTake_ne hnr hopen)
    · rintro (hsuit | ⟨hnone, _⟩)
      · exact .inl ⟨i, hsuit, rfl⟩
      · exact absurd hopen (hnone i htried)
  · have hreads := lowmemReads_inside_iff (i := 0) hnr s.lowmemPages (by omega)
      (reached_of_used (.inl rfl)) hnone
    rw [LowmemRight, LowmemFits, hres]
    constructor
    · rintro (⟨j, hsuit, heq⟩ | ⟨hno, _, hinside⟩)
      · exact absurd (congrArg Prod.snd heq).symm (lowTake_ne hnr (hsuit.isOpen hnr))
      · exact .inr ⟨hnone, hno, fun j => hreads.mp hinside j (Nat.zero_le j)⟩
    · rintro (hserves | ⟨_, hno, hstays⟩)
      · exact absurd hserves (not_serves hnone)
      · exact .inr ⟨hno, rfl, hreads.mpr fun j _ => hstays j⟩

end

/-! ## The map at boot -/

/-- The map that `mem_init` builds for 639 KiB of low memory: 158 pages, all unused and the first two
reserved. The pages behind them hold the kernel. -/
def bootLow : State where
  page i := if i < 0 then ⟨if i < -156 then Bitops.setBit pageResvd 0 else 0, -1, 0⟩
    else ⟨Bitops.setBit pageResvd 0, 1, 0⟩
  list := ⟨id, id⟩
  freeNum _ := 0
  buddyMapBase := 512
  lowmemPages := 158
  kernMemEnd := 0xC0300000#32

theorem lowmem_right_iff_boot : LowmemRight bootLow 16 ↔ LowmemFits bootLow 16 :=
  lowmem_right_iff bootLow 16 (by decide)

/-- A page address is not the failure value. -/
theorem lowAddr_ne (i : ℕ) : lowAddr i ≠ -1 := by
  change lowAddr i ≠ 0xFFFFFFFF#32
  intro h
  have hbit := congrArg (fun a : BitVec 32 => a.toNat % 2) h
  simp only [lowAddr, pageShift, BitVec.toNat_add, BitVec.toNat_shiftLeft, BitVec.toNat_ofNat,
    Nat.shiftLeft_eq] at hbit
  norm_num at hbit
  omega

/-- Half a mebibyte is asked for: the 128 pages from page 2 on are suitable, but the search goes on
at page 128, where 30 pages are left, and fails. -/
theorem lowmem_can_miss_run : ¬ ∀ (s : State) (nr : ℕ), 0 < nr → LowmemRight s nr := by
  intro hall
  have hres : (allocPagesLowmem bootLow (128 : ℕ)).1 = -1 := by decide +kernel
  have hsuit : Suitable bootLow 128 2 := ⟨by decide, by decide +kernel⟩
  rcases hall bootLow 128 (by decide) with ⟨i, _, heq⟩ | ⟨hno, _⟩
  · exact lowAddr_ne i ((congrArg Prod.fst heq).symm.trans hres)
  · exact hno 2 hsuit

end Shaunos.Mm
