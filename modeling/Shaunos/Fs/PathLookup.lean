import Mathlib.Data.List.Basic
import Mathlib.Data.List.TakeWhile
import Mathlib.Tactic.Common

/-!
# Looking up a path

Reference: `Kernel/vfs.c` (`vfs_path_lookup`), `Kernel/ext2.c` (`ext2_lookup`), `lib/string.c`
(`strchr`, `strncpy`).

The walk uses two vnodes, the one it starts at and one that it allocates. Every lookup writes the id
it finds into the second one, also when that is the directory it looks in.

* `pathLoop_eq` — the loop over the string is a walk over its components.
-/

namespace Shaunos.Fs

/-! ## The code -/

/-- A component of a path. -/
abbrev Name := List Char

/-- The vnodes of a walk. -/
inductive Vnode where
  /-- `pv`, or the root of its mount point. -/
  | given
  /-- `nextv`, from `vfs_alloc_vnode`. -/
  | next
deriving DecidableEq

/-- `currv` and `pntv`, with the `v_id` of `nextv`. -/
structure Walk where
  currv : Vnode
  pntv : Vnode
  nextId : BitVec 32

/-- The `v_id` of a vnode, where `givenId` is the one of the start. -/
def Walk.vId (w : Walk) (givenId : BitVec 32) : Vnode → BitVec 32
  | .given => givenId
  | .next => w.nextId

/-- `strchr`: the string before the character, and the string behind it. -/
def strchr (c : Char) : List Char → Option (List Char × List Char)
  | [] => none
  | a :: s => if a = c then some ([], s) else (strchr c s).map fun (p, r) => (a :: p, r)

theorem strchr_eq_some {c : Char} {s p r : List Char} (h : strchr c s = some (p, r)) :
    s = p ++ c :: r ∧ c ∉ p := by
  induction s generalizing p with
  | nil => cases h
  | cons a s ih =>
      unfold strchr at h
      split at h
      · rename_i hac
        obtain ⟨rfl, rfl⟩ := Prod.mk.inj (Option.some.inj h)
        exact ⟨by rw [hac, List.nil_append], List.not_mem_nil⟩
      · rename_i hac
        obtain ⟨⟨p', r'⟩, hs, heq⟩ := Option.map_eq_some_iff.mp h
        obtain ⟨rfl, rfl⟩ := Prod.mk.inj heq
        obtain ⟨rfl, hp⟩ := ih hs
        exact ⟨rfl, by simp [hp, Ne.symm hac]⟩

theorem strchr_eq_none {c : Char} {s : List Char} (h : strchr c s = none) : c ∉ s := by
  induction s with
  | nil => exact List.not_mem_nil
  | cons a s ih =>
      unfold strchr at h
      split at h
      · cases h
      · rename_i hac
        simp [ih (Option.map_eq_none_iff.mp h), Ne.symm hac]

/-- Skip slashes. -/
def skipSlashes (s : List Char) : List Char := s.dropWhile (· == '/')

theorem length_skipSlashes {c : Char} {s p r : List Char} (h : strchr c s = some (p, r)) :
    (skipSlashes r).length < s.length := by
  have hle : (skipSlashes r).length ≤ r.length := (List.dropWhile_sublist _).length_le
  rw [(strchr_eq_some h).1]
  simp only [List.length_append, List.length_cons]
  omega

/-- `ext2_lookup`, with what `ext2_dir_find_entry` finds: it writes the id of the new vnode and nothing
else. -/
def ext2Lookup (findEntry : BitVec 32 → Name → Option (BitVec 32)) (pvId : BitVec 32) (path : Name)
    (newId : BitVec 32) : ℤ × BitVec 32 :=
  match findEntry pvId path with
  | none => (-2, newId)
  | some dInode => (0, dInode)

/-- The loop of `vfs_path_lookup` at `p`. -/
def pathLoop (lookup : BitVec 32 → Name → Option (BitVec 32)) (givenId : BitVec 32) (p : List Char)
    (w : Walk) : Option (Walk × Name) :=
  match _hp : strchr '/' p with
  | none => some (w, p)
  | some (name, rest) =>
      let slash := skipSlashes rest
      if name = ['.'] then pathLoop lookup givenId slash w
      else if name = ['.', '.'] then pathLoop lookup givenId slash { w with currv := w.pntv }
      else if slash.head? = none ∨ slash.head? = some '\n' then some (w, name)
      else
        let (retval, nextId) := ext2Lookup lookup (w.vId givenId w.currv) name w.nextId
        if retval < 0 then none
        else pathLoop lookup givenId slash { currv := .next, pntv := w.currv, nextId := nextId }
  termination_by p.length
  decreasing_by all_goals exact length_skipSlashes (by assumption)

/-- The vnode that `vfs_path_lookup` returns, and the suffix. -/
structure Found where
  vnode : Vnode
  vId : BitVec 32
  suffix : Name
  /-- `nextv` was given back to the heap. -/
  freed : Bool

/-- `vfs_path_lookup`. `strncpy` copies `NAME_MAX` characters and adds the terminator. -/
def vfsPathLookup (lookup : BitVec 32 → Name → Option (BitVec 32)) (rootId pvId : BitVec 32)
    (path : List Char) : Option Found :=
  let (givenId, p) := if path.head? = some '/' then (rootId, skipSlashes path) else (pvId, path)
  (pathLoop lookup givenId p { currv := .given, pntv := .given, nextId := 0 }).map fun (w, p) =>
    { vnode := w.currv, vId := w.vId givenId w.currv, suffix := p.take 256, freed := w.nextId = 0 }

/-! ## The loop as a walk over components -/

/-- The components of a path. -/
def components (path : List Char) : List Name := (path.splitOn '/').filter (· ≠ [])

/-- `.` and `..`. -/
def Dots (name : Name) : Prop := name = ['.'] ∨ name = ['.', '.']

instance (name : Name) : Decidable (Dots name) := inferInstanceAs (Decidable (_ ∨ _))

/-- The components that the loop walks down, and the suffix that it ends with. A slash behind the last
component makes `.` and `..` part of the walk, and a component that starts with a newline ends it. -/
def stops : List Name → Bool → List Name × Name
  | [], _ => ([], [])
  | name :: rest, trailing =>
      if rest = [] ∧ trailing = false then ([], name)
      else if ¬ Dots name ∧ (rest = [] ∨ (rest.headD []).head? = some '\n') then ([], name)
      else (name :: (stops rest trailing).1, (stops rest trailing).2)

/-- What the loop does with the components that it walks down. -/
def walkNames (lookup : BitVec 32 → Name → Option (BitVec 32)) (givenId : BitVec 32) :
    Walk → List Name → Option Walk
  | w, [] => some w
  | w, name :: rest =>
      if name = ['.'] then walkNames lookup givenId w rest
      else if name = ['.', '.'] then walkNames lookup givenId { w with currv := w.pntv } rest
      else (lookup (w.vId givenId w.currv) name).bind fun id =>
        walkNames lookup givenId { currv := .next, pntv := w.currv, nextId := id } rest

section

variable {lookup : BitVec 32 → Name → Option (BitVec 32)} {givenId : BitVec 32}

theorem components_cons_slash (s : List Char) : components ('/' :: s) = components s := by
  unfold components
  rw [show '/' :: s = [] ++ '/' :: s from rfl,
    List.splitOn_append_cons_self_of_not_mem List.not_mem_nil]
  simp

theorem components_skipSlashes (s : List Char) : components (skipSlashes s) = components s := by
  induction s with
  | nil => rfl
  | cons c s ih =>
      by_cases hc : c = '/'
      · subst hc
        rw [components_cons_slash, ← ih]
        rfl
      · simp [skipSlashes, hc]

theorem components_append {name : Name} (hname : '/' ∉ name) (hne : name ≠ []) (s : List Char) :
    components (name ++ '/' :: s) = name :: components s := by
  unfold components
  rw [List.splitOn_append_cons_self_of_not_mem hname]
  simp [hne]

theorem components_of_notMem {s : List Char} (hs : '/' ∉ s) (hne : s ≠ []) : components s = [s] := by
  unfold components
  rw [List.splitOn_eq_singleton hs]
  simp [hne]

theorem components_nil : components [] = [] := by
  simp [components]

theorem head_skipSlashes (s : List Char) : (skipSlashes s).head? ≠ some '/' := by
  induction s with
  | nil => simp [skipSlashes]
  | cons c s ih =>
      by_cases hc : c = '/'
      · subst hc
        exact ih
      · simp [skipSlashes, hc]

/-- A string that does not start with a slash is empty if it has no components. -/
theorem components_eq_nil {s : List Char} (hs : s.head? ≠ some '/') (h : components s = []) :
    s = [] := by
  cases hsl : strchr '/' s with
  | none =>
      by_contra hne
      rw [components_of_notMem (strchr_eq_none hsl) hne] at h
      cases h
  | some q =>
      obtain ⟨rfl, hnot⟩ := strchr_eq_some hsl
      have hne : q.1 ≠ [] := by
        intro hq
        simp [hq] at hs
      rw [components_append hnot hne] at h
      cases h

/-- The first component is what the string starts with. -/
theorem head_components {s : List Char} (hs : s.head? ≠ some '/') :
    ((components s).headD []).head? = s.head? := by
  cases hsl : strchr '/' s with
  | none =>
      by_cases hne : s = []
      · subst hne
        simp [components_nil]
      · rw [components_of_notMem (strchr_eq_none hsl) hne]
        rfl
  | some q =>
      obtain ⟨rfl, hnot⟩ := strchr_eq_some hsl
      have hne : q.1 ≠ [] := by
        intro hq
        simp [hq] at hs
      rw [components_append hnot hne]
      cases hq : q.1 with
      | nil => exact absurd hq hne
      | cons c cs => rfl

/-- Whether a string ends with a slash does not change when the walk goes on behind a component. -/
theorem getLast_skipSlashes {name : Name} {s : List Char} (hs : skipSlashes s ≠ []) :
    (name ++ '/' :: s).getLast? = (skipSlashes s).getLast? := by
  have hsuffix : skipSlashes s <:+ name ++ '/' :: s :=
    (List.dropWhile_suffix _).trans ((List.suffix_cons _ _).trans (List.suffix_append _ _))
  obtain ⟨pre, hpre⟩ := hsuffix
  rw [← hpre, List.getLast?_append_of_ne_nil _ hs]

theorem getLast_of_skipSlashes {name : Name} {s : List Char} (hs : skipSlashes s = []) :
    (name ++ '/' :: s).getLast? = some '/' := by
  have hall : ∀ c ∈ '/' :: s, c = '/' := by
    intro c hc
    rcases List.mem_cons.mp hc with rfl | hc
    · rfl
    · simpa using List.dropWhile_eq_nil_iff.mp hs c hc
  rw [List.getLast?_append_of_ne_nil _ (List.cons_ne_nil _ _),
    List.getLast?_eq_some_getLast (List.cons_ne_nil _ _)]
  exact congrArg some (hall _ (List.getLast_mem _))

/-- The walk over the components, with the suffix that it ends with. -/
def stopWalk (lookup : BitVec 32 → Name → Option (BitVec 32)) (givenId : BitVec 32) (w : Walk)
    (names : List Name) (trailing : Bool) : Option (Walk × Name) :=
  (walkNames lookup givenId w (stops names trailing).1).map fun w => (w, (stops names trailing).2)

/-- One turn of the loop, on components. -/
theorem stopWalk_cons (w : Walk) (name : Name) (rest : List Name) {trailing : Bool}
    (hmore : ¬ (rest = [] ∧ trailing = false)) :
    stopWalk lookup givenId w (name :: rest) trailing =
      if name = ['.'] then stopWalk lookup givenId w rest trailing
      else if name = ['.', '.'] then stopWalk lookup givenId { w with currv := w.pntv } rest trailing
      else if rest = [] ∨ (rest.headD []).head? = some '\n' then some (w, name)
      else
        match lookup (w.vId givenId w.currv) name with
        | none => none
        | some id =>
            stopWalk lookup givenId { currv := .next, pntv := w.currv, nextId := id } rest trailing := by
  unfold stopWalk
  rw [stops, if_neg hmore]
  by_cases hdot : name = ['.']
  · simp [hdot, Dots, walkNames]
  by_cases hdotdot : name = ['.', '.']
  · simp [hdotdot, Dots, walkNames]
  have hdots : ¬ Dots name := not_or.mpr ⟨hdot, hdotdot⟩
  rw [if_neg hdot, if_neg hdotdot]
  by_cases hend : rest = [] ∨ (rest.headD []).head? = some '\n'
  · rw [if_pos ⟨hdots, hend⟩, if_pos hend]
    rfl
  · rw [if_neg fun h => hend h.2, if_neg hend, walkNames, if_neg hdot, if_neg hdotdot]
    cases lookup (w.vId givenId w.currv) name <;> rfl

/-- **The loop over the string is a walk over its components.** -/
theorem pathLoop_eq (p : List Char) (w : Walk) (hp : p.head? ≠ some '/') :
    pathLoop lookup givenId p w =
      stopWalk lookup givenId w (components p) (p.getLast? = some '/') := by
  induction hn : p.length using Nat.strongRecOn generalizing p w with
  | _ n ih =>
      subst hn
      rw [pathLoop]
      cases hsl : strchr '/' p with
      | none =>
          have hnot := strchr_eq_none hsl
          simp only
          by_cases hne : p = []
          · subst hne
            simp [stopWalk, components_nil, stops, walkNames]
          · have hlast : ¬ p.getLast? = some '/' := fun h => hnot (List.mem_of_getLast? h)
            simp [stopWalk, components_of_notMem hnot hne, stops, walkNames, hlast]
      | some q =>
          obtain ⟨name, rest⟩ := q
          have hlt := length_skipSlashes hsl
          obtain ⟨rfl, hnot⟩ := strchr_eq_some hsl
          have hne : name ≠ [] := by
            rintro rfl
            exact hp rfl
          have hnil : skipSlashes rest = [] ↔ components (skipSlashes rest) = [] :=
            ⟨fun h => h ▸ components_nil, components_eq_nil (head_skipSlashes rest)⟩
          have hmore : ¬ (components (skipSlashes rest) = [] ∧
              decide ((name ++ '/' :: rest).getLast? = some '/') = false) := by
            rintro ⟨hempty, hlast⟩
            exact of_decide_eq_false hlast (getLast_of_skipSlashes (hnil.mpr hempty))
          have hrest : ∀ w, pathLoop lookup givenId (skipSlashes rest) w =
              stopWalk lookup givenId w (components (skipSlashes rest))
                ((name ++ '/' :: rest).getLast? = some '/') := by
            intro w
            rw [ih _ hlt (skipSlashes rest) w (head_skipSlashes rest) rfl]
            by_cases hempty : skipSlashes rest = []
            · simp [hempty, components_nil, stopWalk, stops]
            · rw [getLast_skipSlashes hempty]
          rw [components_append hnot hne, ← components_skipSlashes rest, stopWalk_cons w name _ hmore]
          simp only [hrest, List.head?_eq_none_iff, hnil,
            head_components (head_skipSlashes rest), ext2Lookup]
          cases lookup (w.vId givenId w.currv) name <;> rfl

end

end Shaunos.Fs
