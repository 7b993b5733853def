import Mathlib.Tactic.Common
import Shaunos.Fs.PathLookup

/-!
# Path lookup in a directory tree

Reference: `Kernel/vfs.c` (`vfs_path_lookup`).

The walk knows the parent of the directory reached only one level below its start: from the second
lookup on `pntv` and `currv` are the same vnode. So `..` is lost two levels below the start, and at the
start itself.

* `walkNames_eq` — the code walks down what is `kept` of the path;
* `depth_lt_of_loses` — a walk that lost a `..` stays below the walk of the reference;
* `pathLookup_iff` — when the result is that of the component-by-component walk;
* `pathLookup_can_lose_parent` — `..` two levels below the start.
-/

namespace Shaunos.Fs

/-! ## The component-by-component walk -/

/-- A directory tree, with what a lookup of a name finds in it. -/
structure Tree where
  root : BitVec 32
  lookup : BitVec 32 → Name → Option (BitVec 32)
  parent : BitVec 32 → BitVec 32
  depth : BitVec 32 → ℕ
  parent_root : parent root = root
  depth_root : depth root = 0
  child : ∀ {d name c}, name ≠ ['.'] → name ≠ ['.', '.'] → lookup d name = some c →
    c ≠ 0 ∧ parent c = d ∧ depth c = depth d + 1

/-- The nodes of the tree. -/
inductive Tree.Node (t : Tree) : BitVec 32 → Prop
  | root : t.Node t.root
  | child {d c : BitVec 32} {name : Name} : t.Node d → name ≠ ['.'] → name ≠ ['.', '.'] →
      t.lookup d name = some c → t.Node c

/-- Walk down some components: `.` stays, and `..` goes to the parent. -/
def Tree.walk (t : Tree) : BitVec 32 → List Name → Option (BitVec 32)
  | d, [] => some d
  | d, name :: rest =>
      if name = ['.'] then t.walk d rest
      else if name = ['.', '.'] then t.walk (t.parent d) rest
      else (t.lookup d name).bind fun c => t.walk c rest

/-- Where a path starts. -/
def Tree.start (t : Tree) (pvId : BitVec 32) (path : List Char) : BitVec 32 :=
  if path.head? = some '/' then t.root else pvId

/-- The reference: the directory that all components but the last lead to, and the last one. -/
def Tree.resolve (t : Tree) (pvId : BitVec 32) (path : List Char) : Option (BitVec 32 × Name) :=
  let names := components path
  (t.walk (t.start pvId path) names.dropLast).map
    fun d => (d, names.getLastD [])

/-- The result is the directory and the component of the reference, in a vnode that is still there; or
both are failures. -/
def Agrees (r : Option Found) (ref : Option (BitVec 32 × Name)) : Prop :=
  match r, ref with
  | none, none => True
  | some f, some (d, last) => f.vId = d ∧ f.suffix = last ∧ ¬ (f.vnode = .next ∧ f.freed = true)
  | _, _ => False

/-! ## The `..` that are lost -/

/-- The levels below the start that the walk tells apart are 0, 1 and 2. -/
def below (level : ℕ) : ℕ := min (level + 1) 2

/-- The components that have an effect: `..` has one only one level below the start. -/
def kept : ℕ → List Name → List Name
  | _, [] => []
  | level, name :: rest =>
      if name = ['.'] then kept level rest
      else if name = ['.', '.'] then if level = 1 then name :: kept 0 rest else kept level rest
      else name :: kept (below level) rest

/-- A `..` that would lead somewhere has no effect. -/
def loses (atRoot : Bool) : ℕ → List Name → Bool
  | _, [] => false
  | level, name :: rest =>
      if name = ['.'] then loses atRoot level rest
      else if name = ['.', '.'] then
        if level = 1 ∨ (level = 0 ∧ atRoot = true) then loses atRoot 0 rest else true
      else loses atRoot (below level) rest

/-- A component behind a name starts with a newline. -/
def lineStop : List Name → Bool
  | name :: next :: rest => (¬ Dots name ∧ next.head? = some '\n') ∨ lineStop (next :: rest)
  | _ => false

/-- The last component is `.` or `..` with a slash behind it. -/
def dotSlash (path : List Char) : Prop :=
  path.getLast? = some '/' ∧ Dots ((components path).getLastD [])

instance (path : List Char) : Decidable (dotSlash path) := inferInstanceAs (Decidable (_ ∧ _))

/-- When the lookup of a path is that of the reference. Without a component that starts with a newline:
no `..` is lost, no slash stands behind a last `.` or `..`, and the last component fits into the buffer;
or a component is missing on the way, with and without the `..` that are lost. With such a component
the walk ends before it, and the whole path has to lead back to where that is. -/
def Kept (t : Tree) (pvId : BitVec 32) (path : List Char) : Prop :=
  let names := components path
  let d := t.start pvId path
  if lineStop names then
    (t.walk d (kept 0 (stops names (path.getLast? = some '/')).1)).map
      (fun d => (d, (stops names (path.getLast? = some '/')).2.take 256)) = t.resolve pvId path
  else
    (loses (d = t.root) 0 names.dropLast = false ∧ ¬ dotSlash path ∧
        (names.getLastD []).length ≤ 256) ∨
      (t.walk d names.dropLast = none ∧ t.walk d (kept 0 names.dropLast) = none)

instance (t : Tree) (pvId : BitVec 32) (path : List Char) : Decidable (Kept t pvId path) := by
  unfold Kept
  infer_instance

/-! ## The walk drops what is not kept -/

/-- What the walk knows at each level: its parent is the directory above only at level 1. -/
inductive At (t : Tree) (givenId : BitVec 32) : ℕ → Walk → Prop
  | start (id : BitVec 32) : At t givenId 0 { currv := .given, pntv := .given, nextId := id }
  | one {id : BitVec 32} : t.parent id = givenId → id ≠ 0 →
      At t givenId 1 { currv := .next, pntv := .given, nextId := id }
  | two {id : BitVec 32} : id ≠ 0 → At t givenId 2 { currv := .next, pntv := .next, nextId := id }

section

variable {t : Tree} {givenId pvId d : BitVec 32} {level : ℕ} {w w' : Walk} {names : List Name}

/-- The node that a walk has reached. -/
def Walk.node (w : Walk) (givenId : BitVec 32) : BitVec 32 := w.vId givenId w.currv

/-- `..` goes up one level, and only from level 1. -/
theorem At.dotdot (h : At t givenId level w) :
    At t givenId (if level = 1 then 0 else level) { w with currv := w.pntv } ∧
      Walk.node { w with currv := w.pntv } givenId
        = if level = 1 then t.parent (w.node givenId) else w.node givenId := by
  cases h with
  | start id => exact ⟨.start id, rfl⟩
  | one hparent _ => exact ⟨.start _, hparent.symm⟩
  | two hid => exact ⟨.two hid, rfl⟩

/-- A lookup goes down one level. -/
theorem At.lookup {name : Name} {id : BitVec 32} (h : At t givenId level w) (hdot : name ≠ ['.'])
    (hdotdot : name ≠ ['.', '.']) (hid : t.lookup (w.node givenId) name = some id) :
    At t givenId (below level) { currv := .next, pntv := w.currv, nextId := id } := by
  obtain ⟨hne, hparent, -⟩ := t.child hdot hdotdot hid
  cases h with
  | start _ => exact .one hparent hne
  | one _ _ => exact .two hne
  | two _ => exact .two hne

/-- The walk reaches what the walk over the kept components reaches. -/
theorem walkNames_eq (h : At t givenId level w) :
    (walkNames t.lookup givenId w names).map (fun w => w.node givenId)
      = t.walk (w.node givenId) (kept level names) := by
  induction names generalizing level w with
  | nil => rfl
  | cons name rest ih =>
      rw [walkNames, kept]
      by_cases hdot : name = ['.']
      · rw [if_pos hdot, if_pos hdot]
        exact ih h
      by_cases hdotdot : name = ['.', '.']
      · obtain ⟨hat, hnode⟩ := h.dotdot
        rw [if_neg hdot, if_neg hdot, if_pos hdotdot, if_pos hdotdot, ih hat, hnode]
        by_cases hone : level = 1
        · simp only [if_pos hone, Tree.walk, if_neg hdot, if_pos hdotdot]
        · simp only [if_neg hone]
      · rw [if_neg hdot, if_neg hdot, if_neg hdotdot, if_neg hdotdot, Tree.walk, if_neg hdot,
          if_neg hdotdot]
        rw [show w.vId givenId w.currv = w.node givenId from rfl]
        cases hid : t.lookup (w.node givenId) name with
        | none => rfl
        | some id => exact ih (h.lookup hdot hdotdot hid)

/-- The walk stays at one of the levels. -/
theorem At.walkNames (h : At t givenId level w)
    (hwalk : Fs.walkNames t.lookup givenId w names = some w') : ∃ level', At t givenId level' w' := by
  induction names generalizing level w with
  | nil =>
      obtain rfl := Option.some.inj hwalk
      exact ⟨level, h⟩
  | cons name rest ih =>
      rw [Fs.walkNames] at hwalk
      by_cases hdot : name = ['.']
      · rw [if_pos hdot] at hwalk
        exact ih h hwalk
      by_cases hdotdot : name = ['.', '.']
      · rw [if_neg hdot, if_pos hdotdot] at hwalk
        exact ih h.dotdot.1 hwalk
      · rw [if_neg hdot, if_neg hdotdot] at hwalk
        obtain ⟨id, hid, hrest⟩ := Option.bind_eq_some_iff.mp hwalk
        exact ih (h.lookup hdot hdotdot hid) hrest

/-- The vnode at the end of a walk was not given back. -/
theorem At.nextId_ne (h : At t givenId level w) (hnext : w.currv = .next) : w.nextId ≠ 0 := by
  cases h with
  | start _ => cases hnext
  | one _ hid => exact hid
  | two hid => exact hid

/-! ## A `..` that is lost -/

theorem Tree.Node.parent (h : t.Node d) : t.Node (t.parent d) := by
  cases h with
  | root =>
      rw [t.parent_root]
      exact .root
  | child hd hdot hdotdot hid => exact (t.child hdot hdotdot hid).2.1 ▸ hd

/-- Only the root has no depth, and every other node is one below its parent. -/
theorem Tree.Node.depth (h : t.Node d) :
    d = t.root ∨ t.depth d = t.depth (t.parent d) + 1 := by
  cases h with
  | root => exact .inl rfl
  | child hd hdot hdotdot hid =>
      obtain ⟨-, hparent, hdepth⟩ := t.child hdot hdotdot hid
      exact .inr (hparent.symm ▸ hdepth)

/-- Without a lost `..`, what is kept leads to the same place. -/
theorem walk_kept (hloses : loses (givenId = t.root) level names = false)
    (hzero : level = 0 → d = givenId) (hone : level = 1 → t.parent d = givenId) :
    t.walk d (kept level names) = t.walk d names := by
  induction names generalizing level d with
  | nil => rfl
  | cons name rest ih =>
      rw [loses] at hloses
      rw [kept, Tree.walk]
      by_cases hdot : name = ['.']
      · rw [if_pos hdot] at hloses ⊢
        rw [if_pos hdot]
        exact ih hloses hzero hone
      rw [if_neg hdot] at hloses ⊢
      rw [if_neg hdot]
      by_cases hdotdot : name = ['.', '.']
      · rw [if_pos hdotdot] at hloses ⊢
        rw [if_pos hdotdot]
        split at hloses
        · rename_i hlevel
          by_cases h₁ : level = 1
          · rw [if_pos h₁, Tree.walk, if_neg hdot, if_pos hdotdot]
            exact ih hloses (fun _ => hone h₁) fun h => absurd h (by decide)
          · obtain ⟨rfl, hroot⟩ := hlevel.resolve_left h₁
            obtain rfl := hzero rfl
            obtain rfl : d = t.root := of_decide_eq_true hroot
            rw [if_neg h₁, t.parent_root]
            exact ih hloses (fun _ => rfl) fun h => absurd h (by decide)
        · cases hloses
      · rw [if_neg hdotdot] at hloses ⊢
        rw [if_neg hdotdot, Tree.walk, if_neg hdot, if_neg hdotdot]
        cases hid : t.lookup d name with
        | none => rfl
        | some c =>
            refine ih hloses (fun h => ?_) fun h => ?_
            · exact absurd h (by unfold below; omega)
            · obtain rfl : level = 0 := by
                unfold below at h
                omega
              exact (t.child hdot hdotdot hid).2.1.trans (hzero rfl)

/-- A node with a depth is one below its parent. -/
theorem Tree.Node.depth_parent (h : t.Node d) (hpos : 0 < t.depth d) :
    t.depth d = t.depth (t.parent d) + 1 := by
  refine h.depth.resolve_left ?_
  rintro rfl
  rw [t.depth_root] at hpos
  exact absurd hpos (lt_irrefl 0)

theorem Tree.Node.depth_pos (h : t.Node d) (hne : d ≠ t.root) : 0 < t.depth d := by
  have hdepth := h.depth.resolve_left hne
  omega

/-- Going up does not go down. -/
theorem Tree.Node.depth_parent_le (h : t.Node d) : t.depth (t.parent d) ≤ t.depth d := by
  rcases h.depth with rfl | hdepth
  · rw [t.parent_root]
  · omega

/-- A walk that is below the one of the reference stays below it. -/
theorem depth_lt_of_behind {r c c' : BitVec 32} (hd : t.Node d) (hr : t.Node r)
    (hlt : t.depth r < t.depth d) (hzero : level = 0 → d = givenId)
    (hone : level = 1 → t.parent d = givenId) (habove : 2 ≤ level ∨ 0 < t.depth givenId)
    (hkept : t.walk d (kept level names) = some c') (hwalk : t.walk r names = some c) :
    t.depth c < t.depth c' := by
  induction names generalizing level d r with
  | nil =>
      obtain rfl := Option.some.inj hkept
      obtain rfl := Option.some.inj hwalk
      exact hlt
  | cons name rest ih =>
      rw [kept] at hkept
      rw [Tree.walk] at hwalk
      by_cases hdot : name = ['.']
      · rw [if_pos hdot] at hkept hwalk
        exact ih hd hr hlt hzero hone habove hkept hwalk
      rw [if_neg hdot] at hkept hwalk
      by_cases hdotdot : name = ['.', '.']
      · rw [if_pos hdotdot] at hkept hwalk
        by_cases h₁ : level = 1
        · -- both go up, and the walk stays below the root
          rw [if_pos h₁, Tree.walk, if_neg hdot, if_pos hdotdot] at hkept
          have hgiven : 0 < t.depth givenId := habove.resolve_left (by omega)
          have hup := hd.depth_parent (by omega)
          rw [hone h₁] at hkept hup
          refine ih (hone h₁ ▸ hd.parent) hr.parent ?_ (fun _ => rfl) (fun h => absurd h (by decide))
            (.inr hgiven) hkept hwalk
          rcases Nat.eq_zero_or_pos (t.depth r) with hroot | hpos
          · have hle := hr.depth_parent_le
            omega
          · have hrup := hr.depth_parent hpos
            omega
        · rw [if_neg h₁] at hkept
          have hle := hr.depth_parent_le
          exact ih hd hr.parent (by omega) hzero hone habove hkept hwalk
      · rw [if_neg hdotdot] at hkept hwalk
        rw [Tree.walk, if_neg hdot, if_neg hdotdot] at hkept
        obtain ⟨e', hid', hkept⟩ := Option.bind_eq_some_iff.mp hkept
        obtain ⟨e, hid, hwalk⟩ := Option.bind_eq_some_iff.mp hwalk
        obtain ⟨-, hparent', hdepth'⟩ := t.child hdot hdotdot hid'
        obtain ⟨-, -, hdepth⟩ := t.child hdot hdotdot hid
        refine ih (.child hd hdot hdotdot hid') (.child hr hdot hdotdot hid) (by omega) (fun h => ?_)
          (fun h => ?_) (habove.imp_left fun h => ?_) hkept hwalk
        · exact absurd h (by unfold below; omega)
        · exact hparent'.trans (hzero (by unfold below at h; omega))
        · unfold below
          omega

/-- After a `..` that was lost, the walk ends below the one of the reference. -/
theorem depth_lt_of_loses {c c' : BitVec 32} (hd : t.Node d) (hgiven : t.Node givenId)
    (hloses : loses (givenId = t.root) level names = true)
    (hzero : level = 0 → d = givenId) (hone : level = 1 → t.parent d = givenId)
    (htwo : 2 ≤ level → 0 < t.depth d)
    (hkept : t.walk d (kept level names) = some c') (hwalk : t.walk d names = some c) :
    t.depth c < t.depth c' := by
  induction names generalizing level d with
  | nil => exact absurd hloses (by simp [loses])
  | cons name rest ih =>
      rw [kept] at hkept
      rw [Tree.walk] at hwalk
      rw [loses] at hloses
      by_cases hdot : name = ['.']
      · rw [if_pos hdot] at hkept hwalk hloses
        exact ih hd hloses hzero hone htwo hkept hwalk
      rw [if_neg hdot] at hkept hwalk hloses
      by_cases hdotdot : name = ['.', '.']
      · rw [if_pos hdotdot] at hkept hwalk hloses
        by_cases h₁ : level = 1
        · rw [if_pos h₁, Tree.walk, if_neg hdot, if_pos hdotdot] at hkept
          rw [if_pos (.inl h₁)] at hloses
          exact ih hd.parent hloses (fun _ => hone h₁) (fun h => absurd h (by decide))
            (fun h => absurd h (by decide)) hkept hwalk
        rw [if_neg h₁] at hkept
        by_cases hroot : level = 0 ∧ decide (givenId = t.root) = true
        · -- at the root the reference stays, too
          rw [if_pos (.inr hroot)] at hloses
          obtain ⟨rfl, hroot⟩ := hroot
          obtain rfl := hzero rfl
          rw [of_decide_eq_true hroot, t.parent_root, ← of_decide_eq_true hroot] at hwalk
          exact ih hd hloses hzero hone htwo hkept hwalk
        · -- here the reference goes up and the walk does not
          by_cases h₀ : level = 0
          · obtain rfl := hzero h₀
            have hne : d ≠ t.root := fun h => hroot ⟨h₀, decide_eq_true h⟩
            have hpos := hd.depth_pos hne
            have hup := hd.depth_parent hpos
            exact depth_lt_of_behind hd hd.parent (by omega) hzero hone (.inr hpos) hkept hwalk
          · have hlevel : 2 ≤ level := by omega
            have hup := hd.depth_parent (htwo hlevel)
            exact depth_lt_of_behind hd hd.parent (by omega) hzero hone (.inl hlevel) hkept hwalk
      · rw [if_neg hdotdot] at hkept hwalk hloses
        rw [Tree.walk, if_neg hdot, if_neg hdotdot] at hkept
        obtain ⟨e', hid', hkept⟩ := Option.bind_eq_some_iff.mp hkept
        obtain ⟨e, hid, hwalk⟩ := Option.bind_eq_some_iff.mp hwalk
        obtain rfl : e' = e := Option.some.inj (hid'.symm.trans hid)
        obtain ⟨-, hparent, hdepth⟩ := t.child hdot hdotdot hid
        refine ih (.child hd hdot hdotdot hid) hloses (fun h => ?_) (fun h => ?_) (fun _ => by omega)
          hkept hwalk
        · exact absurd h (by unfold below; omega)
        · exact hparent.trans (hzero (by unfold below at h; omega))

/-! ## Where the loop stops -/

/-- Without a component that starts with a newline, the loop stops at the last component. -/
theorem stops_eq (trailing : Bool) (hline : lineStop names = false) :
    stops names trailing =
      if trailing = true ∧ Dots (names.getLastD []) then (names, [])
      else (names.dropLast, names.getLastD []) := by
  induction names with
  | nil => simp [stops, Dots]
  | cons name rest ih =>
      cases rest with
      | nil =>
          rw [stops]
          by_cases hdots : Dots name <;> cases trailing <;> simp [hdots, stops]
      | cons next rest =>
          rw [lineStop, decide_eq_false_iff_not, not_or] at hline
          have hnext : ¬ (¬ Dots name ∧ (next :: rest = [] ∨
              ((next :: rest).headD []).head? = some '\n')) := by
            rintro ⟨hdots, hnil | hhead⟩
            · cases hnil
            · exact hline.1 ⟨hdots, hhead⟩
          rw [stops, if_neg (fun h => List.cons_ne_nil _ _ h.1), if_neg hnext,
            ih (Bool.eq_false_iff.mpr hline.2)]
          simp only [List.getLastD_cons, List.dropLast_cons_cons]
          split <;> rfl

/-- A `.` or `..` at the end of a walk does not fail. -/
theorem walk_kept_append {name : Name} (hdots : Dots name) :
    t.walk d (kept level (names ++ [name])) = none ↔ t.walk d (kept level names) = none := by
  induction names generalizing level d with
  | nil =>
      have hnodots : ¬ (name ≠ ['.'] ∧ name ≠ ['.', '.']) := fun h => hdots.elim h.1 h.2
      simp only [List.nil_append, kept, Tree.walk]
      split_ifs <;> simp_all [Tree.walk]
  | cons head rest ih =>
      rw [List.cons_append, kept, kept]
      split_ifs with hdot hdotdot hone
      · exact ih
      · rw [Tree.walk, Tree.walk, if_neg hdot, if_neg hdot, if_pos hdotdot, if_pos hdotdot]
        exact ih
      · exact ih
      · rw [Tree.walk, Tree.walk, if_neg hdot, if_neg hdot, if_neg hdotdot, if_neg hdotdot]
        cases t.lookup d head with
        | none => rfl
        | some c => exact ih

/-- The lookup of a path is the walk over its components. -/
theorem vfsPathLookup_eq (lookup : BitVec 32 → Name → Option (BitVec 32)) (rootId pvId : BitVec 32)
    (path : List Char) :
    vfsPathLookup lookup rootId pvId path =
      (stopWalk lookup (if path.head? = some '/' then rootId else pvId)
        { currv := .given, pntv := .given, nextId := 0 } (components path)
        (path.getLast? = some '/')).map fun (w, p) =>
          { vnode := w.currv
            vId := w.vId (if path.head? = some '/' then rootId else pvId) w.currv
            suffix := p.take 256, freed := w.nextId = 0 } := by
  unfold vfsPathLookup
  by_cases habs : path.head? = some '/'
  · simp only [if_pos habs]
    rw [pathLoop_eq _ _ (head_skipSlashes path), components_skipSlashes]
    by_cases hempty : skipSlashes path = []
    · have hnil : components path = [] := by rw [← components_skipSlashes, hempty, components_nil]
      simp [hnil, stopWalk, stops]
    · have hsuffix : skipSlashes path <:+ path := List.dropWhile_suffix _
      obtain ⟨pre, hpre⟩ := hsuffix
      have hlast : path.getLast? = (skipSlashes path).getLast? := by
        conv_lhs => rw [← hpre]
        exact List.getLast?_append_of_ne_nil _ hempty
      rw [hlast]
  · simp only [if_neg habs]
    rw [pathLoop_eq _ _ habs]

/-- What the lookup finds in a tree. -/
theorem agrees_iff (ref : Option (BitVec 32 × Name)) (path : List Char) :
    Agrees (vfsPathLookup t.lookup t.root pvId path) ref ↔
      (t.walk (t.start pvId path)
          (kept 0 (stops (components path) (path.getLast? = some '/')).1)).map
        (fun d => (d, (stops (components path) (path.getLast? = some '/')).2.take 256)) = ref := by
  have hat : At t (t.start pvId path) 0 { currv := .given, pntv := .given, nextId := 0 } := .start 0
  have hnode : Walk.node { currv := .given, pntv := .given, nextId := 0 } (t.start pvId path)
      = t.start pvId path := rfl
  have hwalk := @walkNames_eq _ _ _ _ (stops (components path) (path.getLast? = some '/')).1 hat
  rw [hnode] at hwalk
  rw [vfsPathLookup_eq, stopWalk, ← hwalk]
  change Agrees (Option.map _ (Option.map _ (walkNames t.lookup (t.start pvId path) _ _))) ref ↔ _
  cases hw : walkNames t.lookup (t.start pvId path) { currv := .given, pntv := .given, nextId := 0 }
      (stops (components path) (path.getLast? = some '/')).1 with
  | none => cases ref <;> simp [Agrees]
  | some w =>
      obtain ⟨level, hat'⟩ := hat.walkNames hw
      have hkeep : ¬ (w.currv = .next ∧ w.nextId = 0) := fun h => hat'.nextId_ne h.1 h.2
      cases ref with
      | none => simp [Agrees]
      | some r =>
          simp only [Option.map_some, Agrees, decide_eq_true_eq, hkeep, not_false_eq_true, and_true,
            Option.some.injEq, Prod.ext_iff]
          rfl

end

/-! ## Main results -/

/-- **When a path is looked up as it is written.** -/
theorem pathLookup_iff {t : Tree} {pvId : BitVec 32} (hpv : t.Node pvId) (path : List Char) :
    Agrees (vfsPathLookup t.lookup t.root pvId path) (t.resolve pvId path) ↔ Kept t pvId path := by
  have hstart : t.Node (t.start pvId path) := by
    unfold Tree.start
    split
    · exact .root
    · exact hpv
  rw [agrees_iff]
  unfold Kept
  simp only
  split
  · exact Iff.rfl
  rename_i hline
  rw [stops_eq _ (Bool.eq_false_iff.mpr hline), Tree.resolve]
  set names := components path with hnames
  set d := t.start pvId path with hd
  by_cases hslash : dotSlash path
  · -- the last component is walked down, and the suffix is empty
    obtain ⟨hlast, hdots⟩ := hslash
    have hne : names ≠ [] := by
      intro hnil
      rw [← hnames, hnil] at hdots
      exact absurd hdots (by decide)
    have hsplit : names = names.dropLast ++ [names.getLastD []] := by
      rw [List.getLastD_eq_getLast?, List.getLast?_eq_some_getLast hne]
      exact (List.dropLast_append_getLast hne).symm
    have hnone : t.walk d (kept 0 names) = none ↔ t.walk d (kept 0 names.dropLast) = none := by
      conv_lhs => rw [hsplit]
      exact walk_kept_append hdots
    have hnonempty : [] ≠ names.getLastD [] := by
      rintro hnil
      rw [← hnames, ← hnil] at hdots
      exact absurd hdots (by decide)
    rw [if_pos ⟨decide_eq_true hlast, hdots⟩]
    simp only [hlast, hdots, dotSlash, and_self, not_true_eq_false, false_and, and_false, false_or,
      ← hnone]
    cases hw : t.walk d names.dropLast with
    | none => simp
    | some c =>
        cases t.walk d (kept 0 names) with
        | none => simp
        | some c' =>
            refine iff_of_false (fun h => hnonempty ?_) (by simp)
            exact (Prod.mk.inj (Option.some.inj h)).2
  · have hnot : ¬ (decide (path.getLast? = some '/') = true ∧ Dots (names.getLastD [])) :=
      fun h => hslash ⟨of_decide_eq_true h.1, h.2⟩
    rw [if_neg hnot]
    simp only [hslash, not_false_eq_true, true_and]
    constructor
    · intro heq
      cases hw : t.walk d names.dropLast with
      | none =>
          rw [hw, Option.map_none, Option.map_eq_none_iff] at heq
          exact .inr ⟨rfl, heq⟩
      | some c =>
          rw [hw, Option.map_some, Option.map_eq_some_iff] at heq
          obtain ⟨c', hkept, heq⟩ := heq
          obtain ⟨rfl, hlast⟩ := Prod.mk.inj heq
          refine .inl ⟨?_, ?_⟩
          · by_contra hloses
            have hlt := depth_lt_of_loses hstart hstart ((Bool.not_eq_false _).mp hloses)
              (fun _ => rfl) (fun h => absurd h (by decide)) (fun h => absurd h (by decide)) hkept hw
            exact absurd hlt (lt_irrefl _)
          · rw [← hlast]
            exact List.length_take_le _ _
    · rintro (⟨hloses, hlen⟩ | ⟨hnone, hnone'⟩)
      · rw [walk_kept hloses (fun _ => rfl) fun h => absurd h (by decide), List.take_of_length_le hlen]
      · rw [hnone, hnone', Option.map_none, Option.map_none]

/-- The directory 11, called a, in the root directory 2, and the directory 12, called b, in 11. -/
def smallTree : Tree where
  root := 2
  lookup := fun d name =>
    if d = 2 ∧ name = ['a'] then some 11 else if d = 11 ∧ name = ['b'] then some 12 else none
  parent := fun d => if d = 12 then 11 else 2
  depth := fun d => if d = 12 then 2 else if d = 11 then 1 else 0
  parent_root := by decide
  depth_root := by decide
  child := by
    intro d name c _ _ hc
    split_ifs at hc with ha hb
    · obtain rfl := Option.some.inj hc
      obtain ⟨rfl, -⟩ := ha
      decide
    · obtain rfl := Option.some.inj hc
      obtain ⟨rfl, -⟩ := hb
      decide

/-- `//a/.././a//b/` is b in the directory a. -/
theorem pathLookup_iff_small :
    Agrees (vfsPathLookup smallTree.lookup smallTree.root 11
        ['/', '/', 'a', '/', '.', '.', '/', '.', '/', 'a', '/', '/', 'b', '/'])
      (some (11, ['b'])) := by
  have hnode : smallTree.Node 11 := .child .root (show ['a'] ≠ ['.'] by decide) (by decide) rfl
  have hresolve : smallTree.resolve 11
      ['/', '/', 'a', '/', '.', '.', '/', '.', '/', 'a', '/', '/', 'b', '/'] = some (11, ['b']) := by
    decide +kernel
  rw [← hresolve]
  exact (pathLookup_iff hnode _).mpr (by decide +kernel)

/-- From the root, `a/b/../x` is looked up in b, and the parent of b is a. -/
theorem pathLookup_can_lose_parent :
    ¬ ∀ (t : Tree) (pvId : BitVec 32) (path : List Char), t.Node pvId →
      Agrees (vfsPathLookup t.lookup t.root pvId path) (t.resolve pvId path) := by
  intro hall
  have hagrees := (agrees_iff _ _).mp
    (hall smallTree 2 ['a', '/', 'b', '/', '.', '.', '/', 'x'] .root)
  exact absurd hagrees (by decide +kernel)

end Shaunos.Fs
