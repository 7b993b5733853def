import Mathlib

/-!
# Loading the libraries of a program

Reference: `Kernel/elf.c` (`resolv_depends`, `search_shared_library`, `search_named_lib`,
`load_elf_shared_library`, `elf_header_check`), `Kernel/page.c` (`map_page`, `map_pages`).

The list of modules is the worklist: it is walked from the executable on, and a library that is not
in it is appended. The walk that looks for a library in the list starts at the module that needs it,
and goes on with the module after that one, again and again. So it ends only at these two or, when
there is no module after it, at the end of the list.

What is read of a file and mapped is an input; reads of the disk and allocations succeed. A page that
is mapped twice ends in `BUG`, which does not come back.

* `resolvDepends_right_iff` — the dependency graphs for which the libraries are loaded.
-/

namespace Shaunos.Elf

/-! ## Files -/

/-- `v_device` and `v_id` of a file. -/
structure FileId where
  devid : BitVec 32
  iNo : BitVec 32
  deriving DecidableEq

/-- What the loader finds in a file. The names are taken as they stand in `path`. -/
structure Lib where
  /-- `elf_header_check` accepts it. -/
  headerOk : Bool
  /-- The pages of its segments, in the order in which they are mapped. -/
  pages : List ℕ
  pages_ne : headerOk = true → pages ≠ []
  /-- `DT_NEEDED`. -/
  needed : List (List Char)
  /-- `DT_RPATH`. -/
  rpath : Option (List Char)
  /-- `DT_RUNPATH`. -/
  runpath : Option (List Char)

/-- The files of the volumes, as a process finds them. -/
structure Files where
  vfsOpen : List Char → Except { e : ℤ // e < 0 } FileId
  lib : FileId → Lib

/-! ## The loader -/

/-- The fields of `struct elf_module` that the search for libraries uses. -/
structure ElfModule where
  id : FileId
  refcnt : ℕ

/-- The list of modules of a process, and the pages that are mapped. -/
structure Image where
  ems : List ElfModule
  mapped : List ℕ

/-- The walk that looks for a library in the list of modules, from the module at `em` on. -/
def findLoaded (ems : List ElfModule) (em : ℕ) (id : FileId) : (fuel em0 : ℕ) → Option (Option ℕ)
  | 0, _ => none
  | fuel + 1, em0 =>
      match ems[em0]? with
      | none => some none
      | some m => if m.id = id then some (some em0) else findLoaded ems em id fuel (em + 1)

/-- `map_pages`. -/
def mapPages : (mapped pages : List ℕ) → Option (List ℕ)
  | mapped, [] => some mapped
  | mapped, page :: pages => if page ∈ mapped then none else mapPages (mapped ++ [page]) pages

/-- `load_elf_shared_library`. A walk that takes more steps than there are modules is not over
later, either (`findLoaded_eq`). -/
def loadElfSharedLibrary (files : Files) (em : ℕ) (fullname : List Char) (s : Image) :
    Option (ℤ × Image) :=
  match files.vfsOpen fullname with
  | .error e => some (e.1, s)
  | .ok id => do
      match ← findLoaded s.ems em id (s.ems.length + 2) em with
      | some em0 =>
          return (0, { s with ems := s.ems.modify em0 fun m => { m with refcnt := m.refcnt + 1 } })
      | none =>
          if !(files.lib id).headerOk then return (-1, s)
          else
            let mapped ← mapPages s.mapped (files.lib id).pages
            return (0, { ems := s.ems ++ [⟨id, 0⟩], mapped })

/-- The names that `search_named_lib` tries. -/
def libPaths (name pathList : List Char) : List (List Char) :=
  (pathList.splitOn ':').map fun dir =>
    if dir = [] then ['.', '/'] ++ name else dir ++ '/' :: name

/-- `search_named_lib`. -/
def searchNamedLib (files : Files) (em : ℕ) : (paths : List (List Char)) → Image →
    Option (ℤ × Image)
  | [], s => some (-1, s)
  | path :: paths, s => do
      let (ret, s) ← loadElfSharedLibrary files em path s
      if ret ≥ 0 ∨ paths = [] then return (ret, s) else searchNamedLib files em paths s

/-- A list of directories that a module may name. -/
def searchDynamic (files : Files) (em : ℕ) (name : List Char) (pathList : Option (List Char))
    (s : Image) : Option (ℤ × Image) :=
  match pathList with
  | some pathList => searchNamedLib files em (libPaths name pathList) s
  | none => some (-1, s)

/-- What stands behind the last `/`. -/
def baseName (path : List Char) : List Char := (path.reverse.takeWhile (· != '/')).reverse

/-- `search_shared_library`. `ld_library_path` is never assigned. -/
def searchSharedLibrary (files : Files) (em : ℕ) (lib : Lib) (path : List Char) (s : Image) :
    Option (ℤ × Image) := do
  let name := baseName path
  let (ret, s) ← searchDynamic files em name lib.rpath s
  if ret ≥ 0 then return (ret, s)
  else
    let (ret, s) ← searchDynamic files em name lib.runpath s
    if ret ≥ 0 then return (ret, s)
    else searchNamedLib files em (libPaths name "/lib:/usr/lib".toList) s

def ldLinux : List Char := "ld-linux.so.2".toList

/-- The loop over the needs of a module. -/
def loadNeeded (files : Files) (em : ℕ) (lib : Lib) : (needed : List (List Char)) → Image →
    Option (ℤ × Image)
  | [], s => some (0, s)
  | path :: needed, s =>
      if path = ldLinux then loadNeeded files em lib needed s
      else do
        let (ret, s) ← searchSharedLibrary files em lib path s
        if ret < 0 then return (ret, s) else loadNeeded files em lib needed s

/-- The loop over the modules. At its end, `elf_reloc` goes through the relocations of all modules
and returns 0, whatever comes of them. -/
def resolvFrom (files : Files) : (fuel em0 : ℕ) → Image → Option (ℤ × Image)
  | 0, _, _ => none
  | fuel + 1, em0, s =>
      match s.ems[em0]? with
      | none => some (0, s)
      | some m => do
          let lib := files.lib m.id
          let (ret, s) ← loadNeeded files em0 lib lib.needed s
          if ret < 0 then return (ret, s) else resolvFrom files fuel (em0 + 1) s

/-- `resolv_depends`, when the executable is loaded and `mapped` are the pages of the process. -/
def resolvDepends (files : Files) (fuel : ℕ) (exe : FileId) (mapped : List ℕ) :
    Option (ℤ × Image) :=
  resolvFrom files fuel 0 ⟨[⟨exe, 0⟩], mapped⟩

/-! ## The dependency graph -/

/-- The elements up to the first with `p`. -/
def upTo {α : Type} (p : α → Bool) : List α → List α
  | [] => []
  | c :: cs => if p c then [c] else c :: upTo p cs

/-- What is looked at in a list of lists, when in each it is searched for an element with `p`, and a
list without one ends the search. -/
def looked {α : Type} (p : α → Bool) : List (List α) → List α
  | [] => []
  | cs :: css => upTo p cs ++ if cs.any p then looked p css else []

namespace Files

variable (files : Files) (x : FileId)

/-- Where a library is searched that `x` needs. -/
def searchPaths (path : List Char) : List (List Char) :=
  let name := baseName path
  ((files.lib x).rpath.elim [] (libPaths name)) ++
    (((files.lib x).runpath.elim [] (libPaths name)) ++ libPaths name "/lib:/usr/lib".toList)

/-- The file with this name. -/
def fileAt (path : List Char) : Option FileId := (files.vfsOpen path).toOption

/-- The files with these names. -/
def candidates (path : List Char) : List FileId :=
  (files.searchPaths x path).filterMap files.fileAt

/-- The files in question, for each need of `x`. -/
def needs : List (List FileId) :=
  ((files.lib x).needed.filter (· ≠ ldLinux)).map (files.candidates x)

/-- The search of `x` ends with this file: a library, or `x` itself. -/
def takes (c : FileId) : Bool := c == x || (files.lib c).headerOk

/-- `x` needs `y`. -/
def Dep (y : FileId) : Prop := ∃ cs ∈ files.needs x, cs.find? (files.takes x) = some y

/-- Every need of `x` is found. -/
def Found : Prop := ∀ cs ∈ files.needs x, cs.any (files.takes x) = true

/-- The files that are opened for `x`, up to a need that is not found. -/
def opened : List FileId := looked (files.takes x) (files.needs x)

/-- A library other than `x`. -/
def other (c : FileId) : Bool := c != x && (files.lib c).headerOk

/-- The library that `x` brings in. -/
def next : Option FileId := (files.opened x).find? (files.other x)

/-- Once another library is opened for `x`, nothing but this library and `x` is opened. -/
def OneOther : Prop :=
  (files.opened x).Pairwise fun a b => files.other x a = true → b = x ∨ b = a

/-- The pages of `y` are not in use. -/
def Free (mapped : List ℕ) (y : FileId) : Prop :=
  (files.lib y).pages.Nodup ∧ ∀ page ∈ (files.lib y).pages, page ∉ mapped

/-- From `x` on, every module needs at most one other library, whose pages are free, up to a module
that brings in none or needs one that is not found. -/
inductive Ends : (mapped : List ℕ) → (x : FileId) → Prop
  | stop {mapped : List ℕ} {x : FileId} (hone : files.OneOther x)
      (hfree : ∀ y ∈ files.next x, files.Free mapped y)
      (hstop : files.next x = none ∨ ¬ files.Found x) : Ends mapped x
  | step {mapped : List ℕ} {x y : FileId} (hone : files.OneOther x) (hnext : files.next x = some y)
      (hfree : files.Free mapped y) (h : Ends (mapped ++ (files.lib y).pages) y) : Ends mapped x

end Files

/-- The function returns, and if it returns no error, every library that is needed is in the list
once. -/
def ResolvesRight (files : Files) (exe : FileId) (mapped : List ℕ) : Prop :=
  ∃ fuel ret s, resolvDepends files fuel exe mapped = some (ret, s) ∧
    (0 ≤ ret → (s.ems.map ElfModule.id).Nodup ∧
      ∀ f, f ∈ s.ems.map ElfModule.id ↔ Relation.ReflTransGen files.Dep exe f)

/-! ## Lists -/

section

variable {α : Type} {p : α → Bool} {cs ds : List α} {css : List (List α)} {c : α}

theorem upTo_eq_self (h : cs.any p = false) : upTo p cs = cs := by
  induction cs with
  | nil => rfl
  | cons c cs ih =>
      rw [List.any_cons, Bool.or_eq_false_iff] at h
      rw [upTo, if_neg (by simp [h.1]), ih h.2]

theorem mem_upTo (hc : c ∈ upTo p cs) (hp : p c = true) : cs.find? p = some c := by
  induction cs with
  | nil => exact absurd hc List.not_mem_nil
  | cons d cs ih =>
      rw [upTo] at hc
      by_cases hd : p d = true
      · rw [if_pos hd] at hc
        obtain rfl := List.mem_singleton.mp hc
        exact List.find?_cons_of_pos hp
      · rw [if_neg hd] at hc
        rw [List.find?_cons_of_neg hd]
        rcases List.mem_cons.mp hc with rfl | hc
        · exact absurd hp hd
        · exact ih hc

theorem mem_upTo_of_find? (h : cs.find? p = some c) : c ∈ upTo p cs := by
  induction cs with
  | nil => exact absurd h (by simp)
  | cons d cs ih =>
      rw [upTo]
      by_cases hd : p d = true
      · rw [List.find?_cons_of_pos hd] at h
        rw [if_pos hd, ← Option.some.inj h]
        exact List.mem_singleton_self d
      · rw [List.find?_cons_of_neg hd] at h
        rw [if_neg hd]
        exact List.mem_cons_of_mem d (ih h)

/-- What was taken is the first in one of the lists. -/
theorem mem_looked (hc : c ∈ looked p css) (hp : p c = true) : ∃ cs ∈ css, cs.find? p = some c := by
  induction css with
  | nil => exact absurd hc List.not_mem_nil
  | cons cs css ih =>
      rcases List.mem_append.mp hc with hc | hc
      · exact ⟨cs, List.mem_cons_self, mem_upTo hc hp⟩
      · split at hc
        · obtain ⟨ds, hds, hfind⟩ := ih hc
          exact ⟨ds, List.mem_cons_of_mem cs hds, hfind⟩
        · exact absurd hc List.not_mem_nil

theorem mem_looked_of_find? (hall : ∀ cs ∈ css, cs.any p = true) (hcs : cs ∈ css)
    (h : cs.find? p = some c) : c ∈ looked p css := by
  induction css with
  | nil => exact absurd hcs List.not_mem_nil
  | cons ds css ih =>
      rw [looked, if_pos (hall ds List.mem_cons_self)]
      rcases List.mem_cons.mp hcs with rfl | hcs
      · exact List.mem_append_left _ (mem_upTo_of_find? h)
      · exact List.mem_append_right _ (ih (fun cs hcs => hall cs (List.mem_cons_of_mem ds hcs)) hcs)

end

/-! ## One file -/

/-- What the libraries of `x` do to the module after it and to the pages in use. -/
def visit (files : Files) (x : FileId) (st : Option FileId × List ℕ) (c : FileId) :
    Option (Option FileId × List ℕ) :=
  if c = x then some st
  else
    match st.1 with
    | some y => if c = y then some st else none
    | none =>
        if (files.lib c).headerOk then
          (mapPages st.2 (files.lib c).pages).map fun mapped => (some c, mapped)
        else some st

section

variable {files : Files} {x y c : FileId} {st st' : Option FileId × List ℕ} {mapped pages : List ℕ}
  {l : List FileId}

theorem mapPages_eq_some {mapped' : List ℕ} : mapPages mapped pages = some mapped' ↔
    (pages.Nodup ∧ ∀ page ∈ pages, page ∉ mapped) ∧ mapped' = mapped ++ pages := by
  induction pages generalizing mapped with
  | nil => simp [mapPages, eq_comm]
  | cons page pages ih =>
      rw [mapPages]
      split
      · rename_i hmem
        simp [hmem]
      · rename_i hmem
        rw [ih]
        simp only [List.nodup_cons, List.mem_cons, List.mem_append, List.not_mem_nil, or_false, not_or,
          List.append_assoc, List.cons_append, List.nil_append, forall_eq_or_imp]
        constructor
        · rintro ⟨⟨hnodup, hall⟩, rfl⟩
          exact ⟨⟨⟨fun h => (hall page h).2 rfl, hnodup⟩, hmem, fun q hq => (hall q hq).1⟩, rfl⟩
        · rintro ⟨⟨⟨hpage, hnodup⟩, -, hall⟩, rfl⟩
          refine ⟨⟨hnodup, fun q hq => ⟨hall q hq, ?_⟩⟩, rfl⟩
          rintro rfl
          exact hpage hq

/-- With a module after `x`, only it and `x` can be looked for. -/
theorem foldlM_visit_some : l.foldlM (visit files x) (some y, mapped) = some st' ↔
    (∀ c ∈ l, c = x ∨ c = y) ∧ st' = (some y, mapped) := by
  induction l with
  | nil => simp [eq_comm]
  | cons c l ih =>
      rw [List.foldlM_cons, visit]
      by_cases hx : c = x
      · simp [hx, ih]
      · by_cases hy : c = y
        · simp [hy, ih]
        · simp [hx, hy]

theorem Files.other_iff : files.other x c = true ↔ c ≠ x ∧ (files.lib c).headerOk = true := by
  simp [Files.other]

/-- Without one, a library other than `x` becomes the module after it. -/
theorem foldlM_visit_none : l.foldlM (visit files x) (none, mapped) = some st' ↔
    (l.Pairwise fun a b => files.other x a = true → b = x ∨ b = a) ∧
      (∀ y ∈ l.find? (files.other x), files.Free mapped y) ∧
      st' = (l.find? (files.other x),
        mapped ++ (l.find? (files.other x)).elim [] fun y => (files.lib y).pages) := by
  induction l with
  | nil =>
      simp only [List.foldlM_nil, Option.pure_def, Option.some.injEq, List.Pairwise.nil, true_and,
        List.find?_nil, Option.mem_def, reduceCtorEq, false_implies, implies_true, Option.elim_none,
        List.append_nil]
      exact eq_comm
  | cons c l ih =>
      rw [List.foldlM_cons, List.pairwise_cons]
      by_cases hc : files.other x c = true
      · -- the library that `x` brings in
        obtain ⟨hx, hok⟩ := Files.other_iff.mp hc
        have hvisit : visit files x (none, mapped) c =
            (mapPages mapped (files.lib c).pages).map fun mapped => (some c, mapped) := by
          simp [visit, hx, hok]
        rw [hvisit, List.find?_cons_of_pos hc]
        simp only [hc, forall_const, Option.mem_def, Option.some.injEq, forall_eq', Option.elim_some]
        constructor
        · intro h
          obtain ⟨st₁, hmap, hrest⟩ := Option.bind_eq_some_iff.mp h
          obtain ⟨mapped', hpages, rfl⟩ := Option.map_eq_some_iff.mp hmap
          obtain ⟨hfree, rfl⟩ := mapPages_eq_some.mp hpages
          obtain ⟨hall, rfl⟩ := foldlM_visit_some.mp hrest
          refine ⟨⟨hall, List.pairwise_of_forall_mem_list fun a ha b hb hother => ?_⟩, hfree, rfl⟩
          obtain rfl := (hall a ha).resolve_left (Files.other_iff.mp hother).1
          exact hall b hb
        · rintro ⟨⟨hall, -⟩, hfree, rfl⟩
          rw [mapPages_eq_some.mpr ⟨hfree, rfl⟩]
          exact foldlM_visit_some.mpr ⟨hall, rfl⟩
      · have hvisit : visit files x (none, mapped) c = some (none, mapped) := by
          unfold visit
          split
          · rfl
          · rename_i hx
            have hok : ¬ (files.lib c).headerOk = true := fun hok => hc (Files.other_iff.mpr ⟨hx, hok⟩)
            simp [hok]
        rw [hvisit, List.find?_cons_of_neg hc]
        simp only [hc, Bool.false_eq_true, false_implies, implies_true, true_and]
        exact ih

end

/-! ## One module -/

/-- The modules while the needs of `x` are looked for: those before `x`, and the one after it, if
there is one. -/
structure At (files : Files) (s : Image) (em : ℕ) (pre : List FileId) (x : FileId)
    (st : Option FileId × List ℕ) : Prop where
  ids : s.ems.map ElfModule.id = pre ++ x :: st.1.toList
  place : em = pre.length
  mapped : s.mapped = st.2
  ok : ∀ y ∈ st.1, (files.lib y).headerOk = true

/-- A run that ends in the states where `visit` does, with the result that `found` says. -/
def Follows (files : Files) (em : ℕ) (pre : List FileId) (x : FileId)
    (run : Option (ℤ × Image)) (found : Bool) (st : Option (Option FileId × List ℕ)) : Prop :=
  match st with
  | none => run = none
  | some st => ∃ ret s, run = some (ret, s) ∧ (0 ≤ ret ↔ found = true) ∧ At files s em pre x st

section

variable {files : Files} {s s' : Image} {em : ℕ} {pre : List FileId} {x y c : FileId}
  {st : Option FileId × List ℕ} {paths : List (List Char)}

theorem At.getElem? (h : At files s em pre x st) :
    (s.ems[em]?).map ElfModule.id = some x ∧ (s.ems[em + 1]?).map ElfModule.id = st.1 := by
  rw [← List.getElem?_map, ← List.getElem?_map, h.ids, h.place]
  refine ⟨by simp, ?_⟩
  rw [List.getElem?_append_right (by omega), Nat.add_sub_cancel_left]
  cases st.1 <;> rfl

/-- **The walk through the list of modules.** It comes to `x` and the module after it, and no
further. -/
theorem findLoaded_eq (h : At files s em pre x st) (fuel : ℕ) :
    findLoaded s.ems em c (fuel + 3) em =
      if c = x then some (some em)
      else
        match st.1 with
        | some y => if c = y then some (some (em + 1)) else none
        | none => some none := by
  obtain ⟨hx, hnext⟩ := h.getElem?
  obtain ⟨m, hm, rfl⟩ := Option.map_eq_some_iff.mp hx
  rw [findLoaded, hm]
  simp only
  by_cases hc : c = m.id
  · rw [if_pos hc, if_pos hc.symm]
  rw [if_neg hc, if_neg (Ne.symm hc)]
  cases hst : st.1 with
  | none =>
      rw [hst] at hnext
      rw [findLoaded, Option.map_eq_none_iff.mp hnext]
  | some y =>
      rw [hst] at hnext
      obtain ⟨m', hm', rfl⟩ := Option.map_eq_some_iff.mp hnext
      have hstep : ∀ fuel, findLoaded s.ems em c (fuel + 1) (em + 1) =
          if m'.id = c then some (some (em + 1)) else findLoaded s.ems em c fuel (em + 1) := by
        intro fuel
        rw [findLoaded, hm']
      by_cases hc' : c = m'.id
      · rw [hstep, if_pos hc'.symm]
        exact (if_pos hc').symm
      · -- the same module, again and again
        have hloop : ∀ fuel, findLoaded s.ems em c fuel (em + 1) = none := by
          intro fuel
          induction fuel with
          | zero => rfl
          | succ fuel ih => rw [hstep, if_neg (Ne.symm hc'), ih]
        rw [hloop]
        exact (if_neg hc').symm

theorem At.length (h : At files s em pre x st) : ∃ n, s.ems.length + 2 = n + 3 := by
  have hlen := congrArg List.length h.ids
  simp only [List.length_map, List.length_append, List.length_cons] at hlen
  exact ⟨s.ems.length - 1, by omega⟩

/-- One file name. -/
theorem loadElfSharedLibrary_follows (h : At files s em pre x st) (path : List Char) :
    match files.vfsOpen path with
    | .error e => loadElfSharedLibrary files em path s = some (e.1, s)
    | .ok c => Follows files em pre x (loadElfSharedLibrary files em path s) (files.takes x c)
        (visit files x st c) := by
  unfold loadElfSharedLibrary
  cases files.vfsOpen path with
  | error e => rfl
  | ok c =>
      obtain ⟨fuel, hfuel⟩ := h.length
      have hmodify : ∀ i, At files { s with ems := s.ems.modify i fun m =>
          { m with refcnt := m.refcnt + 1 } } em pre x st := by
        intro i
        refine ⟨?_, h.place, h.mapped, h.ok⟩
        rw [← h.ids]
        apply List.ext_getElem?
        intro j
        rw [List.getElem?_map, List.getElem?_map, List.getElem?_modify, Option.map_eq_map,
          Option.map_map]
        congr 1
        funext m
        simp only [Function.comp_apply]
        split <;> rfl
      simp only [hfuel, findLoaded_eq h]
      unfold visit
      by_cases hx : c = x
      · rw [if_pos hx, if_pos hx]
        exact ⟨_, _, rfl, by simp [Files.takes, hx], hmodify em⟩
      rw [if_neg hx, if_neg hx]
      cases hst : st.1 with
      | some y =>
          simp only
          by_cases hy : c = y
          · rw [if_pos hy, if_pos hy]
            exact ⟨_, _, rfl, by simp [Files.takes, hy, h.ok y hst], hmodify (em + 1)⟩
          · rw [if_neg hy, if_neg hy]
            rfl
      | none =>
          simp only [Option.bind_eq_bind, Option.bind_some]
          by_cases hok : (files.lib c).headerOk = true
          · rw [if_neg (by simp [hok]), if_pos hok, h.mapped]
            cases hmap : mapPages st.2 (files.lib c).pages with
            | none => rfl
            | some mapped =>
                refine ⟨_, _, rfl, by simp [Files.takes, hok], ?_, h.place, rfl, ?_⟩
                · have hids := h.ids
                  rw [hst] at hids
                  simp [hids]
                · intro y hy
                  rw [← Option.some.inj hy]
                  exact hok
          · rw [if_pos (by simpa using hok), if_neg hok]
            exact ⟨_, _, rfl, by simp [Files.takes, hx, hok], h⟩

/-- The files with these names, one after the other. -/
theorem searchNamedLib_follows (h : At files s em pre x st) (paths : List (List Char)) :
    Follows files em pre x (searchNamedLib files em paths s)
      ((paths.filterMap files.fileAt).any (files.takes x))
      ((upTo (files.takes x) (paths.filterMap files.fileAt)).foldlM
        (visit files x) st) := by
  induction paths generalizing s st with
  | nil => exact ⟨-1, s, rfl, by simp, h⟩
  | cons path paths ih =>
      have hload := loadElfSharedLibrary_follows h path
      rw [searchNamedLib]
      cases hopen : files.vfsOpen path with
      | error e =>
          rw [hopen] at hload
          simp only at hload
          have hneg : ¬ e.1 ≥ 0 := not_le.mpr e.2
          have hnone : files.fileAt path = none := by rw [Files.fileAt, hopen]; rfl
          rw [hload, List.filterMap_cons_none hnone]
          simp only [Option.bind_eq_bind, Option.bind_some]
          by_cases hp : paths = []
          · rw [if_pos (Or.inr hp), hp]
            exact ⟨e.1, s, rfl, by simpa using hneg, h⟩
          · rw [if_neg (by simp [hneg, hp])]
            exact ih h
      | ok c =>
          rw [hopen] at hload
          simp only at hload
          have hsome : files.fileAt path = some c := by rw [Files.fileAt, hopen]; rfl
          rw [List.filterMap_cons_some hsome, upTo, List.any_cons]
          cases hvisit : visit files x st c with
          | none =>
              rw [hvisit] at hload
              have hload : loadElfSharedLibrary files em path s = none := hload
              rw [hload]
              split <;> simp [Follows, hvisit]
          | some st' =>
              rw [hvisit] at hload
              obtain ⟨ret, s', hrun, hret, hat⟩ := hload
              rw [hrun]
              simp only [Option.bind_eq_bind, Option.bind_some]
              by_cases htakes : files.takes x c = true
              · rw [if_pos (Or.inl (hret.mpr htakes)), if_pos htakes, List.foldlM_cons, hvisit]
                exact ⟨ret, s', rfl, by simp [hret, htakes], hat⟩
              · have hneg : ¬ ret ≥ 0 := fun hle => htakes (hret.mp hle)
                have hfalse : files.takes x c = false := by simpa using htakes
                rw [if_neg htakes, List.foldlM_cons, hvisit, hfalse, Bool.false_or]
                by_cases hp : paths = []
                · rw [if_pos (Or.inr hp), hp]
                  exact ⟨ret, s', rfl, by simpa using hneg, hat⟩
                · rw [if_neg (by simp [hneg, hp])]
                  exact ih hat

/-- Two searches, one after the other. -/
theorem searchNamedLib_append (paths paths' : List (List Char)) (hne : paths' ≠ []) (s : Image) :
    searchNamedLib files em (paths ++ paths') s =
      (searchNamedLib files em paths s).bind fun r =>
        if r.1 ≥ 0 then some r else searchNamedLib files em paths' r.2 := by
  induction paths generalizing s with
  | nil => rfl
  | cons path paths ih =>
      rw [List.cons_append, searchNamedLib, searchNamedLib, Option.bind_eq_bind, Option.bind_assoc]
      congr 1
      funext r
      by_cases hret : r.1 ≥ 0
      · simp [hret]
      · by_cases hp : paths = []
        · simp [hret, hp, hne]
        · simp only [hret, hp, hne, List.append_eq_nil_iff, and_false, or_false, if_false]
          exact ih r.2

/-- The search for a library is one through all its places. -/
theorem searchSharedLibrary_eq (files : Files) (x : FileId) (path : List Char) (s : Image) :
    searchSharedLibrary files em (files.lib x) path s =
      searchNamedLib files em (files.searchPaths x path) s := by
  have hne : ∀ l, libPaths (baseName path) l ≠ [] := by
    intro l
    unfold libPaths
    simp [List.splitOn_ne_nil]
  have hpart : ∀ (list : Option (List Char)) (s : Image),
      searchDynamic files em (baseName path) list s
        = searchNamedLib files em (list.elim [] (libPaths (baseName path))) s := by
    intro list s
    cases list <;> rfl
  unfold searchSharedLibrary Files.searchPaths
  rw [searchNamedLib_append _ _ (by simp [hne])]
  simp only [hpart, Option.bind_eq_bind]
  congr 1
  funext r
  by_cases hret : r.1 ≥ 0
  · simp [hret]
  · simp only [hret, if_false]
    rw [searchNamedLib_append _ _ (hne _)]
    rfl

/-- One need of `x`. -/
theorem searchSharedLibrary_follows (h : At files s em pre x st) (path : List Char) :
    Follows files em pre x (searchSharedLibrary files em (files.lib x) path s)
      ((files.candidates x path).any (files.takes x))
      ((upTo (files.takes x) (files.candidates x path)).foldlM (visit files x) st) := by
  rw [searchSharedLibrary_eq]
  exact searchNamedLib_follows h _

/-- **The needs of a module.** -/
theorem loadNeeded_follows (h : At files s em pre x st) (needed : List (List Char)) :
    Follows files em pre x (loadNeeded files em (files.lib x) needed s)
      (((needed.filter (· ≠ ldLinux)).map (files.candidates x)).all (·.any (files.takes x)))
      ((looked (files.takes x) ((needed.filter (· ≠ ldLinux)).map (files.candidates x))).foldlM
        (visit files x) st) := by
  induction needed generalizing s st with
  | nil => exact ⟨0, s, rfl, by simp, h⟩
  | cons path needed ih =>
      rw [loadNeeded]
      by_cases hld : path = ldLinux
      · rw [if_pos hld, List.filter_cons_of_neg (by simp [hld])]
        exact ih h
      rw [if_neg hld, List.filter_cons_of_pos (by simp [hld]), List.map_cons, looked, List.all_cons,
        List.foldlM_append]
      have hsearch := searchSharedLibrary_follows h path
      cases hvisit : (upTo (files.takes x) (files.candidates x path)).foldlM (visit files x) st with
      | none =>
          rw [hvisit] at hsearch
          have hsearch : searchSharedLibrary files em (files.lib x) path s = none := hsearch
          rw [hsearch]
          rfl
      | some st' =>
          rw [hvisit] at hsearch
          obtain ⟨ret, s', hrun, hret, hat⟩ := hsearch
          rw [hrun]
          simp only [Option.bind_eq_bind, Option.bind_some]
          by_cases hany : (files.candidates x path).any (files.takes x) = true
          · rw [if_neg (not_lt.mpr (hret.mpr hany)), if_pos hany, hany, Bool.true_and]
            exact ih hat
          · have hneg : ret < 0 := not_le.mp fun hle => hany (hret.mp hle)
            have hfalse : (files.candidates x path).any (files.takes x) = false := by simpa using hany
            rw [if_pos hneg, if_neg hany, hfalse, Bool.false_and]
            exact ⟨ret, s', rfl, by simpa using hneg, hat⟩

/-- The module after `x`, when all its needs are found. -/
def Files.after (files : Files) (x : FileId) (mapped : List ℕ) : Option FileId × List ℕ :=
  (files.next x, mapped ++ (files.next x).elim [] fun y => (files.lib y).pages)

theorem Files.after_some {mapped : List ℕ} (h : files.next x = some y) :
    files.after x mapped = (some y, mapped ++ (files.lib y).pages) := by
  unfold Files.after
  rw [h]
  rfl

theorem loadNeeded_some {mapped : List ℕ} {ret : ℤ} (h : At files s em pre x (none, mapped))
    (hrun : loadNeeded files em (files.lib x) (files.lib x).needed s = some (ret, s')) :
    files.OneOther x ∧ (∀ y ∈ files.next x, files.Free mapped y) ∧ (0 ≤ ret ↔ files.Found x) ∧
      At files s' em pre x (files.after x mapped) := by
  have hspec := loadNeeded_follows h (files.lib x).needed
  change Follows files em pre x _ ((files.needs x).all _) ((files.opened x).foldlM _ _) at hspec
  cases hvisit : (files.opened x).foldlM (visit files x) (none, mapped) with
  | none =>
      rw [hvisit] at hspec
      exact absurd (hspec.symm.trans hrun) (by simp)
  | some st =>
      rw [hvisit] at hspec
      obtain ⟨ret', s₁, hrun', hret, hat⟩ := hspec
      obtain ⟨rfl, rfl⟩ := Prod.mk.inj (Option.some.inj (hrun'.symm.trans hrun))
      obtain ⟨hone, hfree, rfl⟩ := foldlM_visit_none.mp hvisit
      exact ⟨hone, hfree, hret.trans List.all_eq_true, hat⟩

theorem exists_loadNeeded {mapped : List ℕ} (h : At files s em pre x (none, mapped))
    (hone : files.OneOther x) (hfree : ∀ y ∈ files.next x, files.Free mapped y) :
    ∃ ret s', loadNeeded files em (files.lib x) (files.lib x).needed s = some (ret, s') := by
  have hspec := loadNeeded_follows h (files.lib x).needed
  change Follows files em pre x _ ((files.needs x).all _) ((files.opened x).foldlM _ _) at hspec
  rw [foldlM_visit_none.mpr ⟨hone, hfree, rfl⟩] at hspec
  obtain ⟨ret, s', hrun, -⟩ := hspec
  exact ⟨ret, s', hrun⟩

/-- The next module of the worklist. -/
theorem At.next {mapped : List ℕ} (h : At files s em pre x (some y, mapped)) :
    At files s (em + 1) (pre ++ [x]) y (none, mapped) where
  ids := by simp [h.ids]
  place := by simp [h.place]
  mapped := h.mapped
  ok := fun z hz => absurd hz (by simp)

end

/-! ## The worklist -/

section

variable {files : Files} {s : Image} {em fuel : ℕ} {pre : List FileId} {exe x y f g : FileId}
  {mapped : List ℕ}

/-- A run that ends has gone through a graph that ends. -/
theorem ends_of_resolvFrom {r : ℤ × Image} (h : At files s em pre x (none, mapped))
    (hrun : resolvFrom files fuel em s = some r) : files.Ends mapped x := by
  induction fuel generalizing s em pre x mapped with
  | zero => exact absurd hrun (by simp [resolvFrom])
  | succ fuel ih =>
      obtain ⟨m, hm, rfl⟩ := Option.map_eq_some_iff.mp h.getElem?.1
      rw [resolvFrom, hm] at hrun
      simp only at hrun
      obtain ⟨⟨ret, s'⟩, hload, hrest⟩ := Option.bind_eq_some_iff.mp hrun
      obtain ⟨hone, hfree, hret, hat⟩ := loadNeeded_some h hload
      by_cases hfound : files.Found m.id
      · rw [if_neg (not_lt.mpr (hret.mpr hfound))] at hrest
        cases hnext : files.next m.id with
        | none => exact .stop hone hfree (Or.inl hnext)
        | some y =>
            rw [Files.after_some hnext] at hat
            exact .step hone hnext (hfree y hnext) (ih hat.next hrest)
      · exact .stop hone hfree (Or.inr hfound)

/-- What is known of the modules before `x`, and of `x`: all needs of those before are there. -/
structure Work (files : Files) (exe : FileId) (pre : List FileId) (x : FileId) (mapped : List ℕ) :
    Prop where
  nodup : (pre ++ [x]).Nodup
  pages : ∀ f ∈ pre ++ [x], ∀ page ∈ (files.lib f).pages, page ∈ mapped
  needed : ∀ f ∈ pre ++ [x], Relation.ReflTransGen files.Dep exe f
  exe : exe ∈ pre ++ [x]
  closed : ∀ f ∈ pre, ∀ g, files.Dep f g → g ∈ pre ++ [x]

/-- A module needs itself and the module it brings in, and nothing else. -/
theorem Files.OneOther.dep (hone : files.OneOther x) (hfound : files.Found x) (h : files.Dep x g) :
    g = x ∨ files.next x = some g := by
  obtain ⟨cs, hcs, hfind⟩ := h
  by_cases hx : g = x
  · exact Or.inl hx
  right
  have htakes := List.find?_some hfind
  have hother : files.other x g = true := by
    simpa [Files.takes, Files.other, hx] using htakes
  have hmem : g ∈ files.opened x := mem_looked_of_find? hfound hcs hfind
  cases hnext : files.next x with
  | none => exact absurd hother (List.find?_eq_none.mp hnext g hmem)
  | some y =>
      obtain ⟨hy, as, bs, hsplit, has⟩ := List.find?_eq_some_iff_append.mp hnext
      unfold Files.OneOther at hone
      rw [hsplit] at hone hmem
      obtain ⟨-, hone, -⟩ := List.pairwise_append.mp hone
      rcases List.mem_append.mp hmem with hmem | hmem
      · exact absurd hother (by simpa using has g hmem)
      · rcases List.mem_cons.mp hmem with rfl | hmem
        · rfl
        · rw [((List.pairwise_cons.mp hone).1 g hmem hy).resolve_left hx]

theorem Files.dep_next (h : files.next x = some y) :
    files.Dep x y ∧ y ≠ x ∧ (files.lib y).headerOk = true := by
  have hother := List.find?_some h
  obtain ⟨hne, hok⟩ := Files.other_iff.mp hother
  obtain ⟨cs, hcs, hfind⟩ := mem_looked (List.mem_of_find?_eq_some h)
    (show files.takes x y = true by simp [Files.takes, hok])
  exact ⟨⟨cs, hcs, hfind⟩, hne, hok⟩

/-- The module that `x` brings in is a new one. -/
theorem Work.next (h : Work files exe pre x mapped) (hone : files.OneOther x)
    (hfound : files.Found x) (hnext : files.next x = some y) (hfree : files.Free mapped y) :
    Work files exe (pre ++ [x]) y (mapped ++ (files.lib y).pages) := by
  obtain ⟨hdep, -, hok⟩ := Files.dep_next hnext
  obtain ⟨page, hpage⟩ := List.exists_mem_of_ne_nil _ ((files.lib y).pages_ne hok)
  have hnew : y ∉ pre ++ [x] := fun hmem => hfree.2 page hpage (h.pages y hmem page hpage)
  refine ⟨?_, fun f hf q hq => ?_, fun f hf => ?_, List.mem_append_left _ h.exe,
    fun f hf g hg => ?_⟩
  · exact List.nodup_append.mpr ⟨h.nodup, List.nodup_singleton y, fun a ha b hb hab => by
      rw [List.mem_singleton.mp hb] at hab
      exact hnew (hab ▸ ha)⟩
  · rcases List.mem_append.mp hf with hf | hf
    · exact List.mem_append_left _ (h.pages f hf q hq)
    · rw [List.mem_singleton.mp hf] at hq
      exact List.mem_append_right _ hq
  · rcases List.mem_append.mp hf with hf | hf
    · exact h.needed f hf
    · rw [List.mem_singleton.mp hf]
      exact (h.needed x (by simp)).tail hdep
  · rcases List.mem_append.mp hf with hf | hf
    · exact List.mem_append_left _ (h.closed f hf g hg)
    · rw [List.mem_singleton.mp hf] at hg
      rcases hone.dep hfound hg with rfl | hg
      · simp
      · rw [hnext] at hg
        obtain rfl := Option.some.inj hg
        simp

/-- When no module is left, the list is what the executable needs. -/
theorem Work.done (h : Work files exe pre x mapped) (hone : files.OneOther x)
    (hfound : files.Found x) (hnext : files.next x = none) :
    ∀ f, f ∈ pre ++ [x] ↔ Relation.ReflTransGen files.Dep exe f := by
  intro f
  refine ⟨h.needed f, fun hreach => ?_⟩
  induction hreach with
  | refl => exact h.exe
  | tail _ hdep ih =>
      rcases List.mem_append.mp ih with hf | hf
      · exact h.closed _ hf _ hdep
      · rw [List.mem_singleton.mp hf] at hdep
        rcases hone.dep hfound hdep with rfl | hg
        · simp
        · rw [hnext] at hg
          exact absurd hg (by simp)

/-- One module, and what is left to do after it. -/
theorem resolvFrom_succ (h : At files s em pre x (none, mapped)) (hone : files.OneOther x)
    (hfree : ∀ y ∈ files.next x, files.Free mapped y) :
    ∃ ret s', (0 ≤ ret ↔ files.Found x) ∧ At files s' em pre x (files.after x mapped) ∧
      ∀ fuel, resolvFrom files (fuel + 1) em s =
        if ret < 0 then some (ret, s') else resolvFrom files fuel (em + 1) s' := by
  obtain ⟨ret, s', hload⟩ := exists_loadNeeded h hone hfree
  obtain ⟨-, -, hret, hat⟩ := loadNeeded_some h hload
  obtain ⟨m, hm, rfl⟩ := Option.map_eq_some_iff.mp h.getElem?.1
  refine ⟨ret, s', hret, hat, fun fuel => ?_⟩
  rw [resolvFrom, hm]
  simp only [hload, Option.bind_eq_bind, Option.bind_some]
  rfl

/-- The run returns, and if it returns no error, the list is what the executable needs. -/
def RunRight (files : Files) (exe : FileId) (em : ℕ) (s : Image) : Prop :=
  ∃ fuel ret s', resolvFrom files fuel em s = some (ret, s') ∧
    (0 ≤ ret → (s'.ems.map ElfModule.id).Nodup ∧
      ∀ f, f ∈ s'.ems.map ElfModule.id ↔ Relation.ReflTransGen files.Dep exe f)

/-- A need that is not found ends the run. -/
theorem runRight_of_not_found (h : At files s em pre x (none, mapped)) (hone : files.OneOther x)
    (hfree : ∀ y ∈ files.next x, files.Free mapped y) (hfound : ¬ files.Found x) :
    RunRight files exe em s := by
  obtain ⟨ret, s', hret, -, hrun⟩ := resolvFrom_succ h hone hfree
  have hneg : ret < 0 := not_le.mp fun hle => hfound (hret.mp hle)
  exact ⟨1, ret, s', by rw [hrun, if_pos hneg], fun hle => absurd hle (not_le.mpr hneg)⟩

/-- **A graph that ends**: the run ends, with every module once. -/
theorem runRight_of_ends (hends : files.Ends mapped x) (h : At files s em pre x (none, mapped))
    (hwork : Work files exe pre x mapped) : RunRight files exe em s := by
  induction hends generalizing s em pre with
  | @stop mapped x hone hfree hstop =>
      by_cases hfound : files.Found x
      · have hnext := hstop.resolve_right (not_not.mpr hfound)
        obtain ⟨ret, s', hret, hat, hrun⟩ := resolvFrom_succ h hone hfree
        have hend : s'.ems[em + 1]? = none := by
          have hlast := hat.getElem?.2
          rw [Files.after, hnext] at hlast
          exact Option.map_eq_none_iff.mp hlast
        have hids : s'.ems.map ElfModule.id = pre ++ [x] := by
          rw [hat.ids, Files.after, hnext]
          rfl
        refine ⟨2, 0, s', ?_, fun _ => ?_⟩
        · rw [hrun, if_neg (not_lt.mpr (hret.mpr hfound)), resolvFrom, hend]
        · rw [hids]
          exact ⟨hwork.nodup, hwork.done hone hfound hnext⟩
      · exact runRight_of_not_found h hone hfree hfound
  | @step mapped x y hone hnext hfree _ ih =>
      have hfree' : ∀ z ∈ files.next x, files.Free mapped z := by
        intro z hz
        obtain rfl := Option.some.inj (hnext.symm.trans hz)
        exact hfree
      by_cases hfound : files.Found x
      · obtain ⟨ret, s', hret, hat, hrun⟩ := resolvFrom_succ h hone hfree'
        rw [Files.after_some hnext] at hat
        obtain ⟨fuel, ret', s₂, hrest, hgood⟩ := ih hat.next (hwork.next hone hfound hnext hfree)
        refine ⟨fuel + 1, ret', s₂, ?_, hgood⟩
        rw [hrun, if_neg (not_lt.mpr (hret.mpr hfound)), hrest]
      · exact runRight_of_not_found h hone hfree' hfound

/-- **When the libraries of a program are loaded.** -/
theorem resolvDepends_right_iff (hmapped : ∀ page ∈ (files.lib exe).pages, page ∈ mapped) :
    ResolvesRight files exe mapped ↔ files.Ends mapped exe := by
  have h : At files ⟨[⟨exe, 0⟩], mapped⟩ 0 [] exe (none, mapped) :=
    ⟨rfl, rfl, rfl, fun y hy => absurd hy (by simp)⟩
  constructor
  · rintro ⟨fuel, ret, s, hrun, -⟩
    exact ends_of_resolvFrom h hrun
  · intro hends
    refine runRight_of_ends hends h ⟨by simp, ?_, ?_, by simp, fun f hf => absurd hf (by simp)⟩
    · intro f hf
      rw [List.mem_singleton.mp hf]
      exact hmapped
    · intro f hf
      rw [List.mem_singleton.mp hf]

end

/-! ## Two libraries -/

def fileNr (n : ℕ) : FileId := ⟨0, BitVec.ofNat 32 n⟩

/-- A program, file 0, and the libraries `a` and `b`, which need nothing. -/
def twoLibs (needed : List (List Char)) : Files where
  vfsOpen path :=
    if path = "/lib/a".toList then .ok (fileNr 1)
    else if path = "/lib/b".toList then .ok (fileNr 2)
    else .error ⟨-2, by decide⟩
  lib f :=
    { headerOk := true
      pages := [f.iNo.toNat]
      pages_ne := fun _ => List.cons_ne_nil _ _
      needed := if f = fileNr 0 then needed else []
      rpath := none
      runpath := none }

/-- The program needs `a`. -/
theorem resolvDepends_right_iff_one : ResolvesRight (twoLibs ["a".toList]) (fileNr 0) [0] := by
  have hnext : (twoLibs ["a".toList]).next (fileNr 0) = some (fileNr 1) := by decide +kernel
  have hlast : (twoLibs ["a".toList]).next (fileNr 1) = none := by decide +kernel
  have hone : ∀ x ∈ [fileNr 0, fileNr 1], (twoLibs ["a".toList]).OneOther x := by
    unfold Files.OneOther
    decide +kernel
  refine (resolvDepends_right_iff (by decide)).mpr (.step (hone _ (by decide)) hnext ?_
    (.stop (hone _ (by decide)) (fun y hy => absurd (hlast.symm.trans hy) (by simp)) (Or.inl hlast)))
  unfold Files.Free
  decide +kernel

/-- The program needs `a` and `b`, and the search for `b` in the list of modules does not end. -/
theorem resolvDepends_can_loop :
    ¬ ∀ (files : Files) (exe : FileId) (mapped : List ℕ),
      (∀ page ∈ (files.lib exe).pages, page ∈ mapped) → ResolvesRight files exe mapped := by
  intro hall
  obtain ⟨fuel, ret, s, hrun, -⟩ := hall (twoLibs ["a".toList, "b".toList]) (fileNr 0) [0] (by decide)
  have hends := ends_of_resolvFrom (⟨rfl, rfl, rfl, fun y hy => absurd hy (by simp)⟩ :
    At _ ⟨[⟨fileNr 0, 0⟩], [0]⟩ 0 [] (fileNr 0) (none, [0])) hrun
  have hmany : ¬ (twoLibs ["a".toList, "b".toList]).OneOther (fileNr 0) := by
    unfold Files.OneOther
    decide +kernel
  cases hends with
  | stop hone => exact hmany hone
  | step hone => exact hmany hone

end Shaunos.Elf
