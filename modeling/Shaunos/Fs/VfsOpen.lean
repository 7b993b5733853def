import Shaunos.Fs.OpenFile
import Shaunos.Fs.PathLookup

/-!
# What an open does to the file objects

Reference: `Kernel/vfs.c` (`fget`, `vfs_open`, `vfs_close`), `Kernel/ext2.c` (`ext2_open`, `ext2_close`),
`Include/kernel/vfs.h`.

`vfs_open` finds the directory, lets the file system create a file object, and checks the mode of the file against
the access that is asked for. Its exit for errors closes `*file`, also when the file system did not set it.

* `vfsOpen_right_iff` — the file objects are treated right unless there is a directory but not the name in it;
* `vfsOpen_counts` — the counters of all files change as in `Shaunos.Fs.OpenFile`.
-/

namespace Shaunos.Fs.Vfs

open RefCount

/-! ## The code -/

def enoent : ℤ := 2
def enomem : ℤ := 12
def eio : ℤ := 5
def eperm : ℤ := 1

def fREAD : BitVec 32 := 1
def fWRITE : BitVec 32 := 2

def oRDONLY : BitVec 32 := 0
def oWRONLY : BitVec 32 := 1
def oRDWR : BitVec 32 := 2
def oACCMODE : BitVec 32 := 3

def sIRUSR : BitVec 32 := 0x100
def sIWUSR : BitVec 32 := 0x80

/-- `file_t`. -/
structure FileT where
  fType : BitVec 32
  fFlags : BitVec 32
  fCurrPos : BitVec 32
  fEndPos : BitVec 32
  fRefcnt : BitVec 32

/-- A `file_t` from `kzalloc`. -/
def FileT.zero : FileT := ⟨0, 0, 0, 0, 0⟩

/-- The file objects. Any address can be read as one. -/
structure FileMem where
  file : BitVec 32 → FileT
  live : BitVec 32 → Bool
  /-- The file objects that a file system created. -/
  created : List (BitVec 32)
  /-- The arguments of `vfs_close`. -/
  closed : List (BitVec 32)

/-- Write to a `file_t`. -/
def FileMem.set (m : FileMem) (fp : BitVec 32) (f : FileT) : FileMem :=
  { m with file := Function.update m.file fp f }

/-- `kzalloc(sizeof(file_t))`, which gets the address `fp`. -/
def FileMem.kzalloc (m : FileMem) (fp : BitVec 32) : FileMem :=
  { m.set fp .zero with live := Function.update m.live fp true }

/-- `kfree`. -/
def FileMem.kfree (m : FileMem) (fp : BitVec 32) : FileMem :=
  { m with live := Function.update m.live fp false }

/-- `fget`. -/
def fget (fp : BitVec 32) (m : FileMem) : FileMem :=
  if fp = 0 then m.set fp { m.file fp with fRefcnt := (m.file fp).fRefcnt + 1 } else m

/-- `ext2_close`, up to the vnode. -/
def ext2Close (fp : BitVec 32) (m : FileMem) : FileMem :=
  let m := if 0 < (m.file fp).fRefcnt then m.set fp { m.file fp with fRefcnt := (m.file fp).fRefcnt - 1 } else m
  if (m.file fp).fRefcnt = 0 then m.kfree fp else m

/-- `vfs_close`. The `f_ops` of a file are those of ext2. -/
def vfsClose (fp : BitVec 32) (m : FileMem) : FileMem :=
  let m := { m with closed := m.closed ++ [fp] }
  let m := m.set fp { m.file fp with fRefcnt := (m.file fp).fRefcnt - 1 }
  if (m.file fp).fRefcnt = 0 then ext2Close fp m else m

/-- The part of a vnode that an open reads. -/
structure VnodeT where
  vId : BitVec 32
  vMode : BitVec 32
  vSize : BitVec 32

/-- The part of an inode that an open reads. -/
structure InodeT where
  iMode : BitVec 16
  iSize : BitVec 32

/-- A mounted file system: its root, what `ext2_dir_find_entry` finds in a directory, and what `ext2_rw_inode`
reads. -/
structure Mount where
  vnode : VnodeT
  findEntry : BitVec 32 → Name → Option (BitVec 32)
  rwInode : BitVec 32 → Option InodeT

/-- `ext2_open`, with what `*pfile` holds before. -/
def ext2Open (mp : Mount) (pv : VnodeT) (path : Name) (pfile fp : BitVec 32) (m : FileMem) :
    ℤ × BitVec 32 × FileMem :=
  let m := m.kzalloc fp
  if path = [] then
    let file := { m.file fp with fCurrPos := 0, fEndPos := pv.vSize, fType := pv.vMode }
    let m := m.set fp { file with fRefcnt := file.fRefcnt + 1 }
    (0, fp, { m with created := m.created ++ [fp] })
  else
    match mp.findEntry pv.vId path with
    | none => (-enoent, pfile, m.kfree fp)
    | some dInode =>
        match mp.rwInode dInode with
        | none => (-eio, pfile, m.kfree fp)
        | some inode =>
            let file := { m.file fp with fEndPos := inode.iSize, fCurrPos := 0, fType := inode.iMode.setWidth 32 }
            let m := m.set fp { file with fRefcnt := file.fRefcnt + 1 }
            (0, fp, { m with created := m.created ++ [fp] })

/-- The vnode that `vfs_path_lookup` returns. The one it allocates has only its id set. -/
def Found.toVnode (f : Found) (start : VnodeT) : VnodeT :=
  match f.vnode with
  | .given => start
  | .next => ⟨f.vId, 0, 0⟩

/-- The vnode a path starts at. -/
def startOf (mp : Mount) (pv : VnodeT) (path : List Char) : VnodeT := if path.head? = some '/' then mp.vnode else pv

/-- The check of the access mode: the rights that are added to `f_flags`, if the mode of the file allows them. -/
def accessRights (flag fType : BitVec 32) : Option (BitVec 32) :=
  if flag &&& oACCMODE = oRDWR then
    if fType &&& (sIWUSR ||| sIRUSR) ≠ (sIWUSR ||| sIRUSR) then none else some (fREAD ||| fWRITE)
  else if flag &&& oACCMODE = oWRONLY then if fType &&& sIWUSR = 0 then none else some fWRITE
  else if flag &&& oACCMODE = oRDONLY then if fType &&& sIRUSR = 0 then none else some fREAD
  else some 0

/-- `vfs_open`: the result, `*file` and the file objects. `memory` tells if there is memory for the name, `pfile`
is what `*file` holds before, and `fp` is where `ext2_open` gets its memory. -/
def vfsOpen (mp : Mount) (memory : Bool) (pv : VnodeT) (path : List Char) (flag pfile fp : BitVec 32) (m : FileMem) :
    ℤ × BitVec 32 × FileMem :=
  if memory = false then (-enomem, pfile, m)
  else
    match vfsPathLookup mp.findEntry mp.vnode.vId pv.vId path with
    | none => (-enoent, pfile, m)
    | some found =>
        let (retval, file, m) :=
          ext2Open mp (Found.toVnode found (startOf mp pv path)) found.suffix pfile fp m
        if retval < 0 then (retval, file, vfsClose file m)
        else
          match accessRights flag (m.file file).fType with
          | none => (-eperm, file, vfsClose file m)
          | some rights =>
              let m := m.set file { m.file file with fFlags := (m.file file).fFlags ||| rights }
              let m := m.set file { m.file file with fFlags := (m.file file).fFlags ||| (flag &&& ~~~oACCMODE) }
              (0, file, fget file m)

/-! ## What it should do -/

/-- The access mode asks to read. -/
def AsksRead (flag : BitVec 32) : Prop := flag &&& oACCMODE = oRDONLY ∨ flag &&& oACCMODE = oRDWR

/-- The access mode asks to write. -/
def AsksWrite (flag : BitVec 32) : Prop := flag &&& oACCMODE = oWRONLY ∨ flag &&& oACCMODE = oRDWR

/-- A file that has just been opened: one reference, and the rights that are asked for and that its mode allows. -/
structure JustOpened (flag : BitVec 32) (f : FileT) : Prop where
  refcnt : f.fRefcnt = 1
  read : f.fFlags &&& fREAD ≠ 0 ↔ AsksRead flag ∧ f.fType &&& sIRUSR ≠ 0
  write : f.fFlags &&& fWRITE ≠ 0 ↔ AsksWrite flag ∧ f.fType &&& sIWUSR ≠ 0
  allowed : (AsksRead flag → f.fType &&& sIRUSR ≠ 0) ∧ (AsksWrite flag → f.fType &&& sIWUSR ≠ 0)

/-- An open treats the file objects right. -/
structure OpenRight (flag : BitVec 32) (m : FileMem) (run : ℤ × BitVec 32 × FileMem) : Prop where
  /-- The files that were there are not touched. -/
  others : ∀ p, m.live p = true → run.2.2.file p = m.file p ∧ run.2.2.live p = true
  /-- A failure closes the file that was created, if any, and leaves no file behind. -/
  failed : run.1 ≠ 0 → run.1 < 0 ∧ run.2.2.live = m.live ∧
    ∃ l, run.2.2.created = m.created ++ l ∧ run.2.2.closed = m.closed ++ l
  /-- A success returns the file that was created. -/
  opened : run.1 = 0 → m.live run.2.1 = false ∧ run.2.2.live = Function.update m.live run.2.1 true ∧
    run.2.2.created = m.created ++ [run.2.1] ∧ run.2.2.closed = m.closed ∧ JustOpened flag (run.2.2.file run.2.1)

/-- The directory of the path is there, but its last name is not in it, or the inode of the name cannot be read. -/
def NameMissing (mp : Mount) (pv : VnodeT) (path : List Char) : Prop :=
  ∃ found, vfsPathLookup mp.findEntry mp.vnode.vId pv.vId path = some found ∧ found.suffix ≠ [] ∧
    (mp.findEntry found.vId found.suffix).bind mp.rwInode = none

/-! ## Writing to one file -/

section

variable {m : FileMem} {fp p : BitVec 32} {f : FileT}

theorem set_live : (m.set fp f).live = m.live := rfl

theorem set_file_self : (m.set fp f).file fp = f := Function.update_self ..

theorem set_file_of_ne (h : p ≠ fp) : (m.set fp f).file p = m.file p := Function.update_of_ne h ..

theorem set_set {g : FileT} : (m.set fp f).set fp g = m.set fp g := by
  unfold FileMem.set
  rw [Function.update_idem]

/-- A close does not touch the other files. -/
theorem vfsClose_file_of_ne (h : p ≠ fp) : (vfsClose fp m).file p = m.file p := by
  unfold vfsClose ext2Close
  dsimp only
  split_ifs <;> simp [FileMem.kfree, set_file_of_ne h]

theorem vfsClose_live_of_ne (h : p ≠ fp) : (vfsClose fp m).live p = m.live p := by
  unfold vfsClose ext2Close
  dsimp only
  split_ifs <;> simp [FileMem.kfree, FileMem.set, Function.update_of_ne h]

theorem vfsClose_closed : (vfsClose fp m).closed = m.closed ++ [fp] := by
  unfold vfsClose ext2Close
  dsimp only
  split_ifs <;> rfl

theorem vfsClose_created : (vfsClose fp m).created = m.created := by
  unfold vfsClose ext2Close
  dsimp only
  split_ifs <;> rfl

theorem ext2Close_of_zero (h : (m.file fp).fRefcnt = 0) : ext2Close fp m = m.kfree fp := by
  have hpos : ¬ 0 < (m.file fp).fRefcnt := by rw [h]; decide
  unfold ext2Close
  simp only [hpos, if_false]
  rw [if_pos h]

/-- The last reference frees the file. -/
theorem vfsClose_live_of_last (h : (m.file fp).fRefcnt = 1) :
    (vfsClose fp m).live = Function.update m.live fp false := by
  have hzero : (m.file fp).fRefcnt - 1 = 0 := by rw [h]; rfl
  unfold vfsClose
  dsimp only
  rw [if_pos (by rw [set_file_self]; exact hzero), ext2Close_of_zero (by rw [set_file_self]; exact hzero)]
  rfl

theorem fget_of_ne_zero (h : fp ≠ 0) : fget fp m = m := if_neg h

end

/-! ## The file of a successful `ext2_open` -/

section

variable {mp : Mount} {pv : VnodeT} {path : Name} {pfile fp : BitVec 32} {m : FileMem}

/-- A file that `ext2_open` created: nothing is set yet but the mode and the reference. -/
structure Created (m : FileMem) (fp : BitVec 32) (m' : FileMem) : Prop where
  file : ∀ p, p ≠ fp → m'.file p = m.file p
  live : m'.live = Function.update m.live fp true
  created : m'.created = m.created ++ [fp]
  closed : m'.closed = m.closed
  refcnt : (m'.file fp).fRefcnt = 1
  flags : (m'.file fp).fFlags = 0

/-- The name is in the directory, and its inode can be read. -/
def Present (mp : Mount) (dir : BitVec 32) (name : Name) : Prop :=
  name = [] ∨ ((mp.findEntry dir name).bind mp.rwInode).isSome

theorem ext2Open_of_present (pfile fp : BitVec 32) (m : FileMem) (h : Present mp pv.vId path) :
    (ext2Open mp pv path pfile fp m).1 = 0 ∧ (ext2Open mp pv path pfile fp m).2.1 = fp ∧
      Created m fp (ext2Open mp pv path pfile fp m).2.2 := by
  have hset : ∀ f : FileT, f.fRefcnt = 1 → f.fFlags = 0 →
      Created m fp { (m.kzalloc fp).set fp f with created := m.created ++ [fp] } := by
    intro f hrefcnt hflags
    have hself : ((m.kzalloc fp).set fp f).file fp = f := set_file_self
    refine ⟨?_, rfl, rfl, rfl, ?_, ?_⟩
    · intro p hp
      show ((m.kzalloc fp).set fp f).file p = m.file p
      rw [set_file_of_ne hp]
      exact set_file_of_ne hp
    · exact (congrArg FileT.fRefcnt hself).trans hrefcnt
    · exact (congrArg FileT.fFlags hself).trans hflags
  have hzero : (m.kzalloc fp).file fp = .zero := set_file_self
  unfold ext2Open
  by_cases hpath : path = []
  · simp only [hpath, if_true]
    refine ⟨trivial, trivial, hset _ ?_ ?_⟩
    · simp [hzero, FileT.zero]
    · simp [hzero, FileT.zero]
  · obtain ⟨inode, hinode⟩ := Option.isSome_iff_exists.mp (h.resolve_left hpath)
    obtain ⟨dInode, hentry, hread⟩ := Option.bind_eq_some_iff.mp hinode
    simp only [hpath, if_false, hentry, hread]
    refine ⟨trivial, trivial, hset _ ?_ ?_⟩
    · simp [hzero, FileT.zero]
    · simp [hzero, FileT.zero]

theorem ext2Open_of_not_present (pfile fp : BitVec 32) (m : FileMem) (h : ¬ Present mp pv.vId path) :
    (ext2Open mp pv path pfile fp m).1 < 0 ∧ (ext2Open mp pv path pfile fp m).2.1 = pfile ∧
      (ext2Open mp pv path pfile fp m).2.2 = (m.kzalloc fp).kfree fp := by
  have hpath : path ≠ [] := fun hnil => h (.inl hnil)
  unfold ext2Open
  simp only [hpath, if_false]
  cases hentry : mp.findEntry pv.vId path with
  | none => exact ⟨neg_neg_of_pos (by decide), rfl, rfl⟩
  | some dInode =>
      simp only
      cases hread : mp.rwInode dInode with
      | none => exact ⟨neg_neg_of_pos (by decide), rfl, rfl⟩
      | some inode => exact absurd (.inr (by simp [hentry, hread])) h

end

/-! ## The access mode -/

section

variable {flag fType rights : BitVec 32}

instance : Decidable (AsksRead flag) := inferInstanceAs (Decidable (_ ∨ _))

instance : Decidable (AsksWrite flag) := inferInstanceAs (Decidable (_ ∨ _))

/-- The rights that the access mode asks for. -/
def asked (flag : BitVec 32) : BitVec 32 :=
  (if AsksRead flag then fREAD else 0) ||| (if AsksWrite flag then fWRITE else 0)

/-- The mode of a file allows all that is asked for. -/
def Allowed (flag fType : BitVec 32) : Prop :=
  (AsksRead flag → fType &&& sIRUSR ≠ 0) ∧ (AsksWrite flag → fType &&& sIWUSR ≠ 0)

instance : Decidable (Allowed flag fType) := inferInstanceAs (Decidable (_ ∧ _))

/-- The owner's two bits of a mode. -/
theorem both_bits_iff : fType &&& (sIWUSR ||| sIRUSR) = (sIWUSR ||| sIRUSR) ↔
    fType &&& sIRUSR ≠ 0 ∧ fType &&& sIWUSR ≠ 0 := by
  have hread : fType &&& sIRUSR = if fType.getLsbD 8 then sIRUSR else 0 := BitVec.and_twoPow fType 8
  have hwrite : fType &&& sIWUSR = if fType.getLsbD 7 then sIWUSR else 0 := BitVec.and_twoPow fType 7
  rw [BitVec.and_or_distrib_left, hread, hwrite]
  cases fType.getLsbD 8 <;> cases fType.getLsbD 7 <;> decide

/-- The check of the access mode gives what is asked for, or fails. -/
theorem accessRights_eq (flag fType : BitVec 32) :
    accessRights flag fType = if Allowed flag fType then some (asked flag) else none := by
  unfold accessRights asked Allowed AsksRead AsksWrite
  by_cases hrdwr : flag &&& oACCMODE = oRDWR
  · simp only [hrdwr, if_true, or_true, true_imp_iff, ← both_bits_iff, ne_eq]
    split_ifs <;> rfl
  by_cases hwr : flag &&& oACCMODE = oWRONLY
  · have hne : oWRONLY ≠ oRDWR ∧ oWRONLY ≠ oRDONLY := by decide
    simp [hwr, hne]
  by_cases hrd : flag &&& oACCMODE = oRDONLY
  · have hne : oRDONLY ≠ oRDWR ∧ oRDONLY ≠ oWRONLY := by decide
    simp [hrd, hne]
  · simp [hrdwr, hwr, hrd]

theorem asked_read : asked flag &&& fREAD ≠ 0 ↔ AsksRead flag := by
  unfold asked
  by_cases hread : AsksRead flag <;> by_cases hwrite : AsksWrite flag <;>
    simp only [hread, hwrite, if_true, if_false] <;> decide

theorem asked_write : asked flag &&& fWRITE ≠ 0 ↔ AsksWrite flag := by
  unfold asked
  by_cases hread : AsksRead flag <;> by_cases hwrite : AsksWrite flag <;>
    simp only [hread, hwrite, if_true, if_false] <;> decide

/-- The other flags of the request are not rights. -/
theorem rest_and (flag : BitVec 32) :
    (flag &&& ~~~oACCMODE) &&& fREAD = 0 ∧ (flag &&& ~~~oACCMODE) &&& fWRITE = 0 := by
  have hread : ~~~oACCMODE &&& fREAD = 0 := by decide
  have hwrite : ~~~oACCMODE &&& fWRITE = 0 := by decide
  rw [BitVec.and_assoc, BitVec.and_assoc, hread, hwrite]
  exact ⟨BitVec.and_zero, BitVec.and_zero⟩

end

/-! ## The open -/

section

variable {mp : Mount} {memory : Bool} {pv : VnodeT} {path : List Char} {flag pfile fp : BitVec 32} {m : FileMem}

/-- The vnode of the walk has the id that was found. -/
theorem toVnode_vId {found : Found} (h : vfsPathLookup mp.findEntry mp.vnode.vId pv.vId path = some found) :
    (Found.toVnode found (startOf mp pv path)).vId = found.vId := by
  unfold vfsPathLookup at h
  unfold startOf
  by_cases hslash : path.head? = some '/'
  · simp only [hslash, if_true] at h ⊢
    obtain ⟨⟨w, p⟩, -, rfl⟩ := Option.map_eq_some_iff.mp h
    unfold Found.toVnode
    cases w.currv <;> simp only [Walk.vId]
  · simp only [hslash, if_false] at h ⊢
    obtain ⟨⟨w, p⟩, -, rfl⟩ := Option.map_eq_some_iff.mp h
    unfold Found.toVnode
    cases w.currv <;> simp only [Walk.vId]

/-- A failure that closes what was created is right. -/
theorem OpenRight.of_failed {run : ℤ × BitVec 32 × FileMem} (hret : run.1 < 0)
    (hfile : ∀ p, m.live p = true → run.2.2.file p = m.file p) (hlive : run.2.2.live = m.live)
    (hclosed : ∃ l, run.2.2.created = m.created ++ l ∧ run.2.2.closed = m.closed ++ l) : OpenRight flag m run where
  others p hp := ⟨hfile p hp, hlive ▸ hp⟩
  failed _ := ⟨hret, hlive, hclosed⟩
  opened h := absurd h hret.ne

/-- An open that is refused before the file system is asked. -/
theorem OpenRight.of_unchanged {retval : ℤ} (hret : retval < 0) : OpenRight flag m (retval, pfile, m) :=
  .of_failed hret (fun _ _ => rfl) rfl ⟨[], (List.append_nil _).symm, (List.append_nil _).symm⟩

/-- The file of an open that is not allowed is closed. -/
theorem Created.close {m' : FileMem} (h : Created m fp m') (hfree : m.live fp = false) {retval : ℤ}
    (hret : retval < 0) : OpenRight flag m (retval, fp, vfsClose fp m') := by
  refine .of_failed hret ?_ ?_ ⟨[fp], ?_, ?_⟩
  · intro p hp
    have hne : p ≠ fp := by
      rintro rfl
      exact absurd (hp.symm.trans hfree) (by decide)
    exact (vfsClose_file_of_ne hne).trans (h.file p hne)
  · rw [vfsClose_live_of_last h.refcnt, h.live, Function.update_idem, Function.update_eq_self_iff]
    exact hfree.symm
  · rw [vfsClose_created, h.created]
  · rw [vfsClose_closed, h.closed]

/-- The file of an open that is allowed gets the rights that are asked for. -/
theorem Created.open_ {m' : FileMem} (h : Created m fp m') (hfree : m.live fp = false) (hne : fp ≠ 0)
    (hallowed : Allowed flag (m'.file fp).fType) {f : FileT} (htype : f.fType = (m'.file fp).fType)
    (hrefcnt : f.fRefcnt = (m'.file fp).fRefcnt)
    (hflags : f.fFlags = (m'.file fp).fFlags ||| asked flag ||| (flag &&& ~~~oACCMODE)) :
    OpenRight flag m (0, fp, fget fp (m'.set fp f)) := by
  have hself : (m'.set fp f).file fp = f := set_file_self
  have hread : f.fFlags &&& fREAD = asked flag &&& fREAD := by
    rw [hflags, h.flags, BitVec.and_or_distrib_right, (rest_and flag).1]
    simp
  have hwrite : f.fFlags &&& fWRITE = asked flag &&& fWRITE := by
    rw [hflags, h.flags, BitVec.and_or_distrib_right, (rest_and flag).2]
    simp
  rw [fget_of_ne_zero hne]
  refine ⟨?_, fun hret => absurd rfl hret, fun _ => ⟨hfree, h.live, h.created, h.closed, ?_⟩⟩
  · intro p hp
    have hpne : p ≠ fp := by
      rintro rfl
      exact absurd (hp.symm.trans hfree) (by decide)
    refine ⟨(set_file_of_ne hpne).trans (h.file p hpne), ?_⟩
    show m'.live p = true
    rw [h.live, Function.update_of_ne hpne, hp]
  · show JustOpened flag ((m'.set fp f).file fp)
    rw [hself]
    refine ⟨hrefcnt.trans h.refcnt, ?_, ?_, ?_⟩
    · rw [hread, asked_read, htype]
      exact ⟨fun hasks => ⟨hasks, hallowed.1 hasks⟩, And.left⟩
    · rw [hwrite, asked_write, htype]
      exact ⟨fun hasks => ⟨hasks, hallowed.2 hasks⟩, And.left⟩
    · rw [htype]
      exact hallowed

/-- If the name is there, the file object is closed or returned. -/
theorem vfsOpen_of_present {found : Found} (hmem : memory = true)
    (hfound : vfsPathLookup mp.findEntry mp.vnode.vId pv.vId path = some found)
    (hpresent : Present mp found.vId found.suffix) (hfree : m.live fp = false) (hne : fp ≠ 0) :
    OpenRight flag m (vfsOpen mp memory pv path flag pfile fp m) := by
  rw [← toVnode_vId hfound] at hpresent
  obtain ⟨hret, hfile, hcreated⟩ := ext2Open_of_present pfile fp m hpresent
  unfold vfsOpen
  simp only [hmem, Bool.true_eq_false, if_false, hfound]
  generalize ext2Open mp (Found.toVnode found (startOf mp pv path)) found.suffix pfile fp m = run at *
  obtain ⟨retval, file, m'⟩ := run
  obtain rfl : retval = 0 := hret
  obtain rfl : file = fp := hfile
  simp only [lt_irrefl, if_false, accessRights_eq]
  by_cases hallowed : Allowed flag (m'.file file).fType
  · simp only [hallowed, if_true, set_set, set_file_self]
    exact hcreated.open_ hfree hne hallowed rfl rfl rfl
  · simp only [hallowed, if_false]
    exact hcreated.close hfree (by decide)

/-- If the name is missing, whatever `*file` holds is closed. -/
theorem vfsOpen_of_missing (flag pfile fp : BitVec 32) (m : FileMem) {found : Found} (hmem : memory = true)
    (hfound : vfsPathLookup mp.findEntry mp.vnode.vId pv.vId path = some found)
    (hmissing : ¬ Present mp found.vId found.suffix) :
    (vfsOpen mp memory pv path flag pfile fp m).1 < 0 ∧
      (vfsOpen mp memory pv path flag pfile fp m).2.2 = vfsClose pfile ((m.kzalloc fp).kfree fp) := by
  rw [← toVnode_vId hfound] at hmissing
  obtain ⟨hret, hfile, hm⟩ := ext2Open_of_not_present pfile fp m hmissing
  unfold vfsOpen
  simp only [hmem, Bool.true_eq_false, if_false, hfound, hret, if_true, hfile, hm]
  exact ⟨trivial, trivial⟩

theorem not_present_iff {dir : BitVec 32} {name : Name} :
    ¬ Present mp dir name ↔ name ≠ [] ∧ (mp.findEntry dir name).bind mp.rwInode = none := by
  rw [Present, not_or, Option.not_isSome_iff_eq_none]

/-- **The file objects are treated right** unless there is a directory but not the name in it. -/
theorem vfsOpen_right_iff (mp : Mount) (memory : Bool) (pv : VnodeT) (path : List Char) (flag pfile : BitVec 32)
    (fp : File) (m : FileMem) (hfree : m.live fp.1 = false) :
    OpenRight flag m (vfsOpen mp memory pv path flag pfile fp.1 m) ↔ ¬ (memory = true ∧ NameMissing mp pv path) := by
  constructor
  · rintro hright ⟨hmem, found, hfound, hmissing⟩
    obtain ⟨hret, hm⟩ := vfsOpen_of_missing flag pfile fp.1 m hmem hfound
      (not_present_iff.mpr hmissing)
    obtain ⟨l, hcreated, hclosed⟩ := (hright.failed hret.ne).2.2
    rw [hm, vfsClose_created] at hcreated
    rw [hm, vfsClose_closed] at hclosed
    have hnil : l = [] := List.self_eq_append_right.mp hcreated
    rw [hnil] at hclosed
    exact absurd (List.append_cancel_left hclosed) (List.cons_ne_nil _ _)
  · intro hpresent
    by_cases hmem : memory = true
    · cases hfound : vfsPathLookup mp.findEntry mp.vnode.vId pv.vId path with
      | none =>
          unfold vfsOpen
          simp only [hmem, Bool.true_eq_false, if_false, hfound]
          exact .of_unchanged (by decide)
      | some found =>
          refine vfsOpen_of_present hmem hfound ?_ hfree fp.2
          by_contra hmissing
          exact hpresent ⟨hmem, found, hfound, not_present_iff.mp hmissing⟩
    · unfold vfsOpen
      rw [if_pos (Bool.eq_false_iff.mpr hmem)]
      exact .of_unchanged (by decide)

end

/-! ## The counters -/

section

variable {m : FileMem} {h : Files} {fp p : BitVec 32} {f : FileT}

/-- The counters of the files that are there. -/
structure Counts (m : FileMem) (h : Files) : Prop where
  live : h.live = m.live
  count : ∀ p, m.live p = true → h.count p = (m.file p).fRefcnt.toNat

theorem Counts.count_iff (hc : Counts m h) (hlive : m.live fp = true) : h.count fp = 0 ↔ (m.file fp).fRefcnt = 0 := by
  rw [hc.count fp hlive]
  exact ⟨fun hzero => BitVec.eq_of_toNat_eq hzero, fun hzero => by rw [hzero]; rfl⟩

/-- Only the files that are there matter. -/
theorem Counts.of_agree (hc : Counts m h) {m' : FileMem} {h' : Files} (hm : m'.live = m.live) (hh : h'.live = h.live)
    (hfile : ∀ p, m.live p = true → m'.file p = m.file p)
    (hcount : ∀ p, m.live p = true → h'.count p = h.count p) : Counts m' h' := by
  refine ⟨hh.trans (hc.live.trans hm.symm), fun p hp => ?_⟩
  rw [hm] at hp
  rw [hcount p hp, hfile p hp]
  exact hc.count p hp

/-- A counter and the count of it are set together. -/
theorem Counts.set (hc : Counts m h) {n : ℕ} (hn : m.live fp = true → n = f.fRefcnt.toNat) (fault : Bool) :
    Counts (m.set fp f) { h with count := Function.update h.count fp n, fault := fault } := by
  refine ⟨hc.live, fun p hp => ?_⟩
  by_cases hne : p = fp
  · subst hne
    rw [set_file_self, ← hn hp]
    exact Function.update_self ..
  · rw [set_file_of_ne hne, ← hc.count p hp]
    exact Function.update_of_ne hne ..

theorem Counts.set_same (hc : Counts m h) (hf : f.fRefcnt = (m.file fp).fRefcnt) : Counts (m.set fp f) h := by
  refine ⟨hc.live, fun p hp => ?_⟩
  by_cases hne : p = fp
  · subst hne
    rw [set_file_self, hf]
    exact hc.count p hp
  · rw [set_file_of_ne hne]
    exact hc.count p hp

theorem Counts.free (hc : Counts m h) : Counts (m.kfree fp) (h.free fp) := by
  refine ⟨?_, fun p hp => hc.count p ?_⟩
  · show Function.update h.live fp false = Function.update m.live fp false
    rw [hc.live]
  · by_contra hdead
    have hup : Function.update m.live fp false p = true := hp
    by_cases hne : p = fp
    · subst hne
      rw [Function.update_self] at hup
      exact absurd hup (by decide)
    · rw [Function.update_of_ne hne] at hup
      exact hdead hup

/-- What is not there is not counted, so it may be freed on one side only. -/
theorem Counts.of_free (hc : Counts m h) (hdead : m.live fp = false) :
    Counts (m.kfree fp) h ∧ Counts m (h.free fp) := by
  have hm : Function.update m.live fp false = m.live := by
    rw [Function.update_eq_self_iff, hdead]
  have hh : Function.update h.live fp false = h.live := by
    rw [Function.update_eq_self_iff, hc.live, hdead]
  refine ⟨⟨hc.live.trans hm.symm, fun p hp => hc.count p ?_⟩, ⟨hh.trans hc.live, hc.count⟩⟩
  have hp' : Function.update m.live fp false p = true := hp
  rwa [hm] at hp'

/-- A file whose counter is 0 is freed. -/
theorem Counts.freeZero (hc : Counts m h) :
    Counts (if (m.file fp).fRefcnt = 0 then m.kfree fp else m) (if h.count fp = 0 then h.free fp else h) := by
  by_cases hlive : m.live fp = true
  · by_cases hzero : (m.file fp).fRefcnt = 0
    · rw [if_pos hzero, if_pos ((hc.count_iff hlive).mpr hzero)]
      exact hc.free
    · rw [if_neg hzero, if_neg (mt (hc.count_iff hlive).mp hzero)]
      exact hc
  · have hdead : m.live fp = false := Bool.eq_false_iff.mpr hlive
    split_ifs
    · exact hc.free
    · exact (hc.of_free hdead).1
    · exact (hc.of_free hdead).2
    · exact hc

/-- Both models of `--f_refcnt`. -/
theorem Counts.decr (hc : Counts m h) (fp : BitVec 32) (fault : Bool) :
    Counts (m.set fp { m.file fp with fRefcnt := (m.file fp).fRefcnt - 1 })
      { h with count := Function.update h.count fp ((h.count fp + (2 ^ 32 - 1)) % 2 ^ 32), fault := fault } := by
  refine hc.set (fun hlive => ?_) fault
  rw [hc.count fp hlive, BitVec.toNat_sub, add_comm]
  rfl

theorem Counts.ext2Close (hc : Counts m h) : Counts (ext2Close fp m) (fOpsClose fp h) := by
  have hdecr : Counts
      (if 0 < (m.file fp).fRefcnt then m.set fp { m.file fp with fRefcnt := (m.file fp).fRefcnt - 1 } else m)
      (if h.count fp > 0 then { h with count := Function.update h.count fp (h.count fp - 1) } else h) := by
    by_cases hlive : m.live fp = true
    · have hpos : 0 < (m.file fp).fRefcnt ↔ h.count fp > 0 := by
        rw [hc.count fp hlive]
        exact BitVec.lt_def
      by_cases hgt : 0 < (m.file fp).fRefcnt
      · rw [if_pos hgt, if_pos (hpos.mp hgt)]
        refine hc.set (fun _ => ?_) h.fault
        have hnat := hpos.mp hgt
        rw [hc.count fp hlive] at hnat ⊢
        have hlt := (m.file fp).fRefcnt.isLt
        rw [BitVec.toNat_sub]
        show (m.file fp).fRefcnt.toNat - 1 = (2 ^ 32 - 1 + (m.file fp).fRefcnt.toNat) % 2 ^ 32
        omega
      · rw [if_neg hgt, if_neg (mt hpos.mpr hgt)]
        exact hc
    · have hne : ∀ p, m.live p = true → p ≠ fp := fun p hp heq => hlive (heq ▸ hp)
      refine hc.of_agree ?_ ?_ (fun p hp => ?_) (fun p hp => ?_)
      · split_ifs <;> rfl
      · split_ifs <;> rfl
      · split_ifs
        · exact set_file_of_ne (hne p hp)
        · rfl
      · split_ifs
        · exact Function.update_of_ne (hne p hp) ..
        · rfl
  exact hdecr.freeZero

/-- A close of what is not there. -/
theorem ext2Close_of_dead (hdead : m.live fp = false) :
    (ext2Close fp m).live = m.live ∧ ∀ p, p ≠ fp → (ext2Close fp m).file p = m.file p := by
  have hupdate : Function.update m.live fp false = m.live := by rw [Function.update_eq_self_iff, hdead]
  unfold ext2Close
  dsimp only
  constructor
  · split_ifs <;> first | exact hupdate | rfl
  · intro p hp
    split_ifs <;> first | exact set_file_of_ne hp | rfl

theorem fOpsClose_of_dead (hdead : h.live fp = false) :
    (fOpsClose fp h).live = h.live ∧ ∀ p, p ≠ fp → (fOpsClose fp h).count p = h.count p := by
  have hupdate : Function.update h.live fp false = h.live := by rw [Function.update_eq_self_iff, hdead]
  unfold fOpsClose
  dsimp only
  constructor
  · split_ifs <;> first | exact hupdate | rfl
  · intro p hp
    split_ifs <;> first | exact Function.update_of_ne hp .. | rfl

/-- Both models of `vfs_close` keep the counters together, whatever is closed. -/
theorem Counts.vfsClose (hc : Counts m h) : Counts (vfsClose fp m) (Fs.vfsClose fp h) := by
  have hc' : Counts { m with closed := m.closed ++ [fp] } h := ⟨hc.live, hc.count⟩
  have hdecr := hc'.decr fp (h.fault || !h.live fp)
  unfold Vfs.vfsClose Fs.vfsClose Heap.decr
  dsimp only at hdecr ⊢
  by_cases hlive : m.live fp = true
  · have hiff := hdecr.count_iff hlive
    dsimp only at hiff
    by_cases hzero : (m.file fp).fRefcnt - 1 = 0
    · rw [set_file_self] at hiff ⊢
      rw [if_pos hzero, if_pos (hiff.mpr hzero)]
      exact hdecr.ext2Close
    · rw [set_file_self] at hiff ⊢
      rw [if_neg hzero, if_neg (mt hiff.mp hzero)]
      exact hdecr
  · have hdead : m.live fp = false := Bool.eq_false_iff.mpr hlive
    have hne : ∀ p, m.live p = true → p ≠ fp := fun p hp heq => hlive (heq ▸ hp)
    have hleft := ext2Close_of_dead (m := ({ m with closed := m.closed ++ [fp] } : FileMem).set fp
      { m.file fp with fRefcnt := (m.file fp).fRefcnt - 1 }) hdead
    have hright := fOpsClose_of_dead (h := { h with
      count := Function.update h.count fp ((h.count fp + (2 ^ 32 - 1)) % 2 ^ 32)
      fault := h.fault || !h.live fp }) ((congrFun hc.live fp).trans hdead)
    refine hdecr.of_agree ?_ ?_ (fun p hp => ?_) (fun p hp => ?_)
    · split_ifs
      · exact hleft.1
      · rfl
    · split_ifs
      · exact hright.1
      · rfl
    · split_ifs
      · exact hleft.2 p (hne p hp)
      · rfl
    · split_ifs
      · exact hright.2 p (hne p hp)
      · rfl

/-- How an open ends, for the model that has only the counters. -/
def openResult (mp : Mount) (memory : Bool) (pv : VnodeT) (path : List Char) (flag pfile : BitVec 32) (fp : File)
    (m : FileMem) : OpenResult :=
  if memory = false then .noPath (-enomem)
  else
    match vfsPathLookup mp.findEntry mp.vnode.vId pv.vId path with
    | none => .noPath (-enoent)
    | some found =>
        let (retval, _, m) := ext2Open mp (Found.toVnode found (startOf mp pv path)) found.suffix pfile fp.1 m
        if retval < 0 then .noFile retval
        else if (accessRights flag (m.file fp.1).fType).isNone then .noPermission fp
        else .opened fp

/-- A file that was created has one reference. -/
theorem Created.counts {m' : FileMem} (hcreated : Created m fp m') (hc : Counts m h) : Counts m' (h.open_ fp) := by
  refine ⟨?_, fun p hp => ?_⟩
  · show Function.update h.live fp true = m'.live
    rw [hcreated.live, hc.live]
  · by_cases hne : p = fp
    · subst hne
      rw [hcreated.refcnt]
      exact Function.update_self ..
    · rw [count_open h fp p hne, hcreated.file p hne]
      rw [hcreated.live, Function.update_of_ne hne] at hp
      exact hc.count p hp

/-- Memory that was given back at once. -/
theorem Counts.kzalloc_kfree (hc : Counts m h) (hfree : m.live fp = false) : Counts ((m.kzalloc fp).kfree fp) h := by
  refine hc.of_agree ?_ rfl (fun p hp => ?_) fun p _ => rfl
  · show Function.update (Function.update m.live fp true) fp false = m.live
    rw [Function.update_idem, Function.update_eq_self_iff, hfree]
  · refine set_file_of_ne fun heq => ?_
    rw [heq, hfree] at hp
    exact absurd hp (by decide)

/-- **The counters** of all files change as in the model that has nothing else. -/
theorem vfsOpen_counts (mp : Mount) (memory : Bool) (pv : VnodeT) (path : List Char) (flag pfile : BitVec 32)
    (fp : File) (hfree : m.live fp.1 = false) (hc : Counts m h) :
    ∃ ret h', Fs.vfsOpen (openResult mp memory pv path flag pfile fp m) pfile h = some (ret, h') ∧
      Counts (vfsOpen mp memory pv path flag pfile fp.1 m).2.2 h' ∧
      ret = (if (vfsOpen mp memory pv path flag pfile fp.1 m).1 < 0 then
        .error (vfsOpen mp memory pv path flag pfile fp.1 m).1 else .ok fp) := by
  have hdead : ¬ h.live fp.1 = true := by rw [hc.live, hfree]; decide
  unfold openResult vfsOpen
  cases memory with
  | false => exact ⟨_, _, rfl, hc, rfl⟩
  | true =>
      simp only [Bool.true_eq_false, if_false]
      cases hfound : vfsPathLookup mp.findEntry mp.vnode.vId pv.vId path with
      | none => exact ⟨_, _, rfl, hc, rfl⟩
      | some found =>
          simp only
          generalize Found.toVnode found (startOf mp pv path) = dir
          by_cases hpresent : Present mp dir.vId found.suffix
          · obtain ⟨hret, hfile, hcreated⟩ := ext2Open_of_present pfile fp.1 m hpresent
            generalize ext2Open mp dir found.suffix pfile fp.1 m = run at *
            obtain ⟨retval, file, m'⟩ := run
            obtain rfl : retval = 0 := hret
            obtain rfl : file = fp.1 := hfile
            have hc' := hcreated.counts hc
            simp only [lt_irrefl, if_false]
            cases accessRights flag (m'.file fp.1).fType with
            | none => exact ⟨_, _, if_neg hdead, hc'.vfsClose, rfl⟩
            | some rights =>
                simp only [Option.isNone_some, Bool.false_eq_true, if_false, set_set, set_file_self]
                refine ⟨_, _, if_neg hdead, ?_, rfl⟩
                rw [fget_of_ne_zero fp.2, Fs.fget, if_neg fp.2]
                exact hc'.set_same rfl
          · obtain ⟨hret, hfile, hm⟩ := ext2Open_of_not_present pfile fp.1 m hpresent
            simp only [hret, if_true, hfile, hm]
            exact ⟨_, _, rfl, (hc.kzalloc_kfree hfree).vfsClose, rfl⟩

end

/-! ## A name that is not there -/

/-- A root directory with nothing in it. -/
def emptyRoot : Mount where
  vnode := ⟨2, 0x41ED, 1024⟩
  findEntry _ _ := none
  rwInode _ := none

/-- One file is open, at 0x1000, with two references. -/
def oneOpen : FileMem where
  file p := if p = 0x1000 then { FileT.zero with fRefcnt := 2 } else .zero
  live p := p = 0x1000
  created := []
  closed := []

/-- The root itself is opened for reading, with the variable pointing at the other file. -/
theorem vfsOpen_right_iff_root :
    OpenRight oRDONLY oneOpen (vfsOpen emptyRoot true emptyRoot.vnode ['/'] oRDONLY 0x1000 0x2000 oneOpen) := by
  refine (vfsOpen_right_iff emptyRoot true emptyRoot.vnode ['/'] oRDONLY 0x1000 ⟨0x2000, by decide⟩ oneOpen
    (by decide)).mpr ?_
  rintro ⟨-, found, hfound, hsuffix, -⟩
  have hroot : vfsPathLookup emptyRoot.findEntry emptyRoot.vnode.vId emptyRoot.vnode.vId ['/'] =
      some ⟨.given, 2, [], true⟩ := by
    simp [vfsPathLookup, pathLoop, skipSlashes, strchr, emptyRoot, Walk.vId]
  rw [hroot] at hfound
  exact hsuffix (Option.some.inj hfound ▸ rfl)

/-- An open of a name that is not there takes a reference from the file that the variable points at. -/
theorem vfsOpen_can_close_another :
    ¬ (∀ (mp : Mount) (pv : VnodeT) (path : List Char) (flag pfile : BitVec 32) (fp : File) (m : FileMem),
        m.live fp.1 = false → OpenRight flag m (vfsOpen mp true pv path flag pfile fp.1 m)) ∧
      ((vfsOpen emptyRoot true emptyRoot.vnode ['a'] oRDONLY 0x1000 0x2000 oneOpen).2.2.file 0x1000).fRefcnt = 1 := by
  have hlookup : vfsPathLookup emptyRoot.findEntry emptyRoot.vnode.vId emptyRoot.vnode.vId ['a'] =
      some ⟨.given, 2, ['a'], true⟩ := by
    simp [vfsPathLookup, pathLoop, strchr, emptyRoot, Walk.vId]
  have hmissing : ¬ Present emptyRoot 2 ['a'] := by
    rw [not_present_iff]
    exact ⟨by decide, rfl⟩
  have hrun := vfsOpen_of_missing oRDONLY 0x1000 0x2000 oneOpen rfl hlookup hmissing
  have hcount : ((vfsOpen emptyRoot true emptyRoot.vnode ['a'] oRDONLY 0x1000 0x2000 oneOpen).2.2.file
      0x1000).fRefcnt = 1 := by
    rw [hrun.2]
    decide
  refine ⟨fun hall => ?_, hcount⟩
  have hright := hall emptyRoot emptyRoot.vnode ['a'] oRDONLY 0x1000 ⟨0x2000, by decide⟩ oneOpen (by decide)
  have hsame := (hright.others 0x1000 (by decide)).1
  rw [hsame] at hcount
  exact absurd hcount (by decide)

end Shaunos.Fs.Vfs
