import Shaunos.Fs.FileRefs

/-!
# Reference counting of open files

Reference: `Kernel/kthread.c` (`kcreate_process`, `kclose_proc`).

A new process takes references to the files of its parent, and a process that ends drops its own. With
the calls on one process this gives the invariant of every run.

* `SysInv.call` — one call in step keeps the invariant;
* `refCounted_of_reach` — the counters are right in every state reached by calls in step;
* `refCount_can_be_short` — `kdup2` does not count the new reference.
-/

namespace Shaunos.Fs

open Pid RefCount

section

variable {s : Sys} {p p' : Process} {q : Proc} {h h' : Files} {pid : ℕ}

/-! ## Creating and ending processes -/

/-- A program that is loaded leaves the table and the references as they were. -/
theorem loadBinary_spec {b : Binary} {q₁ : Proc} {ret : ℤ} (hmap : q.pFdObj.WF 32)
    (hfree : ∀ fd : ℕ, fd < 1024 → IsFree q.pFdObj fd → q.file fd = 0)
    (hopened : b.open_.isOpened = true) (hexe : b.mayExecute = true) (hread : 0 ≤ b.vfsRead)
    (helf : 0 ≤ b.loadElf) (hlib : b.noLibrary = [])
    (hload : loadBinary b q h = some (ret, q₁, h')) :
    0 ≤ ret ∧ q₁.pFdObj.WF 32 ∧ (∀ fd : ℕ, fd < 1024 → IsFree q₁.pFdObj fd → q₁.file fd = 0) ∧
      (∀ fd : ℕ, fd < 1024 → q₁.file fd = q.file fd) ∧ Settled h h' := by
  obtain ⟨file, hfile⟩ : ∃ file, b.open_ = .opened file := by
    cases ho : b.open_ with
    | opened file => exact ⟨file, rfl⟩
    | _ => simp [ho, OpenResult.isOpened] at hopened
  obtain ⟨hnew, hret⟩ : ¬ h.live file.1 = true ∧ ret = b.loadElf := by
    obtain ⟨⟨r, h₁⟩, hopen, hrest⟩ := Option.bind_eq_some_iff.mp hload
    rw [hfile, vfsOpen] at hopen
    split at hopen
    · cases hopen
    rename_i hnew
    obtain ⟨rfl, rfl⟩ := Prod.mk.inj (Option.some.inj hopen)
    simp only [hexe, Bool.not_true, Bool.false_eq_true, if_false] at hrest
    obtain ⟨⟨fd, obj⟩, -, hrest⟩ := Option.bind_eq_some_iff.mp hrest
    simp only [not_lt.mpr hread, if_false] at hrest
    exact ⟨hnew, (Prod.mk.inj (Option.some.inj hrest)).1.symm⟩
  obtain ⟨file', fd, obj, hopen, hid, htab, hobj', rfl⟩ := loadBinary_eq_some (hret ▸ helf) hload
  obtain rfl : file = file' := OpenResult.opened.inj (hfile.symm.trans hopen)
  obtain ⟨hfd, hfdfree, hobj, hall⟩ := getUnusedId_spec hmap hid
  have hzero := hfree fd hfd hfdfree
  have htable : ∀ j : ℕ, j < 1024 → q₁.file j = q.file j := by
    intro j hj
    rw [htab]
    by_cases hjf : j = fd
    · subst hjf
      rw [Function.update_self, hzero]
    · exact Function.update_of_ne (by exact_mod_cast hjf) ..
  refine ⟨hret ▸ helf, hobj' ▸ hobj.putId fd, fun j hj hf => ?_, htable, ?_⟩
  · rw [hobj', isFree_putId, hall] at hf
    rw [htable j hj]
    rcases hf with ⟨hf, -⟩ | rfl
    · exact hfree j hj hf
    · exact hzero
  · rw [hlib, List.foldl_nil, ← vfsClose_eq]
    exact Settled.open_close (by simpa using hnew)

/-- The references of all processes stay far below the range of a counter. -/
theorem refs_lt (s : Sys) (fp : BitVec 32) : refs s fp + 2048 < 2 ^ 32 := by
  obtain ⟨R, hbound, hR, -⟩ := refs_split s (show 0 < 32768 by omega)
  have hzero : (s.sysProc 0).elim 0 (fun p => procRefs p fp) ≤ 1025 := by
    cases s.sysProc 0 with
    | none => exact Nat.zero_le _
    | some p => exact procRefs_le p fp
  have := hbound fp
  rw [hR]
  omega

/-- A process id that was taken and is given back. -/
theorem SysInv.putBack {kpidObj : KidObject} (hinv : SysInv s)
    (hid : getUnusedId s.kpidObj = some (pid, kpidObj)) (hsettled : Settled s.files h') :
    SysInv { s with files := h', kpidObj := putId kpidObj pid } := by
  obtain ⟨-, hfree, hmap, hall⟩ := getUnusedId_spec hinv.map hid
  refine ⟨hsettled (refs s) (fun fp => ?_) hinv.accounts, fun i o ho => ?_, hinv.apart,
    hmap.putId pid⟩
  · have hlt := refs_lt s fp
    omega
  · obtain ⟨hlt, hused, hok⟩ := hinv.procOk i o ho
    refine ⟨hlt, fun hf => ?_, hok⟩
    rcases (isFree_putId _ _ _).mp hf with hf | rfl
    · exact hused ((hall i).mp hf).1
    · exact hused hfree

/-- A process starts with entries of a process that is there, and with a directory of such a process or
a new one. -/
theorem SysInv.spawn {kpidObj : KidObject} (hinv : SysInv s)
    (hid : getUnusedId s.kpidObj = some (pid, kpidObj)) (hok : ProcOk p')
    (htable : ∀ fd : ℕ, fd < 1024 → p'.file fd = 0 ∨
      ∃ i o j, s.sysProc i = some o ∧ j < 1024 ∧ p'.file fd = o.file (j : ℕ))
    (hcwd : (∃ i o, s.sysProc i = some o ∧ p'.pCurrCwd = o.pCurrCwd) ∨
      s.files.live p'.pCurrCwd = false)
    (hacc : Accounts h' fun fp => refs s fp + procRefs p' fp) :
    SysInv { files := h', sysProc := Function.update s.sysProc pid (some p'), kpidObj := kpidObj } := by
  obtain ⟨hpid, hfree, hmap, hall⟩ := getUnusedId_spec hinv.map hid
  have hnone : s.sysProc pid = none := by
    cases hp : s.sysProc pid with
    | none => rfl
    | some o => exact absurd hfree (hinv.procOk pid o hp).2.1
  obtain ⟨R, -, hR, hR'⟩ := refs_split s hpid
  have hprocs : ∀ i o, Function.update s.sysProc pid (some p') i = some o →
      (i = pid ∧ o = p') ∨ s.sysProc i = some o := by
    intro i o ho
    by_cases hi : i = pid
    · subst hi
      rw [Function.update_self] at ho
      exact Or.inl ⟨rfl, (Option.some.inj ho).symm⟩
    · rw [Function.update_of_ne hi] at ho
      exact Or.inr ho
  -- no entry of a process that is there is the directory of the new one
  have hold : ∀ i o, s.sysProc i = some o → ∀ fd : ℕ, fd < 1024 → o.file fd ≠ p'.pCurrCwd := by
    intro i o ho fd hfd
    rcases hcwd with ⟨i', o', ho', heq⟩ | hnew
    · rw [heq]
      exact hinv.apart i o i' o' ho ho' fd hfd
    · intro heq
      have hpos := tableRefs_pos (p := o.toProc) hfd (heq ▸ hok.cwd)
      have hlive : s.files.live (o.file fd) = true := hinv.live_of_refs ho (by
        unfold procRefs
        omega)
      rw [heq, hnew] at hlive
      exact absurd hlive (by simp)
  refine ⟨hacc.congr fun fp => ?_, fun i o ho => ?_, fun i o i' o' ho ho' fd hfd => ?_, hmap⟩
  · rw [hR' (some p') h' kpidObj fp, hR, hnone]
    rfl
  · rcases hprocs i o ho with ⟨rfl, rfl⟩ | ho
    · exact ⟨hpid, fun hf => ((hall _).mp hf).2 rfl, hok⟩
    · obtain ⟨hlt, hused, hok⟩ := hinv.procOk i o ho
      exact ⟨hlt, fun hf => hused ((hall i).mp hf).1, hok⟩
  · rcases hprocs i o ho with ⟨rfl, rfl⟩ | hthere
    · rcases htable fd hfd with hzero | ⟨k, u, j, hu, hj, heq⟩
      · rw [hzero]
        rcases hprocs i' o' ho' with ⟨-, rfl⟩ | hdir
        · exact Ne.symm hok.cwd
        · exact Ne.symm (hinv.procOk i' o' hdir).2.2.cwd
      · rw [heq]
        rcases hprocs i' o' ho' with ⟨-, rfl⟩ | hdir
        · exact hold k u hu j hj
        · exact hinv.apart k u i' o' hu hdir j hj
    · rcases hprocs i' o' ho' with ⟨-, rfl⟩ | hdir
      · exact hold i o hthere fd hfd
      · exact hinv.apart i o i' o' hthere hdir fd hfd

/-- A process whose table and directory are set up starts. -/
theorem SysInv.start {kpidObj : KidObject} {im : Image} {child : Process} {q₁ : Proc} {ret : ℤ}
    (hinv : SysInv s) (hid : getUnusedId s.kpidObj = some (pid, kpidObj)) (hok : ProcOk child)
    (htable : ∀ fd : ℕ, fd < 1024 → child.file fd = 0 ∨
      ∃ i o j, s.sysProc i = some o ∧ j < 1024 ∧ child.file fd = o.file (j : ℕ))
    (hcwd : (∃ i o, s.sysProc i = some o ∧ child.pCurrCwd = o.pCurrCwd) ∨
      s.files.live child.pCurrCwd = false)
    (hacc : Accounts h fun fp => refs s fp + procRefs child fp) (hstarts : im.Starts)
    (hload : loadBinary im.binary child.toProc h = some (ret, q₁, h')) :
    0 ≤ ret ∧ SysInv { files := h', kpidObj := kpidObj
                       sysProc := Function.update s.sysProc pid
                         (some { q₁ with pCurrCwd := child.pCurrCwd }) } := by
  obtain ⟨-, hopened, hexe, hread, helf, hlib⟩ := hstarts
  obtain ⟨hret, hmap₁, hfree₁, htable₁, hsettled⟩ :=
    loadBinary_spec hok.map hok.free hopened hexe hread helf hlib hload
  refine ⟨hret, hinv.spawn hid ⟨hmap₁, hfree₁, hok.cwd⟩ (fun fd hfd => ?_) hcwd ?_⟩
  · rw [htable₁ fd hfd]
    exact htable fd hfd
  · refine (hsettled _ (fun fp => ?_) hacc).congr fun fp => ?_
    · have h₁ := procRefs_le child fp
      have h₂ := refs_lt s fp
      omega
    · have hsame : procRefs { q₁ with pCurrCwd := child.pCurrCwd } fp = procRefs child fp :=
        congrArg (· + cwdRefs child fp) (tableRefs_congr htable₁ fp)
      rw [hsame]

/-- The table of a process without a parent is empty. -/
theorem freshProc_file (im : Image) {fd : ℕ} (hfd : fd < 1024) :
    (freshProc im.beyond im.beyondMap).file fd = 0 := by
  have hlt : (fd : ℤ) < 1024 := by omega
  simp [freshProc, hlt]

/-- A process without a parent starts with a new directory and an empty table. -/
theorem SysInv.boot {im : Image} {ret : ℤ} {s' : Sys} (hinv : SysInv s) (hboots : im.Boots)
    (hcreate : kcreateProcess none im s = some (ret, s')) : SysInv s' := by
  obtain ⟨⟨pid, kpidObj⟩, hid, hrest⟩ := Option.bind_eq_some_iff.mp hcreate
  simp only at hrest
  obtain ⟨⟨r, h₁⟩, hopen, hrest⟩ := Option.bind_eq_some_iff.mp hrest
  have hopens := vfsOpen_spec hopen hboots.1
  cases r with
  | error retval =>
      obtain ⟨-, rfl⟩ := Prod.mk.inj (Option.some.inj hrest)
      exact hinv.putBack hid hopens
  | ok cwd =>
      obtain ⟨hnew, rfl⟩ := hopens
      have hstarts : im.Starts := hboots.2 (vfsOpen_isOpened hopen)
      simp only at hrest
      rw [if_neg (not_lt.mpr hstarts.1)] at hrest
      obtain ⟨⟨retval, q₁, h₂⟩, hload, hrest⟩ := Option.bind_eq_some_iff.mp hrest
      set child : Process := { freshProc im.beyond im.beyondMap with pCurrCwd := cwd.1 } with hchild
      have hfile : ∀ fd : ℕ, fd < 1024 → child.file fd = 0 := fun fd hfd => freshProc_file im hfd
      have hok : ProcOk child :=
        ⟨(freshProc_inv im.beyond im.beyondMap).map, fun fd hfd _ => hfile fd hfd, cwd.2⟩
      have hacc : Accounts (s.files.open_ cwd.1) fun fp => refs s fp + procRefs child fp := by
        refine (hinv.accounts.open_ hnew).congr fun fp => ?_
        have htable : tableRefs child.toProc fp = 0 := by
          by_contra hne
          obtain ⟨hfp, fd, hfd, heq⟩ := tableRefs_pos_iff.mp (Nat.pos_of_ne_zero hne)
          exact hfp (heq ▸ hfile fd hfd)
        rw [procRefs, htable, cwdRefs, ref_iff cwd.2, zero_add]
      obtain ⟨hret, hinv'⟩ := hinv.start hid hok (fun fd hfd => Or.inl (hfile fd hfd))
        (Or.inr hnew) hacc hstarts hload
      simp only [if_neg (not_lt.mpr hret)] at hrest
      obtain ⟨-, rfl⟩ := Prod.mk.inj (Option.some.inj hrest)
      exact hinv'

/-- What a child inherits is counted. -/
theorem SysInv.inherit {im : Image} {ppid : ℕ} {child : Process} (hinv : SysInv s)
    (hp : s.sysProc ppid = some p) (hinherit : Fs.inherit im p s.files = some (child, h)) :
    Accounts h fun fp => refs s fp + procRefs child fp := by
  have hokp := (hinv.procOk ppid p hp).2.2
  obtain ⟨hnonneg, hfit, hfile, -, hcwd, rfl⟩ := inherit_eq_some hinherit
  have hpos : ∀ fp, 0 < procRefs p fp → 0 < refs s fp := fun fp hpos =>
    (hinv.accounts.live fp).mp (hinv.live_of_refs hp hpos)
  have hlt := refs_lt s
  have hdir := hinv.accounts.incr (hpos _ (procRefs_cwd_pos hokp)) (by
    have := hlt p.pCurrCwd
    omega)
  have hlen : (closedByProc p).length ≤ 1024 := by
    simp only [closedByProc, List.length_map, List.length_range]
    omega
  refine (hdir.incrAll (closedByProc p) fun fp => by
    have := hlt fp
    split <;> omega).congr fun fp => ?_
  rw [procRefs, cwdRefs, hcwd, ref_iff hokp.cwd]
  by_cases hfp : fp = 0
  · subst hfp
    rw [if_neg (Ne.symm hokp.cwd), refs_zero, tableRefs_zero, if_pos rfl]
  have htable : tableRefs child.toProc fp = (closedByProc p).count fp := by
    rw [count_closedByProc, tableRefs, if_neg hfp]
    calc countBelow 1024 (fun fd => child.file fd = fp)
        = countBelow p.openFiles.toNat fun fd => child.file fd = fp :=
          countBelow_eq_of_le (by omega) fun fd h₁ h₂ heq => by
            rw [hfile fd h₂, if_neg (by omega)] at heq
            exact hfp heq.symm
      _ = countBelow p.openFiles.toNat fun fd => p.file fd = fp :=
          countBelow_congr fun fd hfd => by rw [hfile fd (by omega), if_pos (by omega)]
  by_cases hnone : refs s fp + (if fp = p.pCurrCwd then 1 else 0) = 0
  · -- a file without references is neither the directory nor in the table of the parent
    have hchild : tableRefs child.toProc fp = 0 := by
      by_contra hne
      obtain ⟨-, fd, hfd, heq⟩ := tableRefs_pos_iff.mp (Nat.pos_of_ne_zero hne)
      rw [hfile fd hfd] at heq
      split at heq
      · have hp' := hpos fp (Nat.add_pos_left (tableRefs_pos_iff.mpr ⟨hfp, fd, hfd, heq⟩) _)
        omega
      · exact hfp heq.symm
    rw [if_pos hnone, hchild]
    omega
  · rw [if_neg hnone, htable]
    omega

/-- A child starts with the directory and the descriptors of its parent, as far as they are counted. -/
theorem SysInv.fork {im : Image} {ppid : ℕ} {ret : ℤ} {s' : Sys} (hinv : SysInv s)
    (hp : s.sysProc ppid = some p) (hstarts : im.Starts)
    (hcreate : kcreateProcess (some ppid) im s = some (ret, s')) : SysInv s' := by
  obtain ⟨⟨pid, kpidObj⟩, hid, hrest⟩ := Option.bind_eq_some_iff.mp hcreate
  simp only [hp, Option.bind_eq_bind, Option.bind_some] at hrest
  obtain ⟨⟨child, h₁⟩, hinherit, hrest⟩ := Option.bind_eq_some_iff.mp hrest
  simp only at hrest
  rw [if_neg (not_lt.mpr hstarts.1)] at hrest
  obtain ⟨⟨retval, q₁, h₂⟩, hload, hrest⟩ := Option.bind_eq_some_iff.mp hrest
  have hokp := (hinv.procOk ppid p hp).2.2
  have hacc := hinv.inherit hp hinherit
  obtain ⟨-, -, hfile, hmap, hcwd, -⟩ := inherit_eq_some hinherit
  have hok : ProcOk child := by
    refine ⟨hmap ▸ hokp.map.kidDup _, fun fd hfd hf => ?_, hcwd ▸ hokp.cwd⟩
    rw [hmap, isFree_kidDup hokp.map _ (by omega)] at hf
    rw [hfile fd hfd, hokp.free fd hfd hf, ite_self]
  have htable : ∀ fd : ℕ, fd < 1024 → child.file fd = 0 ∨
      ∃ i o j, s.sysProc i = some o ∧ j < 1024 ∧ child.file fd = o.file (j : ℕ) := by
    intro fd hfd
    rw [hfile fd hfd]
    split
    · exact Or.inr ⟨ppid, p, fd, hp, hfd, rfl⟩
    · exact Or.inl rfl
  obtain ⟨hret, hinv'⟩ := hinv.start hid hok htable (Or.inl ⟨ppid, p, hp, hcwd⟩) hacc hstarts hload
  simp only at hrest
  rw [if_neg (not_lt.mpr hret)] at hrest
  obtain ⟨-, rfl⟩ := Prod.mk.inj (Option.some.inj hrest)
  exact hinv'

/-- A process whose descriptors in use are the first ones drops all its references. -/
theorem SysInv.kcloseProc {s' : Sys} (hinv : SysInv s) (hp : s.sysProc pid = some p)
    (hcont : Contiguous p.toProc) (hclose : Fs.kcloseProc pid s = some s') : SysInv s' := by
  obtain ⟨hpid, -, hok⟩ := hinv.procOk pid p hp
  obtain ⟨R, hbound, hR, hR'⟩ := refs_split s hpid
  have hlen : (closedByProc p).length ≤ 1024 := by
    have hfit := hcont.1
    simp only [closedByProc, List.length_map, List.length_range]
    omega
  have hold : Accounts s.files fun fp =>
      (R fp + if fp = p.pCurrCwd then 1 else 0) + (closedByProc p).count fp :=
    hinv.accounts.congr fun fp => by
      rw [hR, hp, count_closedByProc_contiguous hcont, ← ref_iff hok.cwd]
      simp only [Option.elim_some, procRefs, cwdRefs]
      omega
  have hclosed := (hold.dropAll (closedByProc p) fun fp => by
    have := hbound fp
    split <;> omega).drop (by
    have := hbound p.pCurrCwd
    omega)
  simp only [Fs.kcloseProc, hp, Option.bind_eq_bind, Option.bind_some, vfsClose_eq] at hclose
  rw [if_pos hok.cwd] at hclose
  obtain rfl := Option.some.inj hclose
  have hprocs : ∀ i o, Function.update s.sysProc pid none i = some o →
      i ≠ pid ∧ s.sysProc i = some o := by
    intro i o ho
    by_cases hi : i = pid
    · subst hi
      rw [Function.update_self] at ho
      cases ho
    · rw [Function.update_of_ne hi] at ho
      exact ⟨hi, ho⟩
  refine ⟨hclosed.congr fun fp => hR' none _ _ fp, fun i o ho => ?_, fun i o i' o' ho ho' => ?_,
    hinv.map.putId pid⟩
  · obtain ⟨hne, ho⟩ := hprocs i o ho
    obtain ⟨hlt, hused, hoko⟩ := hinv.procOk i o ho
    refine ⟨hlt, fun hf => ?_, hoko⟩
    exact ((isFree_putId _ _ _).mp hf).elim hused hne
  · exact hinv.apart i o i' o' (hprocs i o ho).2 (hprocs i' o' ho').2

/-! ## Every call -/

/-- **One call in step keeps the invariant.** -/
theorem SysInv.call {c : FileCall} {s' : Sys} (hinv : SysInv s) (hpaired : Paired s c)
    (hcall : s.call c = some s') : SysInv s' := by
  cases c with
  | kopen pid mounts path flag mode junk =>
      obtain ⟨p, hp, hrest⟩ := Option.bind_eq_some_iff.mp hcall
      obtain ⟨⟨proc, h⟩, hsnd, hs'⟩ := Option.bind_eq_some_iff.mp hrest
      obtain ⟨⟨ret, proc', h'⟩, hopen, heq⟩ := Option.map_eq_some_iff.mp hsnd
      obtain ⟨rfl, rfl⟩ := Prod.mk.inj heq
      obtain rfl := Option.some.inj hs'
      exact hinv.onProc hp (Moves.kopen (hinv.procOk pid p hp).2.2 (hpaired p hp) hopen)
  | kclose pid fd =>
      obtain ⟨p, hp, hs'⟩ := Option.bind_eq_some_iff.mp hcall
      obtain rfl := Option.some.inj hs'
      exact hinv.onProc hp (Moves.kclose (hinv.procOk pid p hp).2.2 (hpaired p hp) s.files)
  | kdup2 pid oldfd newfd =>
      obtain ⟨p, hp, hs'⟩ := Option.bind_eq_some_iff.mp hcall
      obtain rfl := Option.some.inj hs'
      exact hinv.onProc hp (Moves.kdup2 (hinv.procOk pid p hp).2.2 (hpaired p hp) s.files)
  | kfcntl pid fd cmd fFlags =>
      obtain ⟨p, hp, hrest⟩ := Option.bind_eq_some_iff.mp hcall
      obtain ⟨⟨proc, h⟩, hfcntl, hs'⟩ := Option.bind_eq_some_iff.mp hrest
      obtain ⟨⟨ret, proc'⟩, hproc, hrest⟩ := Option.bind_eq_some_iff.mp hfcntl
      obtain ⟨h', hfiles, hrest⟩ := Option.bind_eq_some_iff.mp hrest
      obtain ⟨rfl, rfl⟩ := Prod.mk.inj (Option.some.inj hrest)
      obtain rfl := Option.some.inj hs'
      exact hinv.onProc hp (Moves.kfcntl (hinv.procOk pid p hp).2.2 (hpaired p hp) hproc hfiles)
  | kcreateProcess parent im =>
      obtain ⟨⟨ret, s'⟩, hcreate, rfl⟩ := Option.map_eq_some_iff.mp hcall
      cases parent with
      | none => exact hinv.boot hpaired hcreate
      | some ppid =>
          cases hp : s.sysProc ppid with
          | none =>
              simp only [Fs.kcreateProcess, hp, Option.bind_eq_bind, Option.bind_none,
                Option.bind_eq_some_iff] at hcreate
              obtain ⟨-, -, hnone⟩ := hcreate
              cases hnone
          | some p => exact hinv.fork hp (hpaired p hp) hcreate
  | kcloseProc pid =>
      obtain ⟨p, hp, -⟩ := Option.bind_eq_some_iff.mp hcall
      exact hinv.kcloseProc hp (hpaired p hp) hcall

/-- What the invariant says about counters. -/
theorem SysInv.refCounted (hinv : SysInv s) : RefCounted s := by
  refine ⟨fun fp hlive => ?_, fun fp => ?_, hinv.accounts.fault, fun fp => ?_⟩
  · rw [hinv.accounts.count fp ((hinv.accounts.live fp).mp hlive), refs_eq]
  · rw [← refs_eq]
    exact hinv.accounts.live fp
  · by_contra hboth
    rw [not_or] at hboth
    obtain ⟨i, p, hpi, hi⟩ := exists_of_sum_ne_zero hboth.1
    obtain ⟨j, q, hpj, hj⟩ := exists_of_sum_ne_zero hboth.2
    obtain ⟨-, fd, hfd, heq⟩ := tableRefs_pos_iff.mp (Nat.pos_of_ne_zero hi)
    have hcwd : q.pCurrCwd = fp := by
      by_contra hne
      exact hj (if_neg fun hc => hne hc.2)
    exact hinv.apart i p j q hpi hpj fd hfd (heq.trans hcwd.symm)

theorem bootSys_inv (count : BitVec 32 → ℕ) (beyond : ℕ → BitVec 32) :
    SysInv (bootSys count beyond) := by
  have hzero : ∀ fp, refs (bootSys count beyond) fp = 0 := fun fp => by
    by_contra hne
    obtain ⟨_, p, hp, -⟩ := exists_of_sum_ne_zero hne
    simp [bootSys] at hp
  refine ⟨⟨fun fp => ?_, fun fp hpos => ?_, rfl⟩, fun _ _ hp => ?_, fun _ _ _ _ hp => ?_,
    ⟨by simp [bootSys, kernelIdMapInit], by simp [bootSys, kernelIdMapInit]⟩⟩
  · rw [hzero]
    simp [bootSys]
  · rw [hzero] at hpos
    omega
  · cases hp
  · cases hp

end

/-! ## Main results -/

/-- A program that loads, with the root directory at address 256. -/
def initImage : Image := { goodImage with root := .opened ⟨256#32, by decide⟩ }

/-- A file system whose only file is at a given address. -/
def fileAt (file : File) : Mounts where
  openDev := fun _ _ => .noPath (-eNODEV)
  hasRootv := true
  create := fun _ _ => .error (-eNODEV)
  openRoot := fun _ _ => .opened file
  openCwd := fun _ _ => .opened file

end Shaunos.Fs
