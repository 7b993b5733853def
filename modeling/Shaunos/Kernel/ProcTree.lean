import Shaunos.Common.RingLists
import Shaunos.Common.Run

/-!
# The tree of processes

Reference: `Kernel/kthread.c` (`kcreate_process`, `kclose_proc`, `kexit`, `kterminate_proc`, `kopen_process`),
`Include/list.h`.

`p_child` is the first child of a process, and `p_silbing` links its children in a ring without a head. A
process is the address of its page; `NULL` is 0. The page of a closed process keeps what it holds until
something else is written there, and `kclose_proc` reads `parent->p_child` whatever `p_parent` is.

* `procTree_right_iff` — the runs in which the tree stays right.
-/

namespace Shaunos.Proc

open Links

/-! ## Processes -/

/-- `kprocess_t`. -/
structure Kprocess where
  pid : ℕ
  pParent : ℕ
  pChild : ℕ
  deriving DecidableEq

/-- The memory, as pages of processes, and the processes that there are. -/
structure Procs where
  proc : ℕ → Kprocess
  /-- `p_silbing`. -/
  silbing : Links ℕ
  /-- `sys_proc`. -/
  sysProc : List ℕ
  /-- The process that created this one, as long as it is there. It is not stored. -/
  creator : ℕ → Option ℕ

namespace Procs

/-- `p->p_child = child`. -/
def setChild (s : Procs) (p child : ℕ) : Procs :=
  { s with proc := Function.update s.proc p { s.proc p with pChild := child } }

/-- The part of `kcreate_process` that puts the process into the tree. -/
def joinParent (s : Procs) (parent proc : ℕ) : Procs :=
  if parent ≠ 0 then
    let chldProc := (s.proc parent).pChild
    if chldProc ≠ 0 then { s with silbing := s.silbing.insertAfter chldProc proc }
    else s.setChild parent proc
  else s

/-- `kcreate_process` in the page `proc`, by the process `parent`. It goes on behind `load_binary` if the
program was `loaded`. -/
def kcreateProcess (s : Procs) (parent proc pid : ℕ) (loaded : Bool) : Procs :=
  let s := { s with
    proc := Function.update s.proc proc { pid := pid, pParent := parent, pChild := 0 }
    silbing := s.silbing.selfLoop proc }
  if loaded then
    { s.joinParent parent proc with
      sysProc := proc :: s.sysProc
      creator := Function.update s.creator proc (if parent = 0 then none else some parent) }
  else s

/-- The part of `kclose_proc` that takes the process out of the tree. -/
def leaveParent (s : Procs) (proc : ℕ) : Procs :=
  let parent := (s.proc proc).pParent
  if (s.proc parent).pChild = proc then
    if s.silbing.next proc = proc then s.setChild parent 0
    else { s.setChild parent (s.silbing.next proc) with silbing := s.silbing.unlink proc }
  else s

/-- `kclose_proc`. -/
def kcloseProc (s : Procs) (proc : ℕ) : Procs :=
  let s := { s with sysProc := s.sysProc.filter fun q => (s.proc q).pid ≠ (s.proc proc).pid }
  { s.leaveParent proc with
    creator := fun c => if s.creator c = some proc then none else s.creator c }

/-- `kopen_process`. -/
def kopenProcess (s : Procs) (pid : ℕ) : Option ℕ := s.sysProc.find? fun p => (s.proc p).pid = pid

/-- `kexit`. `host` is the process of the thread. -/
def kexit (s : Procs) (host : ℕ) : Procs := if host ≠ 0 then s.kcloseProc host else s

/-- `kterminate_proc`. -/
def kterminateProc (s : Procs) (host pid : ℕ) : Procs :=
  match s.kopenProcess pid with
  | none => s
  | some proc => if proc = host then s else s.kcloseProc proc

/-- Something else is written to a page. -/
def overwrite (s : Procs) (page : ℕ) (content : Kprocess) (prev next : ℕ) : Procs :=
  { s with
    proc := Function.update s.proc page content
    silbing := (s.silbing.setPrev page prev).setNext page next }

/-! ## Runs -/

/-- What can happen. `host` is the process of the thread that calls, or 0 for a thread of the kernel. -/
inductive Call where
  | kcreateProcess (host proc pid : ℕ) (loaded : Bool)
  | kexit (host : ℕ)
  | kterminateProc (host pid : ℕ)
  | overwrite (page : ℕ) (content : Kprocess) (prev next : ℕ)

def after (s : Procs) : Call → Procs
  | .kcreateProcess host proc pid loaded => s.kcreateProcess host proc pid loaded
  | .kexit host => s.kexit host
  | .kterminateProc host pid => s.kterminateProc host pid
  | .overwrite page content prev next => s.overwrite page content prev next

def step (s : Procs) (c : Call) : Option Procs := some (s.after c)

/-- Before the first process is created. -/
def start (proc : ℕ → Kprocess) (silbing : Links ℕ) : Procs where
  proc := proc
  silbing := silbing
  sysProc := []
  creator _ := none

/-- A thread is one of a process or of the kernel. -/
def IsHost (s : Procs) (host : ℕ) : Prop := host = 0 ∨ host ∈ s.sysProc

/-- The page of a new process is free, and so is its pid; what is written elsewhere is not written to the page
of a process. -/
def Fits (s : Procs) : Call → Prop
  | .kcreateProcess host proc pid _ =>
      s.IsHost host ∧ proc ≠ 0 ∧ proc ∉ s.sysProc ∧ ∀ p ∈ s.sysProc, (s.proc p).pid ≠ pid
  | .kexit host => s.IsHost host
  | .kterminateProc host _ => s.IsHost host
  | .overwrite page _ _ _ => page ∉ s.sysProc

/-- The child of a process other than `proc`. -/
def IsChild (s : Procs) (proc c : ℕ) : Prop := c ∈ s.sysProc ∧ ∃ p ∈ s.creator c, p ≠ proc

/-- The children that `p_child` and `p_silbing` lead to. -/
def Leads (s : Procs) (p : ℕ) (xs : List ℕ) : Prop :=
  match xs with
  | [] => (s.proc p).pChild = 0
  | c :: cs => (s.proc p).pChild = c ∧ c ≠ 0 ∧ s.silbing.IsRing c cs

/-- From each process its children are reached, each once, and nothing else. -/
def TreeRight (s : Procs) : Prop :=
  ∀ p ∈ s.sysProc, ∃ xs, s.Leads p xs ∧ xs.Nodup ∧ ∀ c, c ∈ xs ↔ c ∈ s.sysProc ∧ s.creator c = some p

/-- When the process can be closed. One whose creator is there has to be its first child. Another one should not
be what `parent->p_child` is by chance, unless it has no neighbours in its ring or these are no children of
another process, or are neighbours themselves. -/
def ClosesRight (s : Procs) (proc : ℕ) : Prop :=
  match s.creator proc with
  | some parent => (s.proc parent).pChild = proc
  | none =>
      let prev := s.silbing.prev proc
      let next := s.silbing.next proc
      (s.proc (s.proc proc).pParent).pChild = proc → next ≠ proc →
        (s.IsChild proc prev → s.silbing.next prev = next) ∧
        (s.IsChild proc next → s.silbing.prev next = prev)

/-- The process that a call closes. -/
def closing (s : Procs) : Call → Option ℕ
  | .kcreateProcess _ _ _ _ => none
  | .kexit host => if host ≠ 0 then some host else none
  | .kterminateProc host pid => (s.kopenProcess pid).filter (· ≠ host)
  | .overwrite _ _ _ _ => none

/-- The condition on a call. -/
def Ok (s : Procs) (c : Call) : Prop := ∀ proc ∈ s.closing c, s.ClosesRight proc

instance (s : Procs) (host : ℕ) : Decidable (s.IsHost host) := inferInstanceAs (Decidable (_ ∨ _))

instance (s : Procs) : (c : Call) → Decidable (s.Fits c)
  | .kcreateProcess _ _ _ _ => inferInstanceAs (Decidable (_ ∧ _ ∧ _ ∧ _))
  | .kexit host => inferInstanceAs (Decidable (s.IsHost host))
  | .kterminateProc host _ => inferInstanceAs (Decidable (s.IsHost host))
  | .overwrite page _ _ _ => inferInstanceAs (Decidable (page ∉ s.sysProc))

instance (s : Procs) (proc c : ℕ) : Decidable (s.IsChild proc c) := inferInstanceAs (Decidable (_ ∧ _))

instance (s : Procs) (proc : ℕ) : Decidable (s.ClosesRight proc) :=
  match h : s.creator proc with
  | some parent => decidable_of_iff ((s.proc parent).pChild = proc) (by rw [ClosesRight, h])
  | none =>
      decidable_of_iff ((s.proc (s.proc proc).pParent).pChild = proc → s.silbing.next proc ≠ proc →
        (s.IsChild proc (s.silbing.prev proc) →
          s.silbing.next (s.silbing.prev proc) = s.silbing.next proc) ∧
        (s.IsChild proc (s.silbing.next proc) →
          s.silbing.prev (s.silbing.next proc) = s.silbing.prev proc)) (by rw [ClosesRight, h])

instance (s : Procs) (c : Call) : Decidable (s.Ok c) :=
  inferInstanceAs (Decidable (∀ proc ∈ s.closing c, s.ClosesRight proc))

/-! ## Children -/

section

variable {s s' : Procs} {p q r c n : ℕ} {xs ys : List ℕ}

theorem Leads.congr (h : s.Leads p xs) (hchild : (s'.proc p).pChild = (s.proc p).pChild)
    (hnext : ∀ n ∈ xs, s'.silbing.next n = s.silbing.next n)
    (hprev : ∀ n ∈ xs, s'.silbing.prev n = s.silbing.prev n) : s'.Leads p xs := by
  cases xs with
  | nil => exact hchild.trans h
  | cons c cs =>
      have ⟨hc, hne, hring⟩ := h
      exact ⟨hchild.trans hc, hne, hring.congr hnext hprev⟩

theorem Leads.nodup (h : s.Leads p xs) : xs.Nodup := by
  cases xs with
  | nil => exact List.nodup_nil
  | cons c cs => exact h.2.2.nodup

theorem Leads.unique (hx : s.Leads p xs) (hy : s.Leads p ys) : xs = ys := by
  cases xs with
  | nil =>
      cases ys with
      | nil => rfl
      | cons d ds => exact absurd (hy.1.symm.trans hx) hy.2.1
  | cons c cs =>
      cases ys with
      | nil => exact absurd (hx.1.symm.trans hy) hx.2.1
      | cons d ds =>
          obtain rfl : c = d := hx.1.symm.trans hy.1
          rw [hx.2.2.unique hy.2.2]

theorem Leads.next_mem (h : s.Leads p xs) (hn : n ∈ xs) : s.silbing.next n ∈ xs := by
  cases xs with
  | nil => exact absurd hn (List.not_mem_nil)
  | cons c cs => exact h.2.2.next_mem hn

theorem Leads.prev_mem (h : s.Leads p xs) (hn : n ∈ xs) : s.silbing.prev n ∈ xs := by
  cases xs with
  | nil => exact absurd hn (List.not_mem_nil)
  | cons c cs => exact h.2.2.prev_mem hn

theorem Leads.prev_next (h : s.Leads p xs) (hn : n ∈ xs) : s.silbing.prev (s.silbing.next n) = n := by
  cases xs with
  | nil => exact absurd hn (List.not_mem_nil)
  | cons c cs => exact h.2.2.prev_next hn

theorem Leads.next_prev (h : s.Leads p xs) (hn : n ∈ xs) : s.silbing.next (s.silbing.prev n) = n := by
  cases xs with
  | nil => exact absurd hn (List.not_mem_nil)
  | cons c cs => exact h.2.2.next_prev hn

/-- The first child is a child. -/
theorem Leads.mem_of_child (h : s.Leads p xs) (hc : (s.proc p).pChild = c) (hne : c ≠ 0) : c ∈ xs := by
  cases xs with
  | nil => exact absurd (hc.symm.trans h) hne
  | cons d ds =>
      rw [← hc, h.1]
      exact List.mem_cons_self

/-- A node outside a ring can be unlinked if its neighbours are outside, or are neighbours in the ring. -/
theorem Leads.unlink (h : s.Leads p xs) (hchild : (s'.proc p).pChild = (s.proc p).pChild) (hc : c ∉ xs)
    (hsil : s'.silbing = s.silbing.unlink c)
    (hprev : s.silbing.prev c ∈ xs → s.silbing.next (s.silbing.prev c) = s.silbing.next c)
    (hnext : s.silbing.next c ∈ xs → s.silbing.prev (s.silbing.next c) = s.silbing.prev c) :
    s'.Leads p xs := by
  cases xs with
  | nil => exact hchild.trans h
  | cons d ds =>
      have ⟨hd, hne, hring⟩ := h
      refine ⟨hchild.trans hd, hne, ?_⟩
      rw [hsil]
      exact hring.unlink_outside hc hprev hnext

/-- The list of the children of a process. -/
def ChildList (s : Procs) (p : ℕ) (xs : List ℕ) : Prop :=
  s.Leads p xs ∧ ∀ c, c ∈ xs ↔ c ∈ s.sysProc ∧ s.creator c = some p

/-- What holds between the calls. -/
structure Inv (s : Procs) : Prop where
  children : ∀ p ∈ s.sysProc, ∃ xs, s.ChildList p xs
  zero : 0 ∉ s.sysProc
  pid : ∀ p ∈ s.sysProc, ∀ q ∈ s.sysProc, (s.proc p).pid = (s.proc q).pid → p = q
  parent : ∀ c ∈ s.sysProc, ∀ p, s.creator c = some p → p ∈ s.sysProc ∧ (s.proc c).pParent = p ∧ p ≠ c

theorem treeRight_iff : s.TreeRight ↔ ∀ p ∈ s.sysProc, ∃ xs, s.ChildList p xs := by
  constructor
  · intro h p hp
    have ⟨xs, hl, _, hmem⟩ := h p hp
    exact ⟨xs, hl, hmem⟩
  · intro h p hp
    have ⟨xs, hl, hmem⟩ := h p hp
    exact ⟨xs, hl, hl.nodup, hmem⟩

/-- What `p_child` of a process points to is its child. -/
theorem Inv.creator_of_child (h : s.Inv) (hp : p ∈ s.sysProc) (hc : c ∈ s.sysProc)
    (hchild : (s.proc p).pChild = c) : s.creator c = some p := by
  have ⟨xs, hl, hmem⟩ := h.children p hp
  have hne : c ≠ 0 := fun h0 => h.zero (h0 ▸ hc)
  exact ((hmem c).mp (hl.mem_of_child hchild hne)).2

/-! ## Closing -/

@[simp] theorem setChild_pid (s : Procs) (p c q : ℕ) : ((s.setChild p c).proc q).pid = (s.proc q).pid := by
  by_cases hq : q = p <;> simp [setChild, hq]

@[simp] theorem setChild_pParent (s : Procs) (p c q : ℕ) :
    ((s.setChild p c).proc q).pParent = (s.proc q).pParent := by
  by_cases hq : q = p <;> simp [setChild, hq]

theorem setChild_pChild (s : Procs) (p c q : ℕ) :
    ((s.setChild p c).proc q).pChild = if q = p then c else (s.proc q).pChild := by
  by_cases hq : q = p <;> simp [setChild, hq]

/-- The three ways to leave the parent. -/
theorem leaveParent_of_ne (h : (s.proc (s.proc p).pParent).pChild ≠ p) : s.leaveParent p = s := if_neg h

theorem leaveParent_of_alone (h : (s.proc (s.proc p).pParent).pChild = p) (hself : s.silbing.next p = p) :
    s.leaveParent p = s.setChild (s.proc p).pParent 0 := (if_pos h).trans (if_pos hself)

theorem leaveParent_of_first (h : (s.proc (s.proc p).pParent).pChild = p) (hself : s.silbing.next p ≠ p) :
    s.leaveParent p =
      { s.setChild (s.proc p).pParent (s.silbing.next p) with silbing := s.silbing.unlink p } :=
  (if_pos h).trans (if_neg hself)

theorem leaveParent_pid (s : Procs) (p q : ℕ) : ((s.leaveParent p).proc q).pid = (s.proc q).pid := by
  by_cases h : (s.proc (s.proc p).pParent).pChild = p
  · by_cases hself : s.silbing.next p = p
    · rw [leaveParent_of_alone h hself, setChild_pid]
    · rw [leaveParent_of_first h hself, setChild_pid]
  · rw [leaveParent_of_ne h]

theorem leaveParent_pParent (s : Procs) (p q : ℕ) :
    ((s.leaveParent p).proc q).pParent = (s.proc q).pParent := by
  by_cases h : (s.proc (s.proc p).pParent).pChild = p
  · by_cases hself : s.silbing.next p = p
    · rw [leaveParent_of_alone h hself, setChild_pParent]
    · rw [leaveParent_of_first h hself, setChild_pParent]
  · rw [leaveParent_of_ne h]

/-- Only `p_child` of the parent is written, and only where it is the process. -/
theorem leaveParent_pChild (hq : (s.proc q).pChild ≠ p) :
    ((s.leaveParent p).proc q).pChild = (s.proc q).pChild := by
  by_cases h : (s.proc (s.proc p).pParent).pChild = p
  · have hne : q ≠ (s.proc p).pParent := fun heq => hq (heq ▸ h)
    by_cases hself : s.silbing.next p = p
    · rw [leaveParent_of_alone h hself, setChild_pChild, if_neg hne]
    · rw [leaveParent_of_first h hself, setChild_pChild, if_neg hne]
  · rw [leaveParent_of_ne h]

/-- `kclose_proc` does not look at `sys_proc` behind the place where it takes the process out. -/
theorem leaveParent_sysProc (s : Procs) (p : ℕ) (ps : List ℕ) :
    { s with sysProc := ps }.leaveParent p = { s.leaveParent p with sysProc := ps } := by
  by_cases h : (s.proc (s.proc p).pParent).pChild = p
  · by_cases hself : s.silbing.next p = p
    · rw [leaveParent_of_alone h hself, leaveParent_of_alone (s := { s with sysProc := ps }) h hself]
      rfl
    · rw [leaveParent_of_first h hself, leaveParent_of_first (s := { s with sysProc := ps }) h hself]
      rfl
  · rw [leaveParent_of_ne h, leaveParent_of_ne (s := { s with sysProc := ps }) h]

@[simp] theorem kcloseProc_proc (s : Procs) (p : ℕ) : (s.kcloseProc p).proc = (s.leaveParent p).proc := by
  rw [kcloseProc, leaveParent_sysProc]

@[simp] theorem kcloseProc_silbing (s : Procs) (p : ℕ) :
    (s.kcloseProc p).silbing = (s.leaveParent p).silbing := by
  rw [kcloseProc, leaveParent_sysProc]

theorem kcloseProc_sysProc (s : Procs) (p : ℕ) :
    (s.kcloseProc p).sysProc = s.sysProc.filter fun q => (s.proc q).pid ≠ (s.proc p).pid := by
  rw [kcloseProc, leaveParent_sysProc]

theorem kcloseProc_creator (s : Procs) (p c : ℕ) :
    (s.kcloseProc p).creator c = if s.creator c = some p then none else s.creator c := rfl

theorem Inv.mem_kcloseProc (h : s.Inv) (hp : p ∈ s.sysProc) :
    q ∈ (s.kcloseProc p).sysProc ↔ q ∈ s.sysProc ∧ q ≠ p := by
  rw [kcloseProc_sysProc, List.mem_filter]
  refine and_congr_right fun hq => ?_
  simp only [ne_eq, decide_not, Bool.not_eq_eq_eq_not, Bool.not_true, decide_eq_false_iff_not]
  refine not_congr ⟨h.pid q hq p hp, ?_⟩
  rintro rfl
  rfl

/-- The children of another process stay what they are. -/
theorem Inv.creator_kcloseProc (h : s.Inv) (hp : p ∈ s.sysProc) (hq : q ≠ p) (hcq : s.creator p ≠ some q) :
    c ∈ (s.kcloseProc p).sysProc ∧ (s.kcloseProc p).creator c = some q ↔
      c ∈ s.sysProc ∧ s.creator c = some q := by
  rw [h.mem_kcloseProc hp, kcloseProc_creator]
  constructor
  · rintro ⟨⟨hc, _⟩, hcr⟩
    split_ifs at hcr
    exact ⟨hc, hcr⟩
  · rintro ⟨hc, hcr⟩
    have hcp : c ≠ p := fun heq => hcq (heq ▸ hcr)
    have hne : s.creator c ≠ some p := fun heq => hq (Option.some.inj (hcr.symm.trans heq))
    exact ⟨⟨hc, hcp⟩, by rw [if_neg hne, hcr]⟩

/-- So do the pointers to them. -/
theorem Inv.leads_kcloseProc (h : s.Inv) (hp : p ∈ s.sysProc) (hok : s.ClosesRight p) (hq : q ∈ s.sysProc)
    (hqp : q ≠ p) (hcq : s.creator p ≠ some q) (hl : s.ChildList q xs) : (s.kcloseProc p).Leads q xs := by
  have ⟨hlead, hmem⟩ := hl
  have hpx : p ∉ xs := fun hx => hcq ((hmem p).mp hx).2
  have hpc : (s.proc q).pChild ≠ p := fun hc => hcq (h.creator_of_child hq hp hc)
  have hchild : ((s.kcloseProc p).proc q).pChild = (s.proc q).pChild := by
    rw [kcloseProc_proc, leaveParent_pChild hpc]
  by_cases hfirst : (s.proc (s.proc p).pParent).pChild = p
  · by_cases hself : s.silbing.next p = p
    · have hsil : (s.kcloseProc p).silbing = s.silbing := by
        rw [kcloseProc_silbing, leaveParent_of_alone hfirst hself]
        rfl
      exact hlead.congr hchild (fun n _ => by rw [hsil]) (fun n _ => by rw [hsil])
    · have hsil : (s.kcloseProc p).silbing = s.silbing.unlink p := by
        rw [kcloseProc_silbing, leaveParent_of_first hfirst hself]
      unfold ClosesRight at hok
      cases hcr : s.creator p with
      | some r =>
          -- the neighbours of `p` are children of its creator
          have hr : r ∈ s.sysProc := (h.parent p hp r hcr).1
          have ⟨ys, hlr, hmemr⟩ := h.children r hr
          have hpy : p ∈ ys := (hmemr p).mpr ⟨hp, hcr⟩
          have hout : ∀ n ∈ ys, n ∉ xs := by
            intro n hn hx
            have heq : some r = some q := ((hmemr n).mp hn).2.symm.trans ((hmem n).mp hx).2
            exact hcq (hcr.trans heq)
          exact hlead.unlink hchild hpx hsil (fun hx => absurd hx (hout _ (hlr.prev_mem hpy)))
            (fun hx => absurd hx (hout _ (hlr.next_mem hpy)))
      | none =>
          rw [hcr] at hok
          have ⟨hprev, hnext⟩ := hok hfirst hself
          have hchildren : ∀ n ∈ xs, s.IsChild p n := fun n hn => ⟨((hmem n).mp hn).1, q, ((hmem n).mp hn).2, hqp⟩
          exact hlead.unlink hchild hpx hsil (fun hx => hprev (hchildren _ hx)) (fun hx => hnext (hchildren _ hx))
  · have hsil : (s.kcloseProc p).silbing = s.silbing := by
      rw [kcloseProc_silbing, leaveParent_of_ne hfirst]
    exact hlead.congr hchild (fun n _ => by rw [hsil]) (fun n _ => by rw [hsil])

/-- The first child leaves the list of its parent. -/
theorem Inv.childList_tail (h : s.Inv) (hp : p ∈ s.sysProc) (hcr : s.creator p = some q)
    (hfirst : (s.proc q).pChild = p) (hl : s.ChildList q xs) : (s.kcloseProc p).ChildList q xs.tail := by
  have ⟨hlead, hmem⟩ := hl
  have ⟨hq, hpar, hqp⟩ := h.parent p hp q hcr
  have hp0 : p ≠ 0 := fun h0 => h.zero (h0 ▸ hp)
  have hfirst' : (s.proc (s.proc p).pParent).pChild = p := by rw [hpar, hfirst]
  constructor
  · cases xs with
    | nil => exact absurd (hfirst.symm.trans hlead) hp0
    | cons d cs =>
        have ⟨hd, _, hring⟩ := hlead
        obtain rfl : p = d := hfirst.symm.trans hd
        cases cs with
        | nil =>
            show ((s.kcloseProc p).proc q).pChild = 0
            rw [kcloseProc_proc, leaveParent_of_alone hfirst' hring.seg.1, setChild_pChild, if_pos hpar.symm]
        | cons c cs =>
            have hnext : s.silbing.next p = c := hring.seg.1
            have hne : c ≠ p := fun heq => hring.head_notMem (heq ▸ List.mem_cons_self)
            have hc : c ∈ s.sysProc := ((hmem c).mp (by simp)).1
            have hstate := leaveParent_of_first hfirst' (by rwa [hnext])
            refine ⟨?_, fun h0 => h.zero (h0 ▸ hc), ?_⟩
            · rw [kcloseProc_proc, hstate, setChild_pChild, if_pos hpar.symm, hnext]
            · rw [kcloseProc_silbing, hstate]
              have hrest : (s.silbing.unlink p).IsRing c (cs ++ []) := hring.rotate.unlink_append
              rwa [List.append_nil] at hrest
  · intro c
    have hnd := hlead.nodup
    cases xs with
    | nil => exact absurd (hfirst.symm.trans hlead) hp0
    | cons d cs =>
        obtain rfl : p = d := hfirst.symm.trans hlead.1
        have hpc : p ∉ cs := (List.nodup_cons.mp hnd).1
        rw [List.tail_cons, h.mem_kcloseProc hp, kcloseProc_creator]
        constructor
        · intro hc
          have ⟨hcs, hcc⟩ := (hmem c).mp (List.mem_cons_of_mem _ hc)
          have hne : s.creator c ≠ some p := fun heq => hqp (Option.some.inj (hcc.symm.trans heq))
          exact ⟨⟨hcs, fun heq => hpc (heq ▸ hc)⟩, by rw [if_neg hne, hcc]⟩
        · rintro ⟨⟨hcs, hcp⟩, hcc⟩
          split_ifs at hcc
          exact (List.mem_cons.mp ((hmem c).mpr ⟨hcs, hcc⟩)).resolve_left hcp

theorem Inv.kcloseProc (h : s.Inv) (hp : p ∈ s.sysProc) (hok : s.ClosesRight p) : (s.kcloseProc p).Inv := by
  constructor
  · intro q hq
    have ⟨hq, hqp⟩ := (h.mem_kcloseProc hp).mp hq
    have ⟨xs, hl⟩ := h.children q hq
    by_cases hcq : s.creator p = some q
    · refine ⟨xs.tail, h.childList_tail hp hcq ?_ hl⟩
      unfold ClosesRight at hok
      rwa [hcq] at hok
    · refine ⟨xs, h.leads_kcloseProc hp hok hq hqp hcq hl, fun c => ?_⟩
      rw [hl.2, h.creator_kcloseProc hp hqp hcq]
  · exact fun h0 => h.zero ((h.mem_kcloseProc hp).mp h0).1
  · intro q hq r hr
    rw [kcloseProc_proc, leaveParent_pid, leaveParent_pid]
    exact h.pid q ((h.mem_kcloseProc hp).mp hq).1 r ((h.mem_kcloseProc hp).mp hr).1
  · intro c hc q hcr
    have ⟨hc, hcp⟩ := (h.mem_kcloseProc hp).mp hc
    rw [kcloseProc_creator] at hcr
    split_ifs at hcr with hne
    have ⟨hq, hpar, hqc⟩ := h.parent c hc q hcr
    refine ⟨(h.mem_kcloseProc hp).mpr ⟨hq, ?_⟩, ?_, hqc⟩
    · rintro rfl
      exact hne hcr
    · rw [kcloseProc_proc, leaveParent_pParent, hpar]

/-- A process that is closed and is not the first child is still reached. -/
theorem Inv.not_right_of_later (h : s.Inv) (hp : p ∈ s.sysProc) (hcr : s.creator p = some q)
    (hlater : (s.proc q).pChild ≠ p) : ¬ (s.kcloseProc p).TreeRight := by
  intro hright
  have ⟨hq, hpar, hqp⟩ := h.parent p hp q hcr
  have ⟨xs, hlead, hmem⟩ := h.children q hq
  have ⟨ys, hlead', hmem'⟩ := treeRight_iff.mp hright q ((h.mem_kcloseProc hp).mpr ⟨hq, hqp⟩)
  have hstate : s.leaveParent p = s := leaveParent_of_ne (by rwa [hpar])
  have hsame : (s.kcloseProc p).Leads q xs := by
    refine hlead.congr ?_ (fun n _ => ?_) (fun n _ => ?_)
    · rw [kcloseProc_proc, hstate]
    · rw [kcloseProc_silbing, hstate]
    · rw [kcloseProc_silbing, hstate]
  have hpy : p ∈ ys := hsame.unique hlead' ▸ (hmem p).mpr ⟨hp, hcr⟩
  exact ((h.mem_kcloseProc hp).mp ((hmem' p).mp hpy).1).2 rfl

/-- If the tree is right behind the call, `list_del` has changed no ring. -/
theorem Inv.neighbours_of_right (h : s.Inv) (hp : p ∈ s.sysProc) (hcr : s.creator p = none)
    (hsil : (s.kcloseProc p).silbing = s.silbing.unlink p) (hright : (s.kcloseProc p).TreeRight) :
    (s.IsChild p (s.silbing.prev p) → s.silbing.next (s.silbing.prev p) = s.silbing.next p) ∧
      (s.IsChild p (s.silbing.next p) → s.silbing.prev (s.silbing.next p) = s.silbing.prev p) := by
  -- a child `n` is in a ring before and after the call, and so are its neighbours
  have hrings : ∀ n, s.IsChild p n → n ≠ p ∧ ∃ q xs ys, s.Leads q xs ∧ (s.kcloseProc p).Leads q ys ∧ n ∈ xs ∧
      p ∉ xs ∧ ∀ c ∈ xs, c ∈ ys := by
    rintro n ⟨hn, q, hnq, hqp⟩
    have hcq : s.creator p ≠ some q := by simp [hcr]
    have hq : q ∈ s.sysProc := (h.parent n hn q hnq).1
    have ⟨xs, hlead, hmem⟩ := h.children q hq
    have ⟨ys, hlead', hmem'⟩ := treeRight_iff.mp hright q ((h.mem_kcloseProc hp).mpr ⟨hq, hqp⟩)
    refine ⟨?_, q, xs, ys, hlead, hlead', (hmem n).mpr ⟨hn, hnq⟩, fun hx => hcq ((hmem p).mp hx).2, ?_⟩
    · rintro rfl
      exact hcq hnq
    · intro c hc
      exact (hmem' c).mpr ((h.creator_kcloseProc hp hqp hcq).mpr ((hmem c).mp hc))
  constructor
  · intro hchild
    have ⟨hnp, q, xs, ys, hlead, hlead', hn, hpx, hsub⟩ := hrings _ hchild
    have hm := hlead.next_mem hn
    have hmp : s.silbing.next (s.silbing.prev p) ≠ p := fun heq => hpx (heq ▸ hm)
    by_contra hne
    have hback := hlead'.next_prev (hsub _ hm)
    rw [hsil, unlink_prev, if_neg hmp, if_neg hne, hlead.prev_next hn, unlink_next, if_neg hnp, if_pos rfl]
      at hback
    exact hne hback.symm
  · intro hchild
    have ⟨hnp, q, xs, ys, hlead, hlead', hn, hpx, hsub⟩ := hrings _ hchild
    have hm := hlead.prev_mem hn
    have hmp : s.silbing.prev (s.silbing.next p) ≠ p := fun heq => hpx (heq ▸ hm)
    by_contra hne
    have hback := hlead'.prev_next (hsub _ hm)
    rw [hsil, unlink_next, if_neg hmp, if_neg hne, hlead.next_prev hn, unlink_prev, if_neg hnp, if_pos rfl]
      at hback
    exact hne hback.symm

/-- One close of a process. -/
theorem Inv.not_right_of_not_ok (h : s.Inv) (hp : p ∈ s.sysProc) (hok : ¬ s.ClosesRight p) :
    ¬ (s.kcloseProc p).TreeRight := by
  unfold ClosesRight at hok
  cases hcr : s.creator p with
  | some q =>
      rw [hcr] at hok
      exact h.not_right_of_later hp hcr hok
  | none =>
      rw [hcr] at hok
      intro hright
      refine hok fun hfirst hself => h.neighbours_of_right hp hcr ?_ hright
      rw [kcloseProc_silbing, leaveParent_of_first hfirst hself]

/-! ## Creating -/

/-- What is written outside the pages of processes leaves the tree. -/
theorem Inv.congr (h : s.Inv) (hsys : s'.sysProc = s.sysProc) (hcr : s'.creator = s.creator)
    (hproc : ∀ q ∈ s.sysProc, s'.proc q = s.proc q)
    (hnext : ∀ q ∈ s.sysProc, s'.silbing.next q = s.silbing.next q)
    (hprev : ∀ q ∈ s.sysProc, s'.silbing.prev q = s.silbing.prev q) : s'.Inv := by
  constructor
  · intro q hq
    rw [hsys] at hq
    have ⟨xs, hlead, hmem⟩ := h.children q hq
    have hin : ∀ c ∈ xs, c ∈ s.sysProc := fun c hc => ((hmem c).mp hc).1
    refine ⟨xs, hlead.congr (by rw [hproc q hq]) (fun n hn => hnext n (hin n hn))
      (fun n hn => hprev n (hin n hn)), fun c => ?_⟩
    rw [hmem, hsys, hcr]
  · rw [hsys]
    exact h.zero
  · intro q hq r hr
    rw [hsys] at hq hr
    rw [hproc q hq, hproc r hr]
    exact h.pid q hq r hr
  · intro c hc q hcq
    rw [hsys] at hc ⊢
    rw [hcr] at hcq
    rw [hproc c hc]
    exact h.parent c hc q hcq

theorem Inv.overwrite (h : s.Inv) {content : Kprocess} {prev next : ℕ} (hp : p ∉ s.sysProc) :
    (s.overwrite p content prev next).Inv := by
  have hne : ∀ q ∈ s.sysProc, q ≠ p := fun q hq heq => hp (heq ▸ hq)
  refine h.congr rfl rfl (fun q hq => ?_) (fun q hq => ?_) (fun q hq => ?_)
  · simp [Procs.overwrite, hne q hq]
  · simp [Procs.overwrite, setNext, setPrev, hne q hq]
  · simp [Procs.overwrite, setNext, setPrev, hne q hq]

@[simp] theorem joinParent_pid (s : Procs) (q p c : ℕ) : ((s.joinParent q p).proc c).pid = (s.proc c).pid := by
  unfold joinParent
  dsimp only
  split_ifs
  · rfl
  · exact setChild_pid s q p c
  · rfl

@[simp] theorem joinParent_pParent (s : Procs) (q p c : ℕ) :
    ((s.joinParent q p).proc c).pParent = (s.proc c).pParent := by
  unfold joinParent
  dsimp only
  split_ifs
  · rfl
  · exact setChild_pParent s q p c
  · rfl

/-- The children of a process that is not the parent. -/
theorem Inv.leads_joinParent (h : s.Inv) (hq : s.IsHost q) (hp : p ∉ s.sysProc) (hrq : r ≠ q)
    (hl : s.ChildList r xs) : (s.joinParent q p).Leads r xs := by
  have ⟨hlead, hmem⟩ := hl
  have hpx : ∀ n ∈ xs, n ≠ p := fun n hn heq => hp (heq ▸ ((hmem n).mp hn).1)
  unfold joinParent
  dsimp only
  split_ifs with hq0 hc0
  · have hq := hq.resolve_left hq0
    have ⟨ys, hleadq, hmemq⟩ := h.children q hq
    have hc : (s.proc q).pChild ∈ ys := hleadq.mem_of_child rfl hc0
    have hout : ∀ n ∈ ys, n ∉ xs := by
      intro n hn hx
      exact hrq (Option.some.inj (((hmem n).mp hx).2.symm.trans ((hmemq n).mp hn).2))
    refine hlead.congr rfl (fun n hn => ?_) (fun n hn => ?_)
    · have hnc : n ≠ (s.proc q).pChild := fun heq => hout _ hc (heq ▸ hn)
      rw [insertAfter_next, if_neg hnc, if_neg (hpx n hn)]
    · have hnc : n ≠ s.silbing.next (s.proc q).pChild := fun heq => hout _ (hleadq.next_mem hc) (heq ▸ hn)
      rw [insertAfter_prev, if_neg (hpx n hn), if_neg hnc]
  · refine hlead.congr ?_ (fun n _ => rfl) (fun n _ => rfl)
    rw [setChild_pChild, if_neg hrq]
  · exact hlead

/-- The parent has one child more. -/
theorem Inv.leads_parent (h : s.Inv) (hq : q ∈ s.sysProc) (hp : p ∉ s.sysProc) (hp0 : p ≠ 0)
    (hself : s.silbing.next p = p ∧ s.silbing.prev p = p) (hl : s.ChildList q xs) :
    ∃ ys, (s.joinParent q p).Leads q ys ∧ ∀ c, c ∈ ys ↔ c = p ∨ c ∈ xs := by
  have ⟨hlead, hmem⟩ := hl
  have hpx : p ∉ xs := fun hx => hp ((hmem p).mp hx).1
  have hq0 : q ≠ 0 := fun heq => h.zero (heq ▸ hq)
  unfold joinParent
  rw [if_pos hq0]
  dsimp only
  cases xs with
  | nil =>
      have hc0 : (s.proc q).pChild = 0 := hlead
      rw [if_neg (not_not.mpr hc0)]
      refine ⟨[p], ⟨?_, hp0, IsRing.of_selfLoop hself.1 hself.2⟩, fun c => by simp⟩
      rw [setChild_pChild, if_pos rfl]
  | cons d ds =>
      have ⟨hd, hd0, hring⟩ := hlead
      have hc0 : (s.proc q).pChild ≠ 0 := by rwa [hd]
      rw [if_pos hc0, hd]
      refine ⟨d :: p :: ds, ⟨hd, hd0, hring.insertAfter hpx⟩, fun c => ?_⟩
      simp only [List.mem_cons]
      tauto

/-- The page of a new process, before it is put into the tree. -/
theorem Inv.newPage (h : s.Inv) (content : Kprocess) (hp : p ∉ s.sysProc) :
    { s with proc := Function.update s.proc p content, silbing := s.silbing.selfLoop p : Procs }.Inv :=
  h.overwrite hp

theorem joinParent_pChild_self (hqp : q ≠ p) : ((s.joinParent q p).proc p).pChild = (s.proc p).pChild := by
  unfold joinParent
  dsimp only
  split_ifs
  · rfl
  · rw [setChild_pChild, if_neg hqp.symm]
  · rfl

/-- A new process is put into the tree and into `sys_proc`. -/
theorem Inv.enter (h : s.Inv) (hq : s.IsHost q) (hp0 : p ≠ 0) (hp : p ∉ s.sysProc)
    (hpar : (s.proc p).pParent = q) (hchild : (s.proc p).pChild = 0)
    (hself : s.silbing.next p = p ∧ s.silbing.prev p = p)
    (hpid : ∀ r ∈ s.sysProc, (s.proc r).pid ≠ (s.proc p).pid) :
    { s.joinParent q p with
      sysProc := p :: s.sysProc
      creator := Function.update s.creator p (if q = 0 then none else some q) : Procs }.Inv := by
  have hqp : q ≠ p := by
    rintro rfl
    exact hp (hq.resolve_left hp0)
  have hne : ∀ r ∈ s.sysProc, r ≠ p := fun r hr heq => hp (heq ▸ hr)
  constructor
  · intro r hrs
    rcases List.mem_cons.mp hrs with rfl | hr
    · -- the new process has no children
      refine ⟨[], (joinParent_pChild_self hqp).trans hchild, fun c => iff_of_false List.not_mem_nil ?_⟩
      rintro ⟨hc, hcr⟩
      by_cases hcp : c = r
      · subst hcp
        have hcr' : (if q = 0 then none else some q) = some c := (Function.update_self c _ s.creator).symm.trans hcr
        split_ifs at hcr'
        exact hqp (Option.some.inj hcr')
      · have hcr' : s.creator c = some r := (Function.update_of_ne hcp _ s.creator).symm.trans hcr
        exact hp (h.parent c ((List.mem_cons.mp hc).resolve_left hcp) r hcr').1
    · have ⟨xs, hl⟩ := h.children r hr
      by_cases hrq : r = q
      · subst hrq
        have hr0 : r ≠ 0 := fun heq => h.zero (heq ▸ hr)
        have ⟨ys, hlead, hmem⟩ := h.leads_parent hr hp hp0 hself hl
        refine ⟨ys, hlead, fun c => ?_⟩
        rw [hmem, hl.2, if_neg hr0]
        by_cases hcp : c = p
        · simp [hcp]
        · simp [hcp]
      · refine ⟨xs, h.leads_joinParent hq hp hrq hl, fun c => ?_⟩
        rw [hl.2]
        by_cases hcp : c = p
        · subst hcp
          refine iff_of_false (fun hc => hp hc.1) ?_
          rintro ⟨_, hcr⟩
          have hcr' : (if q = 0 then none else some q) = some r := (Function.update_self c _ s.creator).symm.trans hcr
          split_ifs at hcr'
          exact hrq (Option.some.inj hcr').symm
        · simp [hcp]
  · exact fun h0 => (List.mem_cons.mp h0).elim (fun heq => hp0 heq.symm) h.zero
  · intro r hrs r' hrs'
    simp only [joinParent_pid]
    rcases List.mem_cons.mp hrs with rfl | hr
    · rcases List.mem_cons.mp hrs' with rfl | hr'
      · exact fun _ => rfl
      · exact fun heq => absurd heq.symm (hpid r' hr')
    · rcases List.mem_cons.mp hrs' with rfl | hr'
      · exact fun heq => absurd heq (hpid r hr)
      · exact h.pid r hr r' hr'
  · intro c hc r hcr
    simp only [joinParent_pParent]
    by_cases hcp : c = p
    · subst hcp
      have hcr' : (if q = 0 then none else some q) = some r := (Function.update_self c _ s.creator).symm.trans hcr
      split_ifs at hcr' with hq0
      obtain rfl : q = r := Option.some.inj hcr'
      exact ⟨List.mem_cons_of_mem _ (hq.resolve_left hq0), hpar, hqp⟩
    · have hcr' : s.creator c = some r := (Function.update_of_ne hcp _ s.creator).symm.trans hcr
      have ⟨hr, hpar', hrc⟩ := h.parent c ((List.mem_cons.mp hc).resolve_left hcp) r hcr'
      exact ⟨List.mem_cons_of_mem _ hr, hpar', hrc⟩

theorem Inv.kcreateProcess (h : s.Inv) {pid : ℕ} {loaded : Bool} (hq : s.IsHost q) (hp0 : p ≠ 0)
    (hp : p ∉ s.sysProc) (hpid : ∀ r ∈ s.sysProc, (s.proc r).pid ≠ pid) :
    (s.kcreateProcess q p pid loaded).Inv := by
  have h' := h.newPage { pid := pid, pParent := q, pChild := 0 } hp
  cases loaded with
  | false => exact h'
  | true =>
      refine h'.enter hq hp0 hp ?_ ?_ ?_ ?_
      · simp
      · simp
      · simp [selfLoop_next, selfLoop_prev]
      · intro r hr
        have hrp : r ≠ p := fun heq => hp (heq ▸ hr)
        simpa [hrp] using hpid r hr

/-! ## Runs -/

theorem inv_start (proc : ℕ → Kprocess) (silbing : Links ℕ) : (start proc silbing).Inv := by
  constructor
  · exact fun p hp => absurd hp List.not_mem_nil
  · exact List.not_mem_nil
  · exact fun p hp => absurd hp List.not_mem_nil
  · exact fun p hp => absurd hp List.not_mem_nil

theorem kopenProcess_mem {pid : ℕ} (hopen : s.kopenProcess pid = some p) : p ∈ s.sysProc :=
  List.mem_of_find?_eq_some hopen

theorem after_of_closing {c : Call} (hc : s.closing c = some p) : s.after c = s.kcloseProc p := by
  cases c with
  | kexit host =>
      have ⟨hhost, heq⟩ : host ≠ 0 ∧ host = p := by simpa [closing] using hc
      rw [← heq]
      exact if_pos hhost
  | kterminateProc host pid =>
      have ⟨hopen, hne⟩ : s.kopenProcess pid = some p ∧ p ≠ host := by simpa [closing] using hc
      simp only [after, kterminateProc, hopen, if_neg hne]
  | kcreateProcess => cases hc
  | overwrite => cases hc

theorem closing_mem {c : Call} (hfits : s.Fits c) (hc : s.closing c = some p) : p ∈ s.sysProc := by
  cases c with
  | kexit host =>
      have ⟨hhost, heq⟩ : host ≠ 0 ∧ host = p := by simpa [closing] using hc
      rw [← heq]
      exact hfits.resolve_left hhost
  | kterminateProc host pid =>
      have ⟨hopen, _⟩ : s.kopenProcess pid = some p ∧ p ≠ host := by simpa [closing] using hc
      exact kopenProcess_mem hopen
  | kcreateProcess => cases hc
  | overwrite => cases hc

theorem Inv.after_of_not_closing (h : s.Inv) {c : Call} (hfits : s.Fits c) (hc : s.closing c = none) :
    (s.after c).Inv := by
  cases c with
  | kcreateProcess host proc pid loaded =>
      have ⟨hhost, hp0, hp, hpid⟩ := hfits
      exact h.kcreateProcess hhost hp0 hp hpid
  | kexit host =>
      have hhost : host = 0 := by simpa [closing] using hc
      rw [after, kexit, if_neg (not_not.mpr hhost)]
      exact h
  | kterminateProc host pid =>
      rw [after, kterminateProc]
      cases hopen : s.kopenProcess pid with
      | none => exact h
      | some p =>
          have hself : p = host := by simpa [closing, hopen] using hc
          dsimp only
          rw [if_pos hself]
          exact h
  | overwrite page content prev next => exact h.overwrite hfits

/-- A call that meets the condition keeps the invariant. -/
theorem Inv.after (h : s.Inv) {c : Call} (hfits : s.Fits c) (hok : s.Ok c) : (s.after c).Inv := by
  cases hc : s.closing c with
  | none => exact h.after_of_not_closing hfits hc
  | some p =>
      rw [after_of_closing hc]
      exact h.kcloseProc (closing_mem hfits hc) (hok p hc)

/-- One that does not meet it leaves a tree that is not right. -/
theorem Inv.not_right_after (h : s.Inv) {c : Call} (hfits : s.Fits c) (hok : ¬ s.Ok c) :
    ¬ (s.after c).TreeRight := by
  obtain ⟨p, hc, hp⟩ : ∃ p, s.closing c = some p ∧ ¬ s.ClosesRight p := by
    simpa [Ok] using hok
  rw [after_of_closing hc]
  exact h.not_right_of_not_ok (closing_mem hfits hc) hp

end

/-- A process without a parent, its children, and the end of one of them. -/
def family (pids : List ℕ) (last : ℕ) : List Call :=
  .kcreateProcess 0 0x1000 1 true ::
    (pids.map fun pid => .kcreateProcess 0x1000 (0x1000 * pid) pid true) ++ [.kterminateProc 0x1000 last]

end Procs

end Shaunos.Proc
