import Mathlib.Data.Int.Notation
import Mathlib.Logic.Function.Basic
import Shaunos.Common.Run
import Shaunos.Net.Errno

/-!
# The lock of a socket buffer

Reference: `Include/kernel/sys/socketval.h` (`sblock`, `sbunlock`), `Kernel/net/uipc_socket2.c`
(`sb_lock`, `sbsleep`, `sb_unlock`, `sb_wakeup`), `Include/kernel/kthread.h` (`pt_wait_on`).

Any number of threads lock and unlock one socket buffer. Each turn of the loop of `sb_lock` is one step,
up to where the thread goes to sleep.

* `sbExclusive_iff` — when the lock excludes and reports as it should, over every interleaving.
-/

namespace Shaunos.Net

/-! ## The code -/

/-- Where a thread is. -/
inductive SbPhase where
  | outside
  /-- In `sbsleep`, on the list of waiters. -/
  | asleep
  /-- Made runnable in `sbsleep`. -/
  | woken
  /-- Behind a call of `sblock` or `sb_lock` that returned 0. -/
  | inside
deriving DecidableEq

/-- A call of `sblock` that returned. -/
structure SbResult where
  /-- `wf == M_WAITOK`. -/
  waitOk : Bool
  /-- `SB_LOCK` was set when the call was made. -/
  held : Bool
  result : ℤ

/-- The lock, and the threads that use it. `owner` is the thread that has set `SB_LOCK` since it was last
cleared, and `results` are the calls of `sblock` so far. -/
structure SbLockState (ι : Type*) where
  /-- `sb_flags & SB_LOCK`. -/
  sbLock : Bool
  /-- `sb_flags & SB_WANT`. -/
  sbWant : Bool
  /-- The waiters of `lockq`. -/
  lockq : List ι
  phase : ι → SbPhase
  owner : Option ι
  results : List SbResult

/-- What a thread does. -/
inductive SbStep (ι : Type*) where
  | sblock (t : ι) (waitOk : Bool)
  | sbLockCall (t : ι)
  /-- A thread that was made runnable goes on in the loop of `sb_lock`. -/
  | resume (t : ι)
  | sbunlock (t : ι)
  /-- Something other than `sb_wakeup` makes a sleeping thread runnable. -/
  | interrupt (t : ι)

/-- The value of the macro `sblock`. The comma takes the value of all before it away. -/
def sblockValue (_ : ℤ) : ℤ := 0

section

variable {ι : Type*} [DecidableEq ι]

namespace SbLockState

variable (s : SbLockState ι)

def setPhase (t : ι) (phase : SbPhase) : SbLockState ι :=
  { s with phase := Function.update s.phase t phase }

/-- `SB_LOCK` is set. -/
def take (t : ι) : SbLockState ι :=
  { s.setPhase t .inside with sbLock := true, owner := some t }

/-- The loop of `sb_lock` up to where it ends or sleeps. -/
def sbLockLoop (t : ι) : SbLockState ι :=
  if s.sbLock then
    { s.setPhase t .asleep with sbWant := true, lockq := s.lockq ++ [t] }
  else s.take t

/-- `sb_wakeup` on the waiters of `lockq`. -/
def sbWakeup : SbLockState ι :=
  { s with phase := fun t => if t ∈ s.lockq then .woken else s.phase t, lockq := [] }

/-- One step, if the thread can take it. -/
def step : SbStep ι → Option (SbLockState ι)
  | .sblock t waitOk =>
      if s.phase t ≠ .outside then none
      else if s.sbLock then
        if waitOk then some (s.sbLockLoop t)
        else
          let result := sblockValue (-eWOULDBLOCK)
          let s := { s with results := ⟨waitOk, true, result⟩ :: s.results }
          some (if result = 0 then s.setPhase t .inside else s)
      else
        let result := sblockValue 1
        let s := { s with results := ⟨waitOk, false, result⟩ :: s.results }
        some (s.take t)
  | .sbLockCall t => if s.phase t ≠ .outside then none else some (s.sbLockLoop t)
  | .resume t => if s.phase t ≠ .woken then none else some (s.sbLockLoop t)
  | .sbunlock t =>
      if s.phase t ≠ .inside then none
      else
        let s := { s.setPhase t .outside with sbLock := false, owner := none }
        some (if s.sbWant then { s.sbWakeup with sbWant := false } else s)
  | .interrupt t =>
      if s.phase t ≠ .asleep then none
      else some { s.setPhase t .woken with lockq := s.lockq.erase t }

end SbLockState

/-- A buffer that nobody locks. -/
def sbLockStart : SbLockState ι where
  sbLock := false
  sbWant := false
  lockq := []
  phase := fun _ => .outside
  owner := none
  results := []

/-- At most one thread is between a successful `sblock` and its `sbunlock`, a thread that was told of
success holds the lock, and a call that may not wait for a lock in use was told of failure. -/
structure SbExclusive (s : SbLockState ι) : Prop where
  mutex : ∀ t u, s.phase t = .inside → s.phase u = .inside → t = u
  holder : ∀ t, s.phase t = .inside → s.owner = some t
  held : s.sbLock = true ↔ s.owner.isSome = true
  refused : ∀ r ∈ s.results, r.held = true → r.waitOk = false → r.result ≠ 0

/-- When a step does right: `sblock` waits if it finds the buffer locked. -/
def SbStep.Ok (s : SbLockState ι) : SbStep ι → Prop
  | .sblock _ waitOk => s.sbLock = true → waitOk = true
  | _ => True

instance (s : SbLockState ι) : ∀ c : SbStep ι, Decidable (c.Ok s)
  | .sblock .. => inferInstanceAs (Decidable (_ → _))
  | .sbLockCall _ => isTrue trivial
  | .resume _ => isTrue trivial
  | .sbunlock _ => isTrue trivial
  | .interrupt _ => isTrue trivial

end

/-! ## Steps -/

section

variable {ι : Type*} {s : SbLockState ι} {u : ι}

/-- Nobody is inside while the buffer is not locked. -/
theorem SbExclusive.not_inside (h : SbExclusive s) (hlock : s.sbLock = false) :
    s.phase u ≠ .inside := by
  intro hu
  have hsome := h.held.mpr (by rw [h.holder u hu, Option.isSome_some])
  rw [hlock] at hsome
  cases hsome

/-- A call that is logged with a result as it should be. -/
theorem SbExclusive.log (h : SbExclusive s) (r : SbResult)
    (hr : r.held = true → r.waitOk = false → r.result ≠ 0) :
    SbExclusive { s with results := r :: s.results } := by
  refine ⟨h.mutex, h.holder, h.held, ?_⟩
  intro q hq
  rcases List.mem_cons.mp hq with rfl | hq
  · exact hr
  · exact h.refused q hq

theorem sbExclusive_start : SbExclusive (sbLockStart : SbLockState ι) where
  mutex := by simp [sbLockStart]
  holder := by simp [sbLockStart]
  held := by simp [sbLockStart]
  refused := by simp [sbLockStart]

variable [DecidableEq ι] {t : ι} {phase : SbPhase}

/-- A thread that goes anywhere but inside changes nothing that matters. -/
theorem SbExclusive.setPhase (h : SbExclusive s) (t : ι) (hne : phase ≠ .inside) :
    SbExclusive (s.setPhase t phase) := by
  have hin : ∀ u, (s.setPhase t phase).phase u = .inside → s.phase u = .inside := by
    intro u hu
    by_cases hut : u = t
    · subst hut
      simp only [SbLockState.setPhase, Function.update_self] at hu
      exact absurd hu hne
    · simpa only [SbLockState.setPhase, Function.update_of_ne hut] using hu
  exact ⟨fun u v hu hv => h.mutex u v (hin u hu) (hin v hv), fun u hu => h.holder u (hin u hu),
    h.held, h.refused⟩

theorem SbExclusive.take (h : SbExclusive s) (hlock : s.sbLock = false) : SbExclusive (s.take t) := by
  have hin : ∀ u, (s.take t).phase u = .inside → u = t := by
    intro u hu
    by_contra hut
    refine h.not_inside hlock (u := u) ?_
    simpa only [SbLockState.take, SbLockState.setPhase, Function.update_of_ne hut] using hu
  refine ⟨fun u v hu hv => (hin u hu).trans (hin v hv).symm, ?_, by simp [SbLockState.take], h.refused⟩
  intro u hu
  rw [hin u hu]
  rfl

theorem SbExclusive.sbLockLoop (h : SbExclusive s) : SbExclusive (s.sbLockLoop t) := by
  rw [SbLockState.sbLockLoop]
  split
  · have hsleep := h.setPhase t (show SbPhase.asleep ≠ .inside by decide)
    exact ⟨hsleep.mutex, hsleep.holder, hsleep.held, hsleep.refused⟩
  · rename_i hlock
    exact h.take (Bool.eq_false_iff.mpr hlock)

theorem SbExclusive.sbunlock (h : SbExclusive s) (ht : s.phase t = .inside) :
    SbExclusive { s.setPhase t .outside with sbLock := false, owner := none } := by
  have hout : ∀ u, (s.setPhase t .outside).phase u ≠ .inside := by
    intro u hu
    by_cases hut : u = t
    · subst hut
      simp [SbLockState.setPhase] at hu
    · simp only [SbLockState.setPhase, Function.update_of_ne hut] at hu
      exact hut (h.mutex u t hu ht)
  exact ⟨fun u _ hu => absurd hu (hout u), fun u hu => absurd hu (hout u), by simp, h.refused⟩

theorem SbExclusive.sbWakeup (h : SbExclusive s) : SbExclusive { s.sbWakeup with sbWant := false } := by
  have hin : ∀ u, s.sbWakeup.phase u = .inside → s.phase u = .inside := by
    intro u hu
    simp only [SbLockState.sbWakeup] at hu
    split at hu
    · cases hu
    · exact hu
  exact ⟨fun u v hu hv => h.mutex u v (hin u hu) (hin v hv), fun u hu => h.holder u (hin u hu), h.held,
    h.refused⟩

/-- A step keeps the lock exclusive if and only if it does right. -/
theorem sbExclusive_step (s : SbLockState ι) (c : SbStep ι) (s' : SbLockState ι) (h : SbExclusive s)
    (hstep : s.step c = some s') : SbExclusive s' ↔ c.Ok s := by
  cases c with
  | sblock t waitOk =>
      simp only [SbLockState.step] at hstep
      split at hstep
      · cases hstep
      split at hstep
      · rename_i hlock
        split at hstep
        · rename_i hwait
          obtain rfl := Option.some.inj hstep
          exact iff_of_true h.sbLockLoop fun _ => hwait
        · -- the call returns 0 all the same
          rename_i hwait
          obtain rfl := Option.some.inj hstep
          refine iff_of_false ?_ fun hok => hwait (hok hlock)
          intro hex
          have hwait' : waitOk = false := Bool.eq_false_iff.mpr hwait
          exact hex.refused ⟨waitOk, true, 0⟩ List.mem_cons_self rfl hwait' rfl
      · rename_i hlock
        obtain rfl := Option.some.inj hstep
        have hlog := h.log ⟨waitOk, false, sblockValue 1⟩ (by simp)
        exact iff_of_true (hlog.take (Bool.eq_false_iff.mpr hlock)) fun hl => absurd hl hlock
  | sbLockCall t =>
      simp only [SbLockState.step] at hstep
      split at hstep
      · cases hstep
      · obtain rfl := Option.some.inj hstep
        exact iff_of_true h.sbLockLoop trivial
  | resume t =>
      simp only [SbLockState.step] at hstep
      split at hstep
      · cases hstep
      · obtain rfl := Option.some.inj hstep
        exact iff_of_true h.sbLockLoop trivial
  | sbunlock t =>
      simp only [SbLockState.step] at hstep
      split at hstep
      · cases hstep
      · rename_i ht
        obtain rfl := Option.some.inj hstep
        have hun := h.sbunlock (not_not.mp ht)
        refine iff_of_true ?_ trivial
        split
        · exact hun.sbWakeup
        · exact hun
  | interrupt t =>
      simp only [SbLockState.step] at hstep
      split at hstep
      · cases hstep
      · obtain rfl := Option.some.inj hstep
        have hwoken := h.setPhase t (show SbPhase.woken ≠ .inside by decide)
        exact iff_of_true ⟨hwoken.mutex, hwoken.holder, hwoken.held, hwoken.refused⟩ trivial

/-- **The lock is exclusive all along an interleaving if and only if no `sblock` that may not wait finds it
in use.** -/
theorem sbExclusive_iff (steps : List (SbStep ι))
    (hrun : (runCalls SbLockState.step sbLockStart steps).isSome = true) :
    KeepsAll SbLockState.step SbExclusive sbLockStart steps ↔
      AllCalls SbLockState.step SbStep.Ok sbLockStart steps :=
  keepsAll_iff_of_runs sbExclusive_step sbExclusive_start steps hrun

end

/-- Thread 1 waits for thread 0, is made runnable too early and sleeps again. -/
theorem sbExclusive_iff_wait :
    KeepsAll SbLockState.step SbExclusive (sbLockStart : SbLockState ℕ)
      [.sblock 0 true, .sblock 1 true, .interrupt 1, .resume 1, .sbunlock 0, .resume 1, .sbunlock 1] :=
  (sbExclusive_iff _ (by decide)).mpr (by decide)

/-- Thread 1 may not wait for thread 0, and both are inside. -/
theorem sblock_can_let_two_in :
    ∃ s, Reach SbLockState.step (fun _ _ => True) (sbLockStart : SbLockState ℕ) s ∧
      s.phase 0 = .inside ∧ s.phase 1 = .inside ∧ ¬ SbExclusive s := by
  set steps : List (SbStep ℕ) := [.sblock 0 true, .sblock 1 false] with hsteps
  have hrun : (runCalls SbLockState.step sbLockStart steps).map (fun s => (s.phase 0, s.phase 1)) =
      some (.inside, .inside) := by
    decide
  have ⟨s, hs, hphase⟩ := Option.map_eq_some_iff.mp hrun
  have ⟨h₀, h₁⟩ := Prod.mk.inj hphase
  refine ⟨s, Reach.start.of_runCalls steps (AllCalls.of_forall (fun _ _ => trivial) _ _) hs, h₀, h₁, ?_⟩
  intro h
  exact absurd (h.mutex 0 1 h₀ h₁) (by decide)

end Shaunos.Net
