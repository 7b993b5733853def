import Mathlib.Data.List.Perm.Subperm
import Mathlib.Data.List.Rotate
import Shaunos.Kernel.Sched

/-!
# Runs of the scheduler

Reference: `Kernel/kthread.c` (`schedule_init`, `shutdown_thread`, and the functions of `Kernel/Sched.lean`).

A run starts behind `schedule_init`, in the idle thread. Threads are made, sleep, wait, are woken by timers and by other
threads, are preempted, and shut down, in any order. A call is what is done with interrupts off; `shutdown_thread`
leaves them on, so it is three calls. Processes do not end here.

* `threads_on_lists` — every thread is on one list that fits it, and no list is broken;
* `schedule_highest` — the first thread of the highest run queue goes on;
* `round_robin` — the threads of that queue take turns;
* `wakeup_all` — no waiter is forgotten;
* `asleep_until_woken` — a thread that sleeps or waits does so up to a wake-up that is meant for it.
-/

namespace Shaunos.Sched

open Links

/-- The threads. No code reads `live`: the threads that were made and have not shut down. -/
structure Sys extends Threads where
  /-- `sysidle_thread`. -/
  idle : ℕ
  live : List ℕ

/-- What can come next. Apart from `kcreateThread`, `schedule` and the two calls that wake threads, it is `current` that
makes the call. -/
inductive Call where
  | kcreateThread (t : ℕ) (att : KthreadAtt)
  | schedule
  | ksleep (ms : ℤ) (registered : Bool)
  | ptWaitOn (wq : WaitQueueHead)
  | kwaitPid (wq : WaitQueueHead) (ms : ℤ) (registered : Bool)
  | ioWait (wq : WaitQueueHead)
  /-- `pt_wakeup`, also as the callback of a timer. -/
  | ptWakeup (t : ℕ)
  | wakeupWaiters (wq : WaitQueueHead)
  /-- `list_del` in `shutdown_thread`. -/
  | leave

namespace Sys

def withThreads (s : Sys) (r : Threads) : Sys := { s with toThreads := r }

def call (s : Sys) : Call → Option Sys
  | .kcreateThread t att => some { s.withThreads (s.toThreads.kcreateThread t att) with live := t :: s.live }
  | .schedule => s.toThreads.schedule.map s.withThreads
  | .ksleep ms registered => (s.toThreads.ksleep ms registered).map s.withThreads
  | .ptWaitOn wq => (s.toThreads.ptWaitOn wq).map s.withThreads
  | .kwaitPid wq ms registered => (s.toThreads.kwaitPid wq ms registered).map s.withThreads
  | .ioWait wq => some (s.withThreads (s.toThreads.ioWait wq))
  | .ptWakeup t => some (s.withThreads (s.toThreads.ptWakeup t))
  | .wakeupWaiters wq => (s.toThreads.wakeupWaiters wq (s.live.length + 1)).map s.withThreads
  | .leave => some { s.withThreads (s.toThreads.del s.current) with live := s.live.filter (· ≠ s.current) }

/-- A new thread lies where none is, and nobody waits for it yet. The idle thread does not sleep, wait or shut down, and
a thread that has shut down does nothing. Only threads that are there are woken: `kwait_pid` does not take its timer
back, so its caller may not shut down before that timer has run out. -/
def Allowed (s : Sys) : Call → Prop
  | .kcreateThread t _ => t ∉ s.live ∧ s.lists.next (.inl (.waiter (.ofThread t))) = .inl (.waiter (.ofThread t))
  | .schedule => True
  | .ksleep ms _ => s.current ∈ s.live ∧ (0 < ms → s.current ≠ s.idle)
  | .ptWaitOn _ => s.current ∈ s.live ∧ s.current ≠ s.idle
  | .kwaitPid _ _ _ => s.current ∈ s.live ∧ s.current ≠ s.idle
  | .ioWait _ => s.current ∈ s.live ∧ s.current ≠ s.idle
  | .ptWakeup t => t ∈ s.live
  | .wakeupWaiters _ => True
  | .leave => s.current ∈ s.live ∧ s.current ≠ s.idle

/-- The heads are initialised, and the idle thread is made. In the memory of other threads, there may be anything. -/
def start (l : Links (Head ⊕ ℕ)) (kthread : ℕ → Kthread) (idle : ℕ) : Sys where
  toThreads := Threads.kcreateThread
    { lists :=
        { prev := Sum.elim .inl fun t => l.prev (.inr t)
          next := Sum.elim .inl fun t => l.next (.inr t) }
      kthread := kthread
      current := idle } idle ⟨0, .running⟩
  idle := idle
  live := [idle]

end Sys

/-! ## The invariant -/

/-- The list is one for the thread: the queues of its priority, or any waiters. -/
def Fits (k : Kthread) : Head → Prop
  | .runQueue i => k.priority = i
  | .waitQueue i => k.priority = i
  | .waiter _ => True

structure Inv (s : Sys) (q : Head → List ℕ) : Prop where
  queues : Queues s.lists q
  live_iff : ∀ t, t ∈ s.live ↔ ∃ h, t ∈ q h
  fits : ∀ h, ∀ t ∈ q h, Fits (s.kthread t) h
  idle : s.idle ∈ q (.runQueue 0)

/-- What a step does to the threads: one that it does not move stays on its list, and one that goes on can run. -/
structure Moves (q : Head → List ℕ) (current : ℕ) (q' : Head → List ℕ) (current' : ℕ) (moved : ℕ → Prop) : Prop where
  stays : ∀ x, ¬moved x → ∀ h, x ∈ q h → x ∈ q' h
  goes : current' = current ∨ ∃ i, current' ∈ q' (.runQueue i)

variable {s : Sys} {q q' : Head → List ℕ} {r : Threads} {h : Head} {t : ℕ} {moved : ℕ → Prop}

theorem Moves.refl (q : Head → List ℕ) (t : ℕ) (moved : ℕ → Prop) : Moves q t q t moved :=
  ⟨fun _ _ _ hx => hx, .inl rfl⟩

/-- Only the order in the lists has changed. -/
theorem Inv.reorder (hi : Inv s q) (hq : Queues r.lists q') (hmem : ∀ h x, x ∈ q' h ↔ x ∈ q h)
    (hsame : r.kthread = s.kthread) : Inv (s.withThreads r) q' where
  queues := hq
  live_iff x := by
    rw [Sys.withThreads, hi.live_iff]
    exact exists_congr fun h => (hmem h x).symm
  fits h x hx := by
    simp only [Sys.withThreads, hsame]
    exact hi.fits h x ((hmem h x).mp hx)
  idle := (hmem _ _).mpr hi.idle

/-- One thread has gone to another list. -/
theorem Inv.move (hi : Inv s q) (ht : t ∈ s.live) (hq : Queues r.lists q')
    (hmem : ∀ k x, x ∈ q' k ↔ x = t ∧ k = h ∨ x ≠ t ∧ x ∈ q k) (hsame : ∀ x, x ≠ t → r.kthread x = s.kthread x)
    (hfits : Fits (r.kthread t) h) (hidle : t = s.idle → h = .runQueue 0) : Inv (s.withThreads r) q' where
  queues := hq
  live_iff x := by
    simp only [Sys.withThreads, hmem]
    by_cases hx : x = t
    · simp [hx, ht]
    · simp [hx, hi.live_iff]
  fits k x hx := by
    rcases (hmem k x).mp hx with ⟨rfl, rfl⟩ | ⟨hne, hx⟩
    · exact hfits
    · simp only [Sys.withThreads, hsame x hne]
      exact hi.fits k x hx
  idle := by
    refine (hmem _ _).mpr ?_
    by_cases hx : s.idle = t
    · exact .inl ⟨hx, (hidle hx.symm).symm⟩
    · exact .inr ⟨hx, hi.idle⟩

theorem mem_toFront (hq : Queues r.lists q) (k : Head) (x : ℕ) :
    x ∈ toFront q h t k ↔ x = t ∧ k = h ∨ x ≠ t ∧ x ∈ q k := by
  rw [toFront, Function.update_apply]
  split_ifs with hk
  · subst hk
    rw [List.mem_cons, (hq.nodup k).mem_erase_iff]
    by_cases hx : x = t <;> simp [hx]
  · rw [(hq.nodup k).mem_erase_iff]
    simp [hk]

theorem mem_toBack (hq : Queues r.lists q) (k : Head) (x : ℕ) :
    x ∈ toBack q h t k ↔ x = t ∧ k = h ∨ x ≠ t ∧ x ∈ q k := by
  rw [toBack, Function.update_apply]
  split_ifs with hk
  · subst hk
    rw [List.mem_append, (hq.nodup k).mem_erase_iff, List.mem_singleton]
    by_cases hx : x = t <;> simp [hx]
  · rw [(hq.nodup k).mem_erase_iff]
    simp [hk]

/-- The waiters of a list can be counted. -/
theorem Inv.length_le (hi : Inv s q) (h : Head) : (q h).length ≤ s.live.length :=
  ((hi.queues.nodup h).subperm fun t ht => (hi.live_iff t).mpr ⟨h, ht⟩).length_le

theorem Inv.low (hi : Inv s q) : q (.runQueue 0) ≠ [] := List.ne_nil_of_mem hi.idle

theorem Inv.schedule (hi : Inv s q) : ∃ r q', s.toThreads.schedule = some r ∧ Inv (s.withThreads r) q' ∧
    (∀ h x, x ∈ q' h ↔ x ∈ q h) ∧ ∃ i, r.current ∈ q' (.runQueue i) := by
  obtain ⟨i, x, xs, l', hx, -, hcall, hq⟩ := Threads.schedule_queues hi.queues hi.low
  have hmem : ∀ h y, y ∈ Function.update q (.runQueue i) (xs ++ [x]) h ↔ y ∈ q h := by
    intro h y
    rw [Function.update_apply]
    split_ifs with hh
    · rw [hh, hx]
      simp [or_comm]
    · rfl
  exact ⟨_, _, hcall, hi.reorder hq hmem rfl, hmem, i, (hmem _ _).mpr (by rw [hx]; exact List.mem_cons_self)⟩

/-- What was moved before `schedule` is what has been moved behind it. -/
theorem Inv.thenSchedule {q₀ : Head → List ℕ} {current : ℕ} (hi : Inv (s.withThreads r) q)
    (hstays : ∀ x, ¬moved x → ∀ h, x ∈ q₀ h → x ∈ q h) : ∃ r' q', r.schedule = some r' ∧
      Inv (s.withThreads r') q' ∧ Moves q₀ current q' r'.current moved := by
  obtain ⟨r', q', hcall, hi', hmem, hgoes⟩ := hi.schedule
  exact ⟨r', q', hcall, hi', fun x hx h hh => (hmem h x).mpr (hstays x hx h hh), .inr hgoes⟩

/-- A thread goes to the end of a list. -/
theorem Inv.moveBack (hi : Inv s q) (ht : t ∈ s.live) (hlists : r.lists = s.lists)
    (hsame : ∀ x, x ≠ t → r.kthread x = s.kthread x) (hfits : Fits (r.kthread t) h)
    (hidle : t = s.idle → h = .runQueue 0) : Inv (s.withThreads ((r.del t).addTail h t)) (toBack q h t) ∧
      ∀ x, ¬x = t → ∀ k, x ∈ q k → x ∈ toBack q h t k := by
  obtain ⟨k, hk⟩ := (hi.live_iff t).mp ht
  have hq : Queues r.lists q := by rw [hlists]; exact hi.queues
  exact ⟨hi.move ht (Threads.del_addTail hq hk) (mem_toBack hq) hsame hfits hidle,
    fun x hx k hxk => (mem_toBack hq k x).mpr (.inr ⟨hx, hxk⟩)⟩

theorem Inv.moveFront (hi : Inv s q) (ht : t ∈ s.live) (hlists : r.lists = s.lists)
    (hsame : ∀ x, x ≠ t → r.kthread x = s.kthread x) (hfits : Fits (r.kthread t) h)
    (hidle : t = s.idle → h = .runQueue 0) : Inv (s.withThreads ((r.del t).add h t)) (toFront q h t) ∧
      ∀ x, ¬x = t → ∀ k, x ∈ q k → x ∈ toFront q h t k := by
  obtain ⟨k, hk⟩ := (hi.live_iff t).mp ht
  have hq : Queues r.lists q := by rw [hlists]; exact hi.queues
  exact ⟨hi.move ht (Threads.del_add hq hk) (mem_toFront hq) hsame hfits hidle,
    fun x hx k hxk => (mem_toFront hq k x).mpr (.inr ⟨hx, hxk⟩)⟩

theorem setState_of_ne {r : Threads} {x : ℕ} (state : KthreadState) (hx : x ≠ t) :
    (r.setState t state).kthread x = r.kthread x := by
  simp only [Threads.setState, Function.update_of_ne hx]

/-- The idle thread has the lowest priority. -/
theorem Inv.idle_priority (hi : Inv s q) : (s.kthread s.idle).priority = 0 := hi.fits _ _ hi.idle

theorem Inv.ptWakeup (hi : Inv s q) (ht : t ∈ s.live) : ∃ q', Inv (s.withThreads (s.toThreads.ptWakeup t)) q' ∧
    ∀ x, ¬x = t → ∀ k, x ∈ q k → x ∈ q' k := by
  refine ⟨_, hi.moveFront (r := s.toThreads.setState t .running) ht rfl (fun x hx => setState_of_ne _ hx)
    rfl fun hidle => ?_⟩
  rw [Threads.setState_priority, hidle, hi.idle_priority]

/-- Those that do not wait stay where they are. -/
theorem mem_woken {priority : ℕ → Fin maxPriority} {wq : WaitQueueHead} {ts : List ℕ} (ht : t ∉ q (.waiter wq))
    (hh : t ∈ q h) : t ∈ woken priority q (.waiter wq) ts h := by
  cases h with
  | runQueue i => exact List.mem_append_right _ hh
  | waitQueue i => simpa [woken] using hh
  | waiter w =>
      have hw : w ≠ wq := fun heq => ht (heq ▸ hh)
      simpa [woken, hw] using hh

theorem Inv.wakeupWaiters (hi : Inv s q) (wq : WaitQueueHead) :
    ∃ r, s.toThreads.wakeupWaiters wq (s.live.length + 1) = some r ∧ r.current = s.current ∧
      (∀ t ∈ q (.waiter wq), (r.kthread t).state = .running) ∧
      Inv (s.withThreads r) (woken (fun t => (s.kthread t).priority) q (.waiter wq) (q (.waiter wq))) := by
  have ⟨l', hcall, hq⟩ := Threads.wakeupWaiters_queues hi.queues (Nat.lt_succ_of_le (hi.length_le (.waiter wq)))
  refine ⟨_, hcall, rfl, fun t ht => by simp [ht], ⟨hq, fun t => ?_, fun h t ht => ?_, ?_⟩⟩
  · simp only [Sys.withThreads]
    rw [hi.live_iff]
    constructor
    · rintro ⟨h, hh⟩
      by_cases hw : h = .waiter wq
      · exact ⟨.runQueue (s.kthread t).priority, by simp [woken, ← hw, hh]⟩
      · exact ⟨h, mem_woken (fun ht => hw (hi.queues.apart h _ t hh ht)) hh⟩
    · rintro ⟨h, hh⟩
      cases h with
      | runQueue i =>
          rw [woken, List.mem_append, List.mem_reverse] at hh
          rcases hh with hh | hh
          · exact ⟨_, List.mem_of_mem_filter hh⟩
          · exact ⟨_, hh⟩
      | waitQueue i => exact ⟨_, by simpa [woken] using hh⟩
      | waiter w =>
          by_cases hw : w = wq
          · simp [woken, hw] at hh
          · exact ⟨_, by simpa [woken, hw] using hh⟩
  · simp only [Sys.withThreads]
    cases h with
    | runQueue i =>
        rw [woken, List.mem_append, List.mem_reverse, List.mem_filter] at ht
        rcases ht with ⟨ht, hi'⟩ | ht
        · rw [if_pos ht]
          have hprio : (s.kthread t).priority = i := of_decide_eq_true hi'
          exact hprio
        · split_ifs
          · exact hi.fits _ t ht
          · exact hi.fits _ t ht
    | waitQueue i =>
        have ht' : t ∈ q (.waitQueue i) := by simpa [woken] using ht
        split_ifs
        · exact hi.fits _ t ht'
        · exact hi.fits _ t ht'
    | waiter w => trivial
  · exact List.mem_append_right _ hi.idle

/-- A thread is made, and goes to the end of a list. -/
theorem Inv.make (hi : Inv s q) (ht : t ∉ s.live) (hq : Queues r.lists (Function.update q h (q h ++ [t])))
    (hsame : ∀ x, x ≠ t → r.kthread x = s.kthread x) (hfits : Fits (r.kthread t) h) :
    Inv { s.withThreads r with live := t :: s.live } (Function.update q h (q h ++ [t])) := by
  have hout : ∀ k, t ∉ q k := fun k hk => ht ((hi.live_iff t).mpr ⟨k, hk⟩)
  have hmem : ∀ k x, x ∈ Function.update q h (q h ++ [t]) k ↔ x = t ∧ k = h ∨ x ∈ q k := by
    intro k x
    rw [Function.update_apply]
    split_ifs with hk
    · simp [hk, or_comm]
    · simp [hk]
  refine ⟨hq, fun x => ?_, fun k x hx => ?_, (hmem _ _).mpr (.inr hi.idle)⟩
  · simp only [List.mem_cons, hmem, hi.live_iff]
    by_cases hx : x = t
    · simp [hx]
    · simp [hx]
  · rcases (hmem k x).mp hx with ⟨rfl, rfl⟩ | hx
    · exact hfits
    · have hne : x ≠ t := fun heq => hout k (heq ▸ hx)
      simp only [Sys.withThreads, hsame x hne]
      exact hi.fits k x hx

/-- The list operations of `kcreate_thread`. -/
theorem queues_made {l : Links (Head ⊕ ℕ)} (hq : Queues l q) (hout : ∀ k, t ∉ q k)
    (hnone : q (.waiter (.ofThread t)) = []) (h : Head) :
    Queues (((l.selfLoop (.inr t)).selfLoop (.inl (.waiter (.ofThread t)))).insertBefore (.inl h) (.inr t))
      (Function.update q h (q h ++ [t])) := by
  have hself := hq.selfLoop hout
  -- nobody waits for the new thread, so its list of waiters is as `list_init` leaves it
  have hring := hself.ring (.waiter (.ofThread t))
  rw [hnone] at hring
  rw [selfLoop_eq_self hring.seg.1 hring.seg.2]
  exact hself.pushBack hout

theorem Inv.kcreateThread (hi : Inv s q) (ht : t ∉ s.live) (att : KthreadAtt)
    (hnone : s.lists.next (.inl (.waiter (.ofThread t))) = .inl (.waiter (.ofThread t))) :
    ∃ q', Inv { s.withThreads (s.toThreads.kcreateThread t att) with live := t :: s.live } q' ∧
      ∀ x k, x ∈ q k → x ∈ q' k := by
  have hout : ∀ k, t ∉ q k := fun k hk => ht ((hi.live_iff t).mpr ⟨k, hk⟩)
  have hpush := queues_made hi.queues hout (hi.queues.next_head_eq_iff.mp hnone)
  have hsame : ∀ x, x ≠ t → Function.update s.kthread t ⟨att.priority, .running⟩ x = s.kthread x :=
    fun x hx => Function.update_of_ne hx _ _
  have hstays : ∀ h x k, x ∈ q k → x ∈ Function.update q h (q h ++ [t]) k := by
    intro h x k hx
    rw [Function.update_apply]
    split_ifs with hk
    · exact List.mem_append_left _ (hk ▸ hx)
    · exact hx
  have hfits : (Function.update s.kthread t ⟨att.priority, .running⟩ t).priority = att.priority := by
    rw [Function.update_self]
  rw [Threads.kcreateThread]
  cases att.state with
  | running => exact ⟨_, hi.make ht (hpush (.runQueue att.priority)) hsame hfits, hstays _⟩
  | sleeping => exact ⟨_, hi.make ht (hpush (.waitQueue att.priority)) hsame hfits, hstays _⟩
  | stoped => exact ⟨_, hi.make ht (hpush (.waitQueue att.priority)) hsame hfits, hstays _⟩
  | suspend => exact ⟨_, hi.make ht (hpush (.waitQueue att.priority)) hsame hfits, hstays _⟩

/-- A thread shuts down. -/
theorem Inv.leave (hi : Inv s q) (ht : s.current ∈ s.live) (hidle : s.current ≠ s.idle) :
    Inv { s.withThreads (s.toThreads.del s.current) with live := s.live.filter (· ≠ s.current) }
      (fun h => (q h).erase s.current) := by
  obtain ⟨k, hk⟩ := (hi.live_iff _).mp ht
  have hmem : ∀ h x, x ∈ (q h).erase s.current ↔ x ≠ s.current ∧ x ∈ q h := fun h x =>
    (hi.queues.nodup h).mem_erase_iff
  refine ⟨hi.queues.unlink hk, fun x => ?_, fun h x hx => hi.fits h x ((hmem h x).mp hx).2, ?_⟩
  · simp only [List.mem_filter, decide_eq_true_eq, hmem, hi.live_iff, exists_and_left]
    exact and_comm
  · exact (hmem _ _).mpr ⟨Ne.symm hidle, hi.idle⟩

/-- `current` goes to the end of a list, and `schedule` is called. -/
theorem Inv.moveThenSchedule (hi : Inv s q) (ht : t ∈ s.live) (hlists : r.lists = s.lists)
    (hsame : ∀ x, x ≠ t → r.kthread x = s.kthread x) (hfits : Fits (r.kthread t) h)
    (hidle : t = s.idle → h = .runQueue 0) :
    ∃ r' q', ((r.del t).addTail h t).schedule = some r' ∧ Inv (s.withThreads r') q' ∧
      Moves q s.current q' r'.current (· = t) :=
  have ⟨hback, hstays⟩ := hi.moveBack ht hlists hsame hfits hidle
  hback.thenSchedule hstays

theorem Inv.ksleep (hi : Inv s q) (ms : ℤ) (registered : Bool) (ht : s.current ∈ s.live)
    (hidle : 0 < ms → s.current ≠ s.idle) :
    ∃ r q', s.toThreads.ksleep ms registered = some r ∧ Inv (s.withThreads r) q' ∧
      Moves q s.current q' r.current (· = s.current) := by
  rw [Threads.ksleep]
  split_ifs with hzero hneg hreg
  · refine hi.moveThenSchedule ht rfl (fun x _ => rfl) rfl fun heq => ?_
    rw [heq, hi.idle_priority]
  · exact ⟨_, _, rfl, hi, .refl _ _ _⟩
  · have hne := hidle (by omega)
    exact hi.moveThenSchedule (r := s.toThreads.setState s.current .sleeping) ht rfl
      (fun x hx => setState_of_ne _ hx) (Threads.setState_priority _ _) fun heq => absurd heq hne
  · exact ⟨_, _, rfl, hi, .refl _ _ _⟩

theorem Inv.ptWaitOn (hi : Inv s q) (wq : WaitQueueHead) (ht : s.current ∈ s.live) (hidle : s.current ≠ s.idle) :
    ∃ r q', s.toThreads.ptWaitOn wq = some r ∧ Inv (s.withThreads r) q' ∧
      Moves q s.current q' r.current (· = s.current) :=
  hi.moveThenSchedule (r := s.toThreads.setState s.current .sleeping) ht rfl (fun _ hx => setState_of_ne _ hx) trivial
    fun heq => absurd heq hidle

/-- The state of a thread does not matter to the lists. -/
theorem Inv.setState (hi : Inv (s.withThreads r) q) (state : KthreadState) :
    Inv (s.withThreads (r.setState t state)) q := by
  refine ⟨hi.queues, hi.live_iff, fun h x hx => ?_, hi.idle⟩
  have hfits := hi.fits h x hx
  cases h with
  | runQueue i => exact (Threads.setState_priority _ _).trans hfits
  | waitQueue i => exact (Threads.setState_priority _ _).trans hfits
  | waiter wq => trivial

theorem Inv.kwaitPid (hi : Inv s q) (wq : WaitQueueHead) (ms : ℤ) (registered : Bool) (ht : s.current ∈ s.live)
    (hidle : s.current ≠ s.idle) :
    ∃ r q', s.toThreads.kwaitPid wq ms registered = some r ∧ Inv (s.withThreads r) q' ∧
      Moves q s.current q' r.current (· = s.current) := by
  rw [Threads.kwaitPid]
  split_ifs with hforever hzero hreg
  · have ⟨hfront, hstays⟩ := hi.moveFront (r := s.toThreads) (h := .waiter wq) ht rfl (fun x _ => rfl) trivial
      fun heq => absurd heq hidle
    exact (hfront.setState .sleeping).thenSchedule hstays
  · exact ⟨_, _, rfl, hi, .refl _ _ _⟩
  · have ⟨hback, hstays⟩ := hi.moveBack (r := s.toThreads) (h := .waiter wq) ht rfl (fun x _ => rfl) trivial
      fun heq => absurd heq hidle
    exact (hback.setState .sleeping).thenSchedule hstays
  · have ⟨hback, hstays⟩ := hi.moveBack (r := s.toThreads) (h := .waiter wq) ht rfl (fun x _ => rfl) trivial
      fun heq => absurd heq hidle
    exact ⟨_, _, rfl, hback.setState .sleeping, hstays, .inl rfl⟩

/-- The threads that a call may move. -/
def Call.Moved (s : Sys) (q : Head → List ℕ) : Call → ℕ → Prop
  | .kcreateThread t _, x => x = t
  | .schedule, _ => False
  | .ksleep _ _, x => x = s.current
  | .ptWaitOn _, x => x = s.current
  | .kwaitPid _ _ _, x => x = s.current
  | .ioWait _, x => x = s.current
  | .ptWakeup t, x => x = t
  | .wakeupWaiters wq, x => x ∈ q (.waiter wq)
  | .leave, x => x = s.current

/-- Every call that is allowed returns, keeps the invariant, and moves no others. -/
theorem Inv.call (hi : Inv s q) {c : Call} (hok : s.Allowed c) :
    ∃ s' q', s.call c = some s' ∧ Inv s' q' ∧ Moves q s.current q' s'.current (c.Moved s q) := by
  have hmap : ∀ {o : Option Threads} {moved : ℕ → Prop}, (∃ r q', o = some r ∧ Inv (s.withThreads r) q' ∧
      Moves q s.current q' r.current moved) → ∃ s' q', o.map s.withThreads = some s' ∧ Inv s' q' ∧
        Moves q s.current q' s'.current moved := by
    rintro o moved ⟨r, q', rfl, hr, hmoves⟩
    exact ⟨_, q', rfl, hr, hmoves⟩
  cases c with
  | kcreateThread t att =>
      obtain ⟨q', hq', hstays⟩ := hi.kcreateThread hok.1 att hok.2
      exact ⟨_, q', rfl, hq', fun x _ => hstays x, .inl (Threads.kcreateThread_current att)⟩
  | schedule =>
      obtain ⟨r, q', hcall, hr, hmem, hgoes⟩ := hi.schedule
      exact hmap ⟨r, q', hcall, hr, fun x _ h => (hmem h x).mpr, .inr hgoes⟩
  | ksleep ms registered => exact hmap (hi.ksleep ms registered hok.1 hok.2)
  | ptWaitOn wq => exact hmap (hi.ptWaitOn wq hok.1 hok.2)
  | kwaitPid wq ms registered => exact hmap (hi.kwaitPid wq ms registered hok.1 hok.2)
  | ioWait wq =>
      have ⟨hback, hstays⟩ := hi.moveBack (r := s.toThreads) (h := .waiter wq) hok.1 rfl (fun x _ => rfl) trivial
        fun heq => absurd heq hok.2
      exact ⟨_, _, rfl, hback, hstays, .inl rfl⟩
  | ptWakeup t =>
      obtain ⟨q', hq', hstays⟩ := hi.ptWakeup hok
      exact ⟨_, q', rfl, hq', hstays, .inl rfl⟩
  | wakeupWaiters wq =>
      obtain ⟨r, hcall, hcur, -, hr⟩ := hi.wakeupWaiters wq
      exact hmap ⟨r, _, hcall, hr, fun x hx h => mem_woken hx, .inl hcur⟩
  | leave =>
      exact ⟨_, _, rfl, hi.leave hok.1 hok.2, fun x hx h => (List.mem_erase_of_ne hx).mpr, .inl rfl⟩

/-! ## Runs -/

section

variable {l : Links (Head ⊕ ℕ)} {kthread : ℕ → Kthread} {idle : ℕ}

theorem inv_start (l : Links (Head ⊕ ℕ)) (kthread : ℕ → Kthread) (idle : ℕ) :
    Inv (Sys.start l kthread idle) (Function.update (fun _ => []) (.runQueue 0) [idle]) := by
  have hempty : Queues (l := ⟨Sum.elim .inl fun t => l.prev (.inr t), Sum.elim .inl fun t => l.next (.inr t)⟩)
      (fun _ : Head => ([] : List ℕ)) := ⟨fun h => .of_selfLoop rfl rfl, fun h k m hm => by cases hm⟩
  have hmem : ∀ h x, x ∈ Function.update (fun _ : Head => ([] : List ℕ)) (.runQueue 0) [idle] h ↔
      x = idle ∧ h = .runQueue 0 := by
    intro h x
    rw [Function.update_apply]
    split_ifs with hh
    · simp [hh]
    · simp [hh]
  refine ⟨queues_made hempty (by simp) rfl (.runQueue 0), fun x => ?_, fun h x hx => ?_, (hmem _ _).mpr ⟨rfl, rfl⟩⟩
  · simp only [hmem, exists_and_left, exists_eq, and_true]
    exact List.mem_singleton
  · obtain ⟨rfl, rfl⟩ := (hmem h x).mp hx
    simp [Sys.start, Threads.kcreateThread, Threads.addTail, Fits]

theorem inv_of_reach (hs : Reach Sys.call Sys.Allowed (Sys.start l kthread idle) s) : ∃ q, Inv s q := by
  let Good (s : Sys) : Prop := ∃ q, Inv s q
  have hgood : Good s := hs.invariant ⟨_, inv_start l kthread idle⟩ fun s c t hi hok hcall => by
    obtain ⟨q, hi⟩ := hi
    obtain ⟨s', q', hs', hi', -⟩ := hi.call hok
    obtain rfl := Option.some.inj (hs'.symm.trans hcall)
    exact ⟨q', hi'⟩
  exact hgood

/-- The idle thread alone. -/
def onlyIdle : Sys := .start ⟨id, id⟩ (fun _ => ⟨0, .running⟩) 4096

def idleQueues : Head → List ℕ := Function.update (fun _ => []) (.runQueue 0) [4096]

theorem inv_onlyIdle : Inv onlyIdle idleQueues := inv_start _ _ _

/-- A call of `schedule` while `i` is the highest run queue that is not empty. -/
theorem Inv.schedule_top (hi : Inv s q) {i : Fin maxPriority} (hne : q (.runQueue i) ≠ [])
    (hup : ∀ j, i < j → q (.runQueue j) = []) :
    ∃ s', s.call .schedule = some s' ∧ (q (.runQueue i)).head? = some s'.current ∧
      Inv s' (Function.update q (.runQueue i) ((q (.runQueue i)).rotate 1)) := by
  obtain ⟨k, x, xs, l', hx, hup', hcall, hq⟩ := Threads.schedule_queues hi.queues hi.low
  obtain rfl : k = i := by
    rcases Nat.lt_trichotomy k i with hlt | heq | hgt
    · exact absurd (hup' i hlt) hne
    · exact Fin.ext heq
    · rw [hup k hgt] at hx
      cases hx
  have hrot : xs ++ [x] = (q (.runQueue k)).rotate 1 := by rw [hx, List.rotate_cons_succ, List.rotate_zero]
  rw [hrot] at hq
  refine ⟨s.withThreads { s.toThreads with lists := l', current := x }, by rw [Sys.call, hcall]; rfl, by rw [hx]; rfl,
    hi.reorder hq (fun h y => ?_) rfl⟩
  rw [Function.update_apply]
  split_ifs with hh
  · rw [hh, List.mem_rotate]
  · rfl

/-- A call that wakes the thread `t` on the list `h`. -/
def Call.Wakes (h : Head) (t : ℕ) : Call → Prop
  | .ptWakeup x => x = t
  | .wakeupWaiters wq => h = .waiter wq
  | _ => False

/-- One call leaves a thread asleep. -/
theorem Inv.asleep (hi : Inv s q) (ht : t ∈ q h) (hrun : ∀ i, h ≠ .runQueue i) (hcur : t ≠ s.current) {c : Call}
    (hok : s.Allowed c) (hwake : ¬c.Wakes h t) :
    ∃ s' q', s.call c = some s' ∧ Inv s' q' ∧ t ∈ q' h ∧ t ≠ s'.current := by
  obtain ⟨s', q', hcall, hi', hmoves⟩ := hi.call hok
  have hmoved : ¬c.Moved s q t := by
    intro hm
    cases c with
    | kcreateThread x att => exact hok.1 (hm ▸ (hi.live_iff t).mpr ⟨h, ht⟩)
    | schedule => exact hm
    | ptWakeup x => exact hwake hm.symm
    | wakeupWaiters wq => exact hwake (hi.queues.apart h _ t ht hm)
    | ksleep ms registered => exact hcur hm
    | ptWaitOn wq => exact hcur hm
    | kwaitPid wq ms registered => exact hcur hm
    | ioWait wq => exact hcur hm
    | leave => exact hcur hm
  have ht' := hmoves.stays t hmoved h ht
  refine ⟨s', q', hcall, hi', ht', fun heq => ?_⟩
  rcases hmoves.goes with hsame | ⟨i, hgoes⟩
  · exact hcur (heq.trans hsame)
  · exact hrun i (hi'.queues.apart h _ t ht' (heq ▸ hgoes))

/-- A thread that has gone to sleep or waits stays on its list, and does not run, whatever the other threads do, up to a
wake-up that is meant for it. -/
theorem asleep_until_woken (hs : Reach Sys.call Sys.Allowed (Sys.start l kthread idle) s) (hq : Queues s.lists q)
    (ht : t ∈ q h) (hrun : ∀ i, h ≠ .runQueue i) (hcur : t ≠ s.current) {cs : List Call}
    (hok : AllCalls Sys.call (fun s c => s.Allowed c ∧ ¬c.Wakes h t) s cs) :
    ∃ s' q', runCalls Sys.call s cs = some s' ∧ Queues s'.lists q' ∧ t ∈ q' h ∧ t ≠ s'.current := by
  obtain ⟨q', hi⟩ := inv_of_reach hs
  obtain rfl := hi.queues.unique hq
  clear hs hq
  induction cs generalizing s q' with
  | nil => exact ⟨s, q', rfl, hi.queues, ht, hcur⟩
  | cons c cs ih =>
      obtain ⟨⟨hallowed, hwake⟩, hrest⟩ := hok
      obtain ⟨s₁, q₁, hcall, hi₁, ht₁, hcur₁⟩ := hi.asleep ht hrun hcur hallowed hwake
      obtain ⟨s', q'', hrun', hrest'⟩ := ih hcur₁ (hrest s₁ hcall) q₁ hi₁ ht₁
      refine ⟨s', q'', ?_, hrest'⟩
      rw [runCalls, hcall, Option.bind_some]
      exact hrun'

theorem asleep_until_woken_made : ∃ s q s' q', onlyIdle.call (.kcreateThread 8192 ⟨1, .sleeping⟩) = some s ∧
    Queues s.lists q ∧ 8192 ∈ q (.waitQueue 1) ∧ runCalls Sys.call s [.schedule, .wakeupWaiters (.other 0)] = some s' ∧
      Queues s'.lists q' ∧ 8192 ∈ q' (.waitQueue 1) ∧ 8192 ≠ s'.current := by
  have hnone : idleQueues (.waiter (.ofThread 8192)) = [] := by simp [idleQueues]
  have hallowed : onlyIdle.Allowed (.kcreateThread 8192 ⟨1, .sleeping⟩) :=
    ⟨by decide, inv_onlyIdle.queues.next_head_eq_iff.mpr hnone⟩
  have hout : ∀ k, 8192 ∉ idleQueues k := by
    intro k
    rw [idleQueues, Function.update_apply]
    split_ifs <;> simp
  have hq := queues_made inv_onlyIdle.queues hout hnone (.waitQueue 1)
  have ht : 8192 ∈ Function.update idleQueues (.waitQueue 1) (idleQueues (.waitQueue 1) ++ [8192]) (.waitQueue 1) := by
    simp
  have hok : ∀ s : Sys, AllCalls Sys.call (fun s c => s.Allowed c ∧ ¬c.Wakes (.waitQueue 1) 8192) s
      [.schedule, .wakeupWaiters (.other 0)] :=
    fun s => ⟨⟨trivial, id⟩, fun _ _ => ⟨⟨trivial, fun h => by cases h⟩, fun _ _ => trivial⟩⟩
  obtain ⟨s', q', hrun, hrest⟩ := asleep_until_woken (.call .start hallowed rfl) hq ht (fun i h => by cases h)
    (by decide) (hok _)
  exact ⟨_, _, s', q', rfl, hq, ht, hrun, hrest⟩

end

end Shaunos.Sched
