import Mathlib.Data.Int.Notation
import Shaunos.Common.RingLists
import Shaunos.Common.Run

/-!
# The lists of threads

Reference: `Kernel/kthread.c` (`init_thread`, `kcreate_thread`, `schedule`, `pt_wakeup`, `wakeup_waiters`, `ksleep`,
`kwait_pid`), `Include/kernel/kthread.h` (`pt_wait_on`), `Kernel/io_dev.c` (`io_wait`), `Include/list.h`.

A thread is the address of its `kthread_u_t`, and its `thread_list` links it into one list. A function that
takes the head of a list for a thread returns nothing. Every function is modelled up to where `schedule`
has switched to another thread.

* `schedule_queues` — `schedule` goes on with the first thread of the highest run queue that is not empty;
* `wakeupWaiters_queues` — `wakeup_waiters` makes all waiters runnable, the last of them first.
-/

namespace Shaunos.Sched

open Links

/-! ## The code -/

/-- `MAX_PRIORITY`. -/
abbrev maxPriority : ℕ := 5

/-- A `wait_queue_head_t`: `wq` of a thread, or one that lies in a process, a socket or elsewhere. -/
inductive WaitQueueHead where
  | ofThread (t : ℕ)
  | other (wq : ℕ)
  deriving DecidableEq

/-- The heads of the lists: `run_queue[i]`, `wait_queue[i]`, and `waiter` of a wait queue. -/
inductive Head where
  | runQueue (i : Fin maxPriority)
  | waitQueue (i : Fin maxPriority)
  | waiter (wq : WaitQueueHead)
  deriving DecidableEq

/-- `kthread_state_t`. -/
inductive KthreadState where
  | running
  | sleeping
  | stoped
  | suspend
  deriving DecidableEq

/-- `kthread_t`. `kcreate_thread` does not check the priority; its callers pass one below `MAX_PRIORITY`. -/
structure Kthread where
  priority : Fin maxPriority
  state : KthreadState

/-- `kthread_att_t`. -/
structure KthreadAtt where
  priority : Fin maxPriority
  state : KthreadState

/-- The threads, the lists they are on, and `current`. -/
structure Threads where
  lists : Links (Head ⊕ ℕ)
  kthread : ℕ → Kthread
  current : ℕ

/-- The loop of `schedule` from the priority `i` down: the first list that is not empty, or that of priority 0. -/
def topQueue (l : Links (Head ⊕ ℕ)) : (i : ℕ) → i < maxPriority → Fin maxPriority
  | 0, h => ⟨0, h⟩
  | i + 1, h =>
      if l.next (.inl (.runQueue ⟨i + 1, h⟩)) = .inl (.runQueue ⟨i + 1, h⟩) then topQueue l i (Nat.lt_of_succ_lt h)
      else ⟨i + 1, h⟩

namespace Threads

/-- `t->state = state`. -/
def setState (s : Threads) (t : ℕ) (state : KthreadState) : Threads :=
  { s with kthread := Function.update s.kthread t { s.kthread t with state := state } }

/-- `list_del(&t->thread_list)`. -/
def del (s : Threads) (t : ℕ) : Threads := { s with lists := s.lists.unlink (.inr t) }

/-- `list_add(head, &t->thread_list)`. -/
def add (s : Threads) (head : Head) (t : ℕ) : Threads :=
  { s with lists := s.lists.insertAfter (.inl head) (.inr t) }

/-- `list_add_tail(head, &t->thread_list)`. -/
def addTail (s : Threads) (head : Head) (t : ℕ) : Threads :=
  { s with lists := s.lists.insertBefore (.inl head) (.inr t) }

/-- `schedule`. -/
def schedule (s : Threads) : Option Threads :=
  let i := topQueue s.lists (maxPriority - 1) (by decide)
  match s.lists.next (.inl (.runQueue i)) with
  | .inl _ => none
  | .inr next => some { (s.del next).addTail (.runQueue i) next with current := next }

/-- `init_thread` in a zeroed page, and the part of `kcreate_thread` behind it. -/
def kcreateThread (s : Threads) (t : ℕ) (att : KthreadAtt) : Threads :=
  let s := { s with
    kthread := Function.update s.kthread t { priority := att.priority, state := .running }
    lists := (s.lists.selfLoop (.inr t)).selfLoop (.inl (.waiter (.ofThread t))) }
  match att.state with
  | .suspend => s.addTail (.waitQueue att.priority) t
  | .stoped => s.addTail (.waitQueue att.priority) t
  | .sleeping => s.addTail (.waitQueue att.priority) t
  | .running => s.addTail (.runQueue att.priority) t

/-- `pt_wakeup`, and `pt_timer_callback`. -/
def ptWakeup (s : Threads) (t : ℕ) : Threads :=
  let s := s.setState t .running
  (s.del t).add (.runQueue (s.kthread t).priority) t

/-- The loop of `wakeup_waiters`. -/
def wakeupLoop (head : Head) : (fuel : ℕ) → (pos n : Head ⊕ ℕ) → Threads → Option Threads
  | 0, _, _, _ => none
  | fuel + 1, pos, n, s =>
      if pos = .inl head then some s
      else
        match pos with
        | .inl _ => none
        | .inr t =>
            let s := s.ptWakeup t
            wakeupLoop head fuel n (s.lists.next n) s

/-- `wakeup_waiters`. -/
def wakeupWaiters (s : Threads) (wq : WaitQueueHead) (fuel : ℕ) : Option Threads :=
  let head := Head.waiter wq
  if s.lists.next (.inl head) = .inl head then some s
  else
    let pos := s.lists.next (.inl head)
    wakeupLoop head fuel pos (s.lists.next pos) s

/-- `ksleep`. `registered` tells whether `register_timer` succeeds. -/
def ksleep (s : Threads) (ms : ℤ) (registered : Bool) : Option Threads :=
  let priority := (s.kthread s.current).priority
  if ms = 0 then ((s.del s.current).addTail (.runQueue priority) s.current).schedule
  else if ms < 0 then some s
  else if registered then
    let s := s.setState s.current .sleeping
    ((s.del s.current).addTail (.waitQueue priority) s.current).schedule
  else some s

/-- `pt_wait_on`. -/
def ptWaitOn (s : Threads) (wq : WaitQueueHead) : Option Threads :=
  let s := s.setState s.current .sleeping
  ((s.del s.current).addTail (.waiter wq) s.current).schedule

/-- `kwait_pid` for a process whose `p_wq` is `wq`. -/
def kwaitPid (s : Threads) (wq : WaitQueueHead) (ms : ℤ) (registered : Bool) : Option Threads :=
  if ms = -1 then
    (((s.del s.current).add (.waiter wq) s.current).setState s.current .sleeping).schedule
  else if ms = 0 then some s
  else
    let s := ((s.del s.current).addTail (.waiter wq) s.current).setState s.current .sleeping
    -- without a timer the function returns `-ENOBUFS`, and the thread stays on the list
    if registered then s.schedule else some s

/-- The part of `io_wait` before `schedule`. -/
def ioWait (s : Threads) (wq : WaitQueueHead) : Threads := (s.del s.current).addTail (.waiter wq) s.current

end Threads

/-! ## The queues -/

section

variable {s : Threads} {q : Head → List ℕ} {h k : Head} {t : ℕ}

/-- A thread goes to the front of a list. -/
def toFront (q : Head → List ℕ) (h : Head) (t : ℕ) : Head → List ℕ :=
  Function.update (fun k => (q k).erase t) h (t :: (q h).erase t)

/-- A thread goes to the end of a list. -/
def toBack (q : Head → List ℕ) (h : Head) (t : ℕ) : Head → List ℕ :=
  Function.update (fun k => (q k).erase t) h ((q h).erase t ++ [t])

/-- The threads `ts` leave the list `h`, and each goes to the front of its run queue. -/
def woken (priority : ℕ → Fin maxPriority) (q : Head → List ℕ) (h : Head) (ts : List ℕ) : Head → List ℕ
  | .runQueue i => (ts.filter fun t => priority t = i).reverse ++ q (.runQueue i)
  | k => if k = h then [] else q k

namespace Threads

theorem del_add (hq : Queues s.lists q) (ht : t ∈ q k) : Queues ((s.del t).add h t).lists (toFront q h t) :=
  hq.moveFront ht

theorem del_addTail (hq : Queues s.lists q) (ht : t ∈ q k) : Queues ((s.del t).addTail h t).lists (toBack q h t) :=
  hq.moveBack ht

@[simp] theorem setState_lists (state : KthreadState) : (s.setState t state).lists = s.lists := rfl

@[simp] theorem setState_priority (state : KthreadState) (x : ℕ) :
    ((s.setState t state).kthread x).priority = (s.kthread x).priority := by
  simp only [setState, Function.update_apply]
  split_ifs with hx
  · rw [hx]
  · rfl

@[simp] theorem kcreateThread_current (att : KthreadAtt) : (s.kcreateThread t att).current = s.current := by
  rw [kcreateThread]
  cases att.state <;> rfl

theorem topQueue_queues {l : Links (Head ⊕ ℕ)} (hq : Queues l q) (hlow : q (.runQueue 0) ≠ []) (i : ℕ)
    (hi : i < maxPriority) : q (.runQueue (topQueue l i hi)) ≠ [] ∧
      ∀ j : Fin maxPriority, topQueue l i hi < j → j ≤ i → q (.runQueue j) = [] := by
  induction i with
  | zero => exact ⟨hlow, fun j hj hle => absurd (Fin.lt_def.mp hj) (by simp [topQueue]; omega)⟩
  | succ i ih =>
      rw [topQueue]
      by_cases hnext : l.next (.inl (.runQueue ⟨i + 1, hi⟩)) = .inl (.runQueue ⟨i + 1, hi⟩)
      · rw [if_pos hnext]
        have ⟨hne, hup⟩ := ih (Nat.lt_of_succ_lt hi)
        refine ⟨hne, fun j hj hle => ?_⟩
        rcases Nat.le_succ_iff.mp hle with hle | hle
        · exact hup j hj hle
        · have hj' : j = ⟨i + 1, hi⟩ := Fin.ext hle
          rw [hj']
          exact hq.next_head_eq_iff.mp hnext
      · rw [if_neg hnext]
        refine ⟨fun hnil => hnext (hq.next_head_eq_iff.mpr hnil), fun j hj hle => ?_⟩
        exact absurd (Fin.lt_def.mp hj) (by simpa using hle)

/-- The first thread of the highest run queue goes on, and goes to the end of that queue. -/
theorem schedule_queues (hq : Queues s.lists q) (hlow : q (.runQueue 0) ≠ []) :
    ∃ i x xs l', q (.runQueue i) = x :: xs ∧ (∀ j, i < j → q (.runQueue j) = []) ∧
      s.schedule = some { s with lists := l', current := x } ∧
      Queues l' (Function.update q (.runQueue i) (xs ++ [x])) := by
  have ⟨hne, hup⟩ := topQueue_queues hq hlow (maxPriority - 1) (by decide)
  rw [schedule]
  generalize topQueue s.lists (maxPriority - 1) _ = i at *
  obtain ⟨x, xs, hx⟩ := List.exists_cons_of_ne_nil hne
  have hnext : s.lists.next (.inl (.runQueue i)) = .inr x := by rw [hq.next_head, hx]; rfl
  have hmem : x ∈ q (.runQueue i) := by rw [hx]; exact List.mem_cons_self
  have hmoved := del_addTail (h := .runQueue i) hq hmem
  have hother : toBack q (.runQueue i) x = Function.update q (.runQueue i) (xs ++ [x]) := by
    funext h
    rw [toBack, Function.update_apply, Function.update_apply]
    split_ifs with hh
    · rw [hx, List.erase_cons_head]
    · exact List.erase_of_not_mem fun hxh => hh (hq.apart h _ x hxh hmem)
  rw [hother] at hmoved
  refine ⟨i, x, xs, _, hx, fun j hj => hup j hj (by omega), ?_, hmoved⟩
  simp only [hnext]
  rfl

theorem ptWakeup_queues (hq : Queues s.lists q) (ht : t ∈ q k) :
    Queues (s.ptWakeup t).lists (toFront q (.runQueue (s.kthread t).priority) t) := by
  simp only [ptWakeup, setState_priority]
  exact del_add (s := s.setState t .running) hq ht

theorem ptWakeup_kthread (x : ℕ) :
    (s.ptWakeup t).kthread x = if x = t then { s.kthread t with state := .running } else s.kthread x := by
  simp only [ptWakeup, setState, del, add, Function.update_apply]

@[simp] theorem ptWakeup_priority (x : ℕ) : ((s.ptWakeup t).kthread x).priority = (s.kthread x).priority :=
  setState_priority .running x

end Threads

/-- The first waiter is woken. -/
theorem woken_cons {priority : ℕ → Fin maxPriority} {wq : WaitQueueHead} {ts : List ℕ}
    (hapart : ∀ h, t ∈ q h → h = .waiter wq) :
    woken priority (toFront q (.runQueue (priority t)) t) (.waiter wq) ts =
      woken priority q (.waiter wq) (t :: ts) := by
  have herase : ∀ h, h ≠ .waiter wq → (q h).erase t = q h :=
    fun h hh => List.erase_of_not_mem fun hx => hh (hapart h hx)
  funext h
  cases h with
  | runQueue i =>
      rw [woken, woken, toFront, List.filter_cons, Function.update_apply]
      by_cases hi : priority t = i
      · subst hi
        simp [herase]
      · have hne : Head.runQueue i ≠ .runQueue (priority t) := fun h => hi (Head.runQueue.inj h).symm
        simp [hi, hne, herase]
  | waitQueue i => simp [woken, toFront, herase]
  | waiter w =>
      by_cases hw : w = wq
      · simp [woken, hw]
      · simp [woken, hw, toFront, herase]

namespace Threads

/-- The loop of `wakeup_waiters` makes the waiters `ts` runnable. -/
theorem wakeupLoop_queues {wq : WaitQueueHead} {ts : List ℕ} (hq : Queues s.lists q) (hts : q (.waiter wq) = ts)
    {fuel : ℕ} (hfuel : ts.length < fuel) {pos : Head ⊕ ℕ} (hpos : pos = (ts.map .inr).headD (.inl (.waiter wq))) :
    ∃ l', wakeupLoop (.waiter wq) fuel pos (s.lists.next pos) s = some { s with
        lists := l'
        kthread := fun x => if x ∈ ts then { s.kthread x with state := .running } else s.kthread x } ∧
      Queues l' (woken (fun x => (s.kthread x).priority) q (.waiter wq) ts) := by
  induction ts generalizing s q fuel pos with
  | nil =>
      obtain ⟨fuel, rfl⟩ : ∃ n, fuel = n + 1 := ⟨fuel - 1, by simp at hfuel; omega⟩
      have hsame : woken (fun x => (s.kthread x).priority) q (.waiter wq) [] = q := by
        funext h
        cases h with
        | runQueue i => simp [woken]
        | waitQueue i => simp [woken]
        | waiter w =>
            by_cases hw : w = wq
            · subst hw
              simp [woken, hts]
            · simp [woken, hw]
      refine ⟨s.lists, ?_, by rwa [hsame]⟩
      rw [hpos, wakeupLoop.eq_def]
      simp
  | cons t ts ih =>
      obtain ⟨fuel, rfl⟩ : ∃ n, fuel = n + 1 := ⟨fuel - 1, by simp at hfuel; omega⟩
      have hmem : t ∈ q (.waiter wq) := by rw [hts]; exact List.mem_cons_self
      have hsplit : q (.waiter wq) = [] ++ t :: ts := hts
      have hnext : s.lists.next (.inr t) = (ts.map .inr).headD (.inl (.waiter wq)) := hq.next_member hsplit
      have hrest : toFront q (.runQueue (s.kthread t).priority) t (.waiter wq) = ts := by
        rw [toFront, Function.update_of_ne (by simp), hts, List.erase_cons_head]
      obtain ⟨l', hloop, hl'⟩ := ih (ptWakeup_queues hq hmem) hrest (Nat.lt_of_succ_lt_succ hfuel) rfl
      refine ⟨l', ?_, ?_⟩
      · subst hpos
        rw [wakeupLoop.eq_def]
        simp only [List.map_cons, List.headD_cons, reduceCtorEq, if_false]
        rw [hnext, hloop]
        congr 2
        funext x
        rw [ptWakeup_kthread]
        by_cases hx : x = t
        · subst hx
          simp
        · simp [hx]
      · have hapart : ∀ h, t ∈ q h → h = .waiter wq := fun h hh => hq.apart h _ t hh hmem
        have hsame : (fun x => ((s.ptWakeup t).kthread x).priority) = fun x => (s.kthread x).priority :=
          funext ptWakeup_priority
        rw [hsame] at hl'
        rwa [← woken_cons hapart]

theorem wakeupWaiters_queues {wq : WaitQueueHead} (hq : Queues s.lists q) {fuel : ℕ}
    (hfuel : (q (.waiter wq)).length < fuel) :
    ∃ l', s.wakeupWaiters wq fuel = some { s with
        lists := l'
        kthread := fun x => if x ∈ q (.waiter wq) then { s.kthread x with state := .running } else s.kthread x } ∧
      Queues l' (woken (fun x => (s.kthread x).priority) q (.waiter wq) (q (.waiter wq))) := by
  have ⟨l', hloop, hl'⟩ := wakeupLoop_queues hq rfl hfuel rfl
  refine ⟨l', ?_, hl'⟩
  rw [wakeupWaiters]
  split_ifs with hnil
  · obtain ⟨fuel, rfl⟩ : ∃ n, fuel = n + 1 := ⟨fuel - 1, by omega⟩
    rw [← hq.next_head, hnil, wakeupLoop.eq_def] at hloop
    simpa using hloop
  · rw [hq.next_head]
    exact hloop

end Threads

end

end Shaunos.Sched
