import Shaunos.Common.Run
import Shaunos.Kernel.IdRuns

/-!
# Timers

Reference: `Kernel/timer.c` (`timerisr`, `register_timer`, `unregister_timer`).

The timer thread goes through the list and can be preempted between any two of its reads and writes. Meanwhile
ticks are counted, and other threads, or the callback that the timer thread is in, register and unregister timers.
`expires` has 32 bits and `ticks` has 64. `unregister_timer` frees a timer without a look at where the timer
thread is; from then on its memory may change at any time.

* `timers_right` — the runs in which every callback comes when it should.
-/

namespace Shaunos.Timers

/-! ## The code -/

def flagEnabled : BitVec 32 := 1 <<< 0
def flagOneshut : BitVec 32 := 1 <<< 2
def flagPeriodic : BitVec 32 := 1 <<< 3

def eINVAL : ℤ := 22
def eNOBUFS : ℤ := 105

/-- A call of `register_timer` that made a timer, and how many ticks had come before. No code reads this. -/
structure Reg where
  no : ℕ
  timerId : ℤ
  type : BitVec 32
  expired : ℕ
  since : ℕ
  deriving DecidableEq

/-- `struct timer_list`, without its links. -/
structure TimerList where
  expires : BitVec 32
  interval : BitVec 32
  timerId : ℤ
  func : BitVec 32
  data : BitVec 32
  flag : BitVec 32
  /-- What the timer was made by. -/
  reg : Reg

/-- The address of a timer. -/
abbrev Ptr := BitVec 32

/-- Where the timer thread is in the body of the loop. -/
inductive Loc where
  /-- `t->flag & TIMER_FLAG_ENABLED` -/
  | enabled
  /-- `t->flag & TIMER_FLAG_ONESHUT` -/
  | oneShot
  /-- `t->expires <= (u32)ticks` -/
  | due
  /-- `if (t->func)` -/
  | hasFunc
  /-- `t->flag &= ~TIMER_FLAG_ENABLED` -/
  | disable
  /-- `t->func((void *)t->data)` -/
  | call
  | inCall
  /-- `t->flag & TIMER_FLAG_PERIODIC` -/
  | periodic
  /-- `t->expires <= (u32)ticks` -/
  | due2
  /-- `if (t->func)` -/
  | hasFunc2
  /-- `t->func((void *)t->data)` -/
  | call2
  | inCall2
  /-- `t->expires = ticks + t->interval` -/
  | rearm
  /-- `p = p->next` -/
  | advance
  deriving DecidableEq

/-- What was done, with the number of ticks before it. -/
inductive Event where
  | registered (r : Reg)
  | invoked (r : Reg) (time : ℕ)
  /-- `unregister_timer` returned 0. -/
  | unregistered (timerId : ℤ)
  deriving DecidableEq

/-- The timers and the timer thread. -/
structure State where
  ticks : BitVec 64
  idObj : Pid.KidObject
  /-- The timers from `timer_list_head` on. -/
  head : List Ptr
  mem : Ptr → TimerList
  /-- Where the timer thread is, and its `t`; or it is in `schedule`. -/
  thread : Option (Loc × Ptr)
  /-- The number of ticks so far. -/
  arrived : ℕ
  /-- The number of timers so far. -/
  made : ℕ
  /-- What was done, the last first. -/
  log : List Event

/-- `(u32)ticks`. -/
def State.now (s : State) : BitVec 32 := s.ticks.setWidth 32

/-- The timer thread goes on at another place of the body. -/
def State.goto (s : State) (loc : Loc) (p : Ptr) : State := { s with thread := some (loc, p) }

def State.set (s : State) (p : Ptr) (t : TimerList) : State := { s with mem := Function.update s.mem p t }

/-- The callback is called. -/
def State.invoke (s : State) (r : Reg) : State := { s with log := .invoked r s.arrived :: s.log }

/-- The timer behind another one in the list. -/
def next (p : Ptr) (l : List Ptr) : Option Ptr := (l.dropWhile (· ≠ p)).tail.head?

/-- One step of `timerisr`. The link of a timer that was freed is `wild`. -/
def timerisr (s : State) (wild : Option Ptr) : State :=
  match s.thread with
  | none => { s with thread := s.head.head?.map fun p => (.enabled, p) }
  | some (loc, p) =>
      let t := s.mem p
      match loc with
      | .enabled => s.goto (if t.flag &&& flagEnabled ≠ 0 then .oneShot else .advance) p
      | .oneShot => s.goto (if t.flag &&& flagOneshut ≠ 0 then .due else .periodic) p
      | .due => s.goto (if t.expires ≤ s.now then .hasFunc else .periodic) p
      | .hasFunc => s.goto (if t.func ≠ 0 then .disable else .periodic) p
      | .disable => (s.set p { t with flag := t.flag &&& ~~~flagEnabled }).goto .call p
      | .call => (s.invoke t.reg).goto .inCall p
      | .inCall => s.goto .periodic p
      | .periodic => s.goto (if t.flag &&& flagPeriodic ≠ 0 then .due2 else .advance) p
      | .due2 => s.goto (if t.expires ≤ s.now then .hasFunc2 else .advance) p
      | .hasFunc2 => s.goto (if t.func ≠ 0 then .call2 else .rearm) p
      | .call2 => (s.invoke t.reg).goto .inCall2 p
      | .inCall2 => s.goto .rearm p
      | .rearm =>
          (s.set p { t with expires := (s.ticks + t.interval.setWidth 64).setWidth 32 }).goto .advance p
      | .advance =>
          { s with thread := (if p ∈ s.head then next p s.head else wild).map fun q => (.enabled, q) }

/-- What `register_timer` takes: just one of the two kinds. -/
def Accepts (expired type : BitVec 32) : Prop :=
  0 ≤ expired.toInt ∧ type &&& (flagOneshut ||| flagPeriodic) ≠ 0 ∧
    type &&& (flagOneshut ||| flagPeriodic) ≠ flagOneshut ||| flagPeriodic

instance (expired type : BitVec 32) : Decidable (Accepts expired type) := inferInstanceAs (Decidable (_ ∧ _))

/-- `register_timer`, with the memory from `kzalloc`, and what `bsfl` leaves for a word without a set bit. -/
def registerTimer (zero : ℤ) (s : State) (expired type callback arg : BitVec 32) (mem : Option Ptr) :
    Option (ℤ × State) :=
  if ¬ Accepts expired type then some (-eINVAL, s)
  else match mem with
    | none => some (-eNOBUFS, s)
    | some p => (Pid.getUnusedIdFrom zero s.idObj).map fun (id, idObj) =>
        let r : Reg := ⟨s.made, id, type, expired.toNat, s.arrived⟩
        let t : TimerList :=
          { expires := (s.ticks + expired.signExtend 64).setWidth 32
            interval := if type &&& flagPeriodic ≠ 0 then expired else 0
            timerId := id
            func := callback
            data := arg
            flag := type
            reg := r }
        (id, { s with
          idObj
          head := s.head ++ [p]
          mem := Function.update s.mem p t
          made := s.made + 1
          log := .registered r :: s.log })

/-- `unregister_timer`. -/
def unregisterTimer (s : State) (timerId : ℤ) : ℤ × State :=
  if timerId < 0 then (-eINVAL, s)
  else match s.head.find? fun p => (s.mem p).timerId = timerId with
    | some p => (0, { s with
        head := s.head.erase p
        idObj := Pid.putId s.idObj timerId.toNat
        log := .unregistered timerId :: s.log })
    | none => (-eINVAL, s)

/-! ## Runs -/

/-- What can come next. -/
inductive Call where
  /-- `ticks++`, in `timer_handler`. -/
  | tick
  /-- The timer thread goes on. -/
  | thread (wild : Option Ptr)
  | registerTimer (expired type callback arg : BitVec 32) (mem : Option Ptr)
  | unregisterTimer (timerId : ℤ)
  /-- Memory that is not a timer's is written. -/
  | write (p : Ptr) (t : TimerList)

/-- One step. `kzalloc` returns memory that is not in use. -/
def State.step (zero : ℤ) (s : State) : Call → Option State
  | .tick => some { s with ticks := s.ticks + 1, arrived := s.arrived + 1 }
  | .thread wild => some (timerisr s wild)
  | .registerTimer expired type callback arg mem =>
      if mem.any (· ∈ s.head) then none
      else (registerTimer zero s expired type callback arg mem).map (·.2)
  | .unregisterTimer timerId => some (unregisterTimer s timerId).2
  | .write p t => if p ∈ s.head then none else some (s.set p t)

/-- The state behind `timer_init`, at some number of ticks. -/
def start (ticks : BitVec 64) (beyond : ℕ → BitVec 32) (mem : Ptr → TimerList) : State where
  ticks
  idObj := Pid.kernelIdMapInit 4096 beyond
  head := []
  mem
  thread := none
  arrived := 0
  made := 0
  log := []

/-! ## What should happen -/

def Reg.OneShot (r : Reg) : Prop := r.type &&& flagOneshut ≠ 0

def Reg.Periodic (r : Reg) : Prop := r.type &&& flagPeriodic ≠ 0

instance (r : Reg) : Decidable r.OneShot := inferInstanceAs (Decidable (_ ≠ _))

instance (r : Reg) : Decidable r.Periodic := inferInstanceAs (Decidable (_ ≠ _))

/-- When a timer was invoked, the last time first. -/
def times (r : Reg) (log : List Event) : List ℕ :=
  log.filterMap fun
    | .invoked r' t => if r' = r then some t else none
    | _ => none

/-- All callbacks came when they should. -/
structure LogRight (log : List Event) : Prop where
  /-- A one-shot timer is invoked once at most. -/
  once : ∀ r, .registered r ∈ log → r.OneShot → (times r log).length ≤ 1
  /-- It is not invoked too early. -/
  notEarly : ∀ r, .registered r ∈ log → r.OneShot → ∀ t ∈ times r log, r.since + r.expired ≤ t
  /-- A periodic timer is not invoked twice in one interval. -/
  apart : ∀ r, .registered r ∈ log → r.Periodic → (times r log).Pairwise fun t' t => t + r.expired ≤ t'
  /-- A timer that was unregistered is not invoked any more. -/
  gone : ∀ l id l', log = l ++ .unregistered id :: l' → ∀ r, .registered r ∈ l' → r.timerId = id → times r l = []

/-- When they do. A one-shot timer with a callback that is enabled is registered when 32 bits are enough for its
`expires`, and the same holds when a periodic timer with a callback is set again. No timer is unregistered while the
timer thread is at it, be it by its own callback. The search for an id does not start at a full word, unless
`__find_first_bit` returns -1 for it. -/
def Call.Ok (zero : ℤ) (s : State) : Call → Prop
  | .registerTimer expired type callback _ mem => Accepts expired type → mem ≠ none →
      (zero = -1 ∨ s.idObj.kidMap s.idObj.offset ≠ 0) ∧
        (type &&& flagOneshut ≠ 0 → type &&& flagEnabled ≠ 0 → callback ≠ 0 →
          s.now.toNat + expired.toNat < 2 ^ 32)
  | .unregisterTimer timerId => ∀ x ∈ s.thread, (s.mem x.2).timerId ≠ timerId
  | .thread _ => ∀ x ∈ s.thread, x.1 = .rearm → (s.mem x.2).func ≠ 0 →
      s.now.toNat + (s.mem x.2).interval.toNat < 2 ^ 32
  | _ => True

instance (zero : ℤ) (s : State) : ∀ c, Decidable (Call.Ok zero s c)
  | .tick | .write _ _ => isTrue trivial
  | .thread _ => inferInstanceAs (Decidable (∀ x ∈ s.thread, _))
  | .registerTimer _ _ _ _ _ => inferInstanceAs (Decidable (_ → _ → _ ∧ _))
  | .unregisterTimer _ => inferInstanceAs (Decidable (∀ x ∈ s.thread, _))

/-! ## The log -/

section

variable {r r' : Reg} {n : ℕ} {id : ℤ} {log : List Event}

@[simp] theorem times_registered : times r (.registered r' :: log) = times r log := rfl

@[simp] theorem times_unregistered : times r (.unregistered id :: log) = times r log := rfl

theorem times_invoked : times r (.invoked r' n :: log) = if r' = r then n :: times r log else times r log := by
  rw [times, List.filterMap_cons]
  dsimp only
  by_cases h : r' = r
  · rw [if_pos h, if_pos h]
    rfl
  · rw [if_neg h, if_neg h]
    rfl

@[simp] theorem times_invoked_self : times r (.invoked r n :: log) = n :: times r log := by
  rw [times_invoked, if_pos rfl]

theorem times_invoked_of_ne (h : r' ≠ r) : times r (.invoked r' n :: log) = times r log := by
  rw [times_invoked, if_neg h]

theorem mem_times {t : ℕ} : t ∈ times r log ↔ .invoked r t ∈ log := by
  induction log with
  | nil => exact iff_of_false List.not_mem_nil List.not_mem_nil
  | cons e log ih =>
      rw [List.mem_cons]
      cases e with
      | registered r' =>
          rw [times_registered, ih]
          exact (or_iff_right (by simp)).symm
      | unregistered id =>
          rw [times_unregistered, ih]
          exact (or_iff_right (by simp)).symm
      | invoked r' n =>
          by_cases h : r' = r
          · subst h
            rw [times_invoked_self, List.mem_cons, ih, Event.invoked.injEq, eq_self_iff_true, true_and]
          · rw [times_invoked_of_ne h, ih, or_iff_right]
            rintro heq
            exact h (Event.invoked.inj heq).1.symm

/-- Timers that were unregistered, with what was logged since. -/
def Gone (log l : List Event) (r : Reg) : Prop :=
  ∃ id l', log = l ++ .unregistered id :: l' ∧ .registered r ∈ l' ∧ r.timerId = id

theorem logRight_iff_gone : (∀ l id l', log = l ++ .unregistered id :: l' → ∀ r, .registered r ∈ l' →
    r.timerId = id → times r l = []) ↔ ∀ l r, Gone log l r → times r l = [] := by
  constructor
  · rintro h l r ⟨id, l', hlog, hmem, hid⟩
    exact h l id l' hlog r hmem hid
  · intro h l id l' hlog r hmem hid
    exact h l r ⟨id, l', hlog, hmem, hid⟩

theorem gone_cons {e : Event} {l : List Event} :
    Gone (e :: log) l r ↔ (l = [] ∧ e = .unregistered r.timerId ∧ .registered r ∈ log) ∨
      ∃ l₁, l = e :: l₁ ∧ Gone log l₁ r := by
  constructor
  · rintro ⟨id, l', hlog, hmem, rfl⟩
    cases l with
    | nil =>
        obtain ⟨rfl, rfl⟩ := List.cons.inj hlog
        exact .inl ⟨rfl, rfl, hmem⟩
    | cons e' l₁ =>
        obtain ⟨rfl, rfl⟩ := List.cons.inj hlog
        exact .inr ⟨l₁, rfl, _, l', rfl, hmem, rfl⟩
  · rintro (⟨rfl, rfl, hmem⟩ | ⟨l₁, rfl, id, l', rfl, hmem, hid⟩)
    · exact ⟨_, log, rfl, hmem, rfl⟩
    · exact ⟨id, l', rfl, hmem, hid⟩

/-- A callback that comes when it should. -/
theorem LogRight.invoke (h : LogRight log) (hone : r.OneShot → times r log = [] ∧ r.since + r.expired ≤ n)
    (hper : r.Periodic → ∀ u ∈ times r log, u + r.expired ≤ n) (hgone : ∀ l, ¬ Gone log l r) :
    LogRight (.invoked r n :: log) := by
  have hmem (r' : Reg) (hr' : .registered r' ∈ Event.invoked r n :: log) : .registered r' ∈ log :=
    (List.mem_cons.mp hr').resolve_left (by simp)
  refine ⟨fun r' hr' hkind => ?_, fun r' hr' hkind => ?_, fun r' hr' hkind => ?_, logRight_iff_gone.mpr ?_⟩
  · by_cases heq : r = r'
    · subst heq
      rw [times_invoked_self, (hone hkind).1, List.length_singleton]
    · rw [times_invoked_of_ne heq]
      exact h.once r' (hmem r' hr') hkind
  · by_cases heq : r = r'
    · subst heq
      rw [times_invoked_self, (hone hkind).1, List.forall_mem_singleton]
      exact (hone hkind).2
    · rw [times_invoked_of_ne heq]
      exact h.notEarly r' (hmem r' hr') hkind
  · by_cases heq : r = r'
    · subst heq
      rw [times_invoked_self, List.pairwise_cons]
      exact ⟨hper hkind, h.apart r (hmem r hr') hkind⟩
    · rw [times_invoked_of_ne heq]
      exact h.apart r' (hmem r' hr') hkind
  · intro l r' hgone'
    rcases gone_cons.mp hgone' with ⟨rfl, _⟩ | ⟨l₁, rfl, hold⟩
    · rfl
    · have hne : r ≠ r' := by
        rintro rfl
        exact hgone l₁ hold
      rw [times_invoked_of_ne hne]
      exact logRight_iff_gone.mp h.gone l₁ r' hold

/-- Nothing is invoked. -/
theorem LogRight.cons (h : LogRight log) {e : Event} (he : ∀ r l, times r (e :: l) = times r l)
    (hnew : ∀ r, e = .registered r → times r log = []) : LogRight (e :: log) := by
  refine ⟨fun r hr hkind => ?_, fun r hr hkind => ?_, fun r hr hkind => ?_, logRight_iff_gone.mpr ?_⟩
  · rw [he]
    rcases List.mem_cons.mp hr with rfl | hr
    · rw [hnew r rfl]
      exact Nat.zero_le _
    · exact h.once r hr hkind
  · rw [he]
    rcases List.mem_cons.mp hr with rfl | hr
    · rw [hnew r rfl]
      exact fun u hu => absurd hu List.not_mem_nil
    · exact h.notEarly r hr hkind
  · rw [he]
    rcases List.mem_cons.mp hr with rfl | hr
    · rw [hnew r rfl]
      exact List.Pairwise.nil
    · exact h.apart r hr hkind
  · intro l r hgone
    rcases gone_cons.mp hgone with ⟨rfl, _⟩ | ⟨l₁, rfl, hold⟩
    · rfl
    · rw [he]
      exact logRight_iff_gone.mp h.gone l₁ r hold

end

/-! ## Ticks -/

/-- `(u32)ticks` after so many ticks. -/
def nowAt (ticks : BitVec 64) (n : ℕ) : BitVec 32 := (ticks + BitVec.ofNat 64 n).setWidth 32

section

variable {ticks : BitVec 64} {a b d : ℕ} {x : BitVec 32}

theorem toNat_nowAt : (nowAt ticks a).toNat = (ticks.toNat + a) % 2 ^ 32 := by
  rw [nowAt, BitVec.toNat_setWidth, BitVec.toNat_add, BitVec.toNat_ofNat]
  omega

/-- A time that 32 bits are enough for is not found to be over too early. -/
theorem not_early (hfit : (nowAt ticks a).toNat + x.toNat < 2 ^ 32) (hle : a ≤ b)
    (hdue : nowAt ticks a + x ≤ nowAt ticks b) : a + x.toNat ≤ b := by
  rw [BitVec.le_def, BitVec.toNat_add, Nat.mod_eq_of_lt hfit] at hdue
  rw [toNat_nowAt] at hdue hfit
  rw [toNat_nowAt] at hdue
  omega

theorem setWidth_add_signExtend (y : BitVec 64) (x : BitVec 32) :
    (y + x.signExtend 64).setWidth 32 = y.setWidth 32 + x := by
  rw [BitVec.setWidth_add _ _ (by decide)]
  congr 1
  ext i hi
  rw [BitVec.getElem_setWidth, BitVec.getLsbD_signExtend, if_pos hi, BitVec.getLsbD_eq_getElem hi,
    decide_eq_true (show i < 64 by omega), Bool.true_and]

theorem setWidth_add_setWidth (y : BitVec 64) (x : BitVec 32) :
    (y + x.setWidth 64).setWidth 32 = y.setWidth 32 + x := by
  rw [BitVec.setWidth_add _ _ (by decide), BitVec.setWidth_setWidth_of_le _ (by decide), BitVec.setWidth_eq]

end

/-! ## What every step keeps -/

/-- A timer is as it was registered. -/
structure TimerOk (t₀ : BitVec 64) (arrived : ℕ) (us : List ℕ) (t : TimerList) : Prop where
  oneShot : t.flag &&& flagOneshut = t.reg.type &&& flagOneshut
  periodic : t.flag &&& flagPeriodic = t.reg.type &&& flagPeriodic
  kind : t.reg.OneShot → ¬ t.reg.Periodic
  since : t.reg.since ≤ arrived
  past : ∀ u ∈ us, u ≤ arrived
  noFunc : t.func = 0 → us = []
  fresh : t.reg.OneShot → t.flag &&& flagEnabled ≠ 0 → us = [] ∧
    (t.func ≠ 0 → ∃ x : BitVec 32, t.reg.expired = x.toNat ∧
      (nowAt t₀ t.reg.since).toNat + x.toNat < 2 ^ 32 ∧ t.expires = nowAt t₀ t.reg.since + x)
  interval : t.reg.Periodic → t.interval.toNat = t.reg.expired

/-- A periodic timer is set for a time that is late enough. -/
def Armed (t₀ : BitVec 64) (arrived : ℕ) (us : List ℕ) (t : TimerList) : Prop :=
  t.reg.Periodic → us = [] ∨
    ∃ a ≤ arrived, (∀ u ∈ us, u ≤ a) ∧ (nowAt t₀ a).toNat + t.interval.toNat < 2 ^ 32 ∧
      t.expires = nowAt t₀ a + t.interval

/-- What the timer thread knows of its timer. -/
def LocOk (arrived : ℕ) (us : List ℕ) (t : TimerList) : Loc → Prop
  | .enabled | .inCall | .periodic | .advance => True
  | .oneShot => t.flag &&& flagEnabled ≠ 0
  | .due => t.flag &&& flagEnabled ≠ 0 ∧ t.reg.OneShot
  | .hasFunc => t.flag &&& flagEnabled ≠ 0 ∧ t.reg.OneShot ∧
      (t.func ≠ 0 → t.reg.since + t.reg.expired ≤ arrived)
  | .disable => t.flag &&& flagEnabled ≠ 0 ∧ t.reg.OneShot ∧ t.func ≠ 0 ∧
      t.reg.since + t.reg.expired ≤ arrived
  | .call => t.flag &&& flagEnabled = 0 ∧ t.reg.OneShot ∧ t.func ≠ 0 ∧
      t.reg.since + t.reg.expired ≤ arrived ∧ us = []
  | .due2 | .inCall2 | .rearm => t.reg.Periodic
  | .hasFunc2 => t.reg.Periodic ∧ ∀ u ∈ us, u + t.reg.expired ≤ arrived
  | .call2 => t.reg.Periodic ∧ t.func ≠ 0 ∧ ∀ u ∈ us, u + t.reg.expired ≤ arrived

/-- The callback was called, and the timer is not set again yet. -/
def Loc.Behind (l : Loc) : Prop := l = .inCall2 ∨ l = .rearm

instance (l : Loc) : Decidable l.Behind := inferInstanceAs (Decidable (_ ∨ _))

/-- The list. -/
structure ListInv (s : State) : Prop where
  wf : s.idObj.WF 1024
  nodup : s.head.Nodup
  inj : ∀ p ∈ s.head, ∀ q ∈ s.head, (s.mem p).timerId = (s.mem q).timerId → p = q
  taken : ∀ p ∈ s.head, ∃ id : ℕ, (s.mem p).timerId = id ∧ ¬ Pid.IsFree s.idObj id
  thread : ∀ l p, s.thread = some (l, p) → p ∈ s.head

/-- The log. -/
structure LogInv (s : State) : Prop where
  logged : ∀ p ∈ s.head, .registered (s.mem p).reg ∈ s.log ∧ (s.mem p).reg.timerId = (s.mem p).timerId
  regs : ∀ r, .registered r ∈ s.log → r.no < s.made
  invoked : ∀ r n, .invoked r n ∈ s.log → r.no < s.made
  gone : ∀ l r, Gone s.log l r → ∀ p ∈ s.head, (s.mem p).reg ≠ r
  right : LogRight s.log

/-- The timers. -/
structure TimeInv (t₀ : BitVec 64) (s : State) : Prop where
  ticks : s.ticks = t₀ + BitVec.ofNat 64 s.arrived
  ok : ∀ p ∈ s.head, TimerOk t₀ s.arrived (times (s.mem p).reg s.log) (s.mem p)
  armed : ∀ p ∈ s.head, (∀ l, s.thread = some (l, p) → ¬ l.Behind) → Armed t₀ s.arrived (times (s.mem p).reg s.log) (s.mem p)
  loc : ∀ l p, s.thread = some (l, p) → LocOk s.arrived (times (s.mem p).reg s.log) (s.mem p) l

/-- The invariant of all runs. -/
structure Inv (t₀ : BitVec 64) (s : State) : Prop extends ListInv s, LogInv s, TimeInv t₀ s

section

variable {t₀ : BitVec 64} {n n' : ℕ} {us : List ℕ} {t : TimerList} {l : Loc}

theorem TimerOk.mono (h : TimerOk t₀ n us t) (hn : n ≤ n') : TimerOk t₀ n' us t :=
  { h with
    since := h.since.trans hn
    past := fun u hu => (h.past u hu).trans hn }

theorem Armed.mono (h : Armed t₀ n us t) (hn : n ≤ n') : Armed t₀ n' us t := by
  intro hkind
  rcases h hkind with hnone | ⟨a, ha, h⟩
  · exact .inl hnone
  · exact .inr ⟨a, ha.trans hn, h⟩

theorem LocOk.mono (h : LocOk n us t l) (hn : n ≤ n') : LocOk n' us t l := by
  cases l with
  | enabled | inCall | periodic | advance => trivial
  | oneShot | due | due2 | inCall2 | rearm => exact h
  | hasFunc => exact ⟨h.1, h.2.1, fun hfunc => (h.2.2 hfunc).trans hn⟩
  | disable => exact ⟨h.1, h.2.1, h.2.2.1, h.2.2.2.trans hn⟩
  | call => exact ⟨h.1, h.2.1, h.2.2.1, h.2.2.2.1.trans hn, h.2.2.2.2⟩
  | hasFunc2 => exact ⟨h.1, fun u hu => (h.2 u hu).trans hn⟩
  | call2 => exact ⟨h.1, h.2.1, fun u hu => (h.2.2 u hu).trans hn⟩

end

section

variable {t₀ : BitVec 64} {s : State} {p q : Ptr} {l l' : Loc} {t : TimerList} {zero : ℤ}

theorem Inv.reg_ne (h : Inv t₀ s) (hp : p ∈ s.head) (hq : q ∈ s.head) (hne : q ≠ p) :
    (s.mem p).reg ≠ (s.mem q).reg := by
  intro heq
  refine hne (h.inj q hq p hp ?_)
  rw [← (h.logged p hp).2, ← (h.logged q hq).2, heq]

theorem Inv.tick (h : Inv t₀ s) : Inv t₀ { s with ticks := s.ticks + 1, arrived := s.arrived + 1 } where
  toListInv := ⟨h.wf, h.nodup, h.inj, h.taken, h.thread⟩
  toLogInv := ⟨h.logged, h.regs, h.invoked, h.gone, h.right⟩
  ticks := by
    dsimp only
    rw [h.ticks, add_assoc, BitVec.ofNat_add]
    rfl
  ok := fun p hp => (h.ok p hp).mono (Nat.le_succ _)
  armed := fun p hp hthread => (h.armed p hp hthread).mono (Nat.le_succ _)
  loc := fun l p hthread => (h.loc l p hthread).mono (Nat.le_succ _)

/-- Other memory does not matter. -/
theorem Inv.write (h : Inv t₀ s) (hp : p ∉ s.head) : Inv t₀ (s.set p t) := by
  have hmem (q : Ptr) (hq : q ∈ s.head) : (s.set p t).mem q = s.mem q := by
    refine Function.update_of_ne ?_ _ _
    rintro rfl
    exact hp hq
  refine ⟨⟨h.wf, h.nodup, ?_, ?_, h.thread⟩, ⟨?_, h.regs, h.invoked, ?_, h.right⟩, ⟨h.ticks, ?_, ?_, ?_⟩⟩
  · intro q hq q' hq' heq
    rw [hmem q hq, hmem q' hq'] at heq
    exact h.inj q hq q' hq' heq
  · intro q hq
    rw [hmem q hq]
    exact h.taken q hq
  · intro q hq
    rw [hmem q hq]
    exact h.logged q hq
  · intro l r hgone q hq
    rw [hmem q hq]
    exact h.gone l r hgone q hq
  · intro q hq
    rw [hmem q hq]
    exact h.ok q hq
  · intro q hq hthread
    rw [hmem q hq]
    exact h.armed q hq hthread
  · intro l q hthread
    rw [hmem q (h.thread l q hthread)]
    exact h.loc l q hthread

/-! ### The timer thread -/

/-- The timer thread writes to its timer. -/
theorem Inv.set_goto (h : Inv t₀ s) (hthread : s.thread = some (l, p)) (hreg : t.reg = (s.mem p).reg)
    (hid : t.timerId = (s.mem p).timerId) (hok : TimerOk t₀ s.arrived (times (s.mem p).reg s.log) t)
    (harmed : ¬ l'.Behind → Armed t₀ s.arrived (times (s.mem p).reg s.log) t)
    (hloc : LocOk s.arrived (times (s.mem p).reg s.log) t l') : Inv t₀ ((s.set p t).goto l' p) := by
  have hp := h.thread l p hthread
  have hself : ((s.set p t).goto l' p).mem p = t := Function.update_self _ _ _
  have hother (q : Ptr) (hne : q ≠ p) : ((s.set p t).goto l' p).mem q = s.mem q := Function.update_of_ne hne _ _
  have hreg' (q : Ptr) : (((s.set p t).goto l' p).mem q).reg = (s.mem q).reg := by
    by_cases hne : q = p
    · rw [hne, hself, hreg]
    · rw [hother q hne]
  have hid' (q : Ptr) : (((s.set p t).goto l' p).mem q).timerId = (s.mem q).timerId := by
    by_cases hne : q = p
    · rw [hne, hself, hid]
    · rw [hother q hne]
  refine ⟨⟨h.wf, h.nodup, ?_, ?_, ?_⟩, ⟨?_, h.regs, h.invoked, ?_, h.right⟩, ⟨h.ticks, ?_, ?_, ?_⟩⟩
  · intro q hq q' hq' heq
    rw [hid', hid'] at heq
    exact h.inj q hq q' hq' heq
  · intro q hq
    rw [hid']
    exact h.taken q hq
  · intro l₂ q hq
    obtain ⟨rfl, rfl⟩ := Prod.mk.inj (Option.some.inj hq)
    exact hp
  · intro q hq
    rw [hreg', hid']
    exact h.logged q hq
  · intro l r hgone q hq
    rw [hreg']
    exact h.gone l r hgone q hq
  · intro q hq
    rw [hreg']
    by_cases hne : q = p
    · rw [hne, hself]
      exact hok
    · rw [hother q hne]
      exact h.ok q hq
  · intro q hq hbehind
    rw [hreg']
    by_cases hne : q = p
    · subst hne
      rw [hself]
      exact harmed (hbehind l' rfl)
    · rw [hother q hne]
      refine h.armed q hq fun l₂ hl₂ => ?_
      exact absurd (Prod.mk.inj (Option.some.inj (hl₂.symm.trans hthread))).2 hne
  · intro l₂ q hq
    obtain ⟨rfl, rfl⟩ := Prod.mk.inj (Option.some.inj hq)
    rw [hreg', hself]
    exact hloc

/-- The timer thread looks at its timer. -/
theorem Inv.goto (h : Inv t₀ s) (hthread : s.thread = some (l, p)) (hbehind : ¬ l'.Behind → ¬ l.Behind)
    (hloc : LocOk s.arrived (times (s.mem p).reg s.log) (s.mem p) l') : Inv t₀ (s.goto l' p) := by
  have hp := h.thread l p hthread
  have hsame : s.set p (s.mem p) = s := by
    rw [State.set, Function.update_eq_self]
  have harmed (hnot : ¬ l'.Behind) : Armed t₀ s.arrived (times (s.mem p).reg s.log) (s.mem p) := by
    refine h.armed p hp fun l₂ hl₂ => ?_
    obtain ⟨rfl, _⟩ := Prod.mk.inj (Option.some.inj (hl₂.symm.trans hthread))
    exact hbehind hnot
  have hstep := h.set_goto hthread rfl rfl (h.ok p hp) harmed hloc
  rwa [hsame] at hstep

/-- The timer thread calls back. -/
theorem Inv.invoke_goto (h : Inv t₀ s) (hthread : s.thread = some (l, p))
    (hone : (s.mem p).reg.OneShot → times (s.mem p).reg s.log = [] ∧
      (s.mem p).reg.since + (s.mem p).reg.expired ≤ s.arrived)
    (hper : (s.mem p).reg.Periodic → ∀ u ∈ times (s.mem p).reg s.log, u + (s.mem p).reg.expired ≤ s.arrived)
    (hok : TimerOk t₀ s.arrived (s.arrived :: times (s.mem p).reg s.log) (s.mem p))
    (harmed : ¬ l'.Behind → Armed t₀ s.arrived (s.arrived :: times (s.mem p).reg s.log) (s.mem p))
    (hloc : LocOk s.arrived (s.arrived :: times (s.mem p).reg s.log) (s.mem p) l') :
    Inv t₀ ((s.invoke (s.mem p).reg).goto l' p) := by
  have hp := h.thread l p hthread
  have htimes (q : Ptr) (hq : q ∈ s.head) (hne : q ≠ p) :
      times (s.mem q).reg (.invoked (s.mem p).reg s.arrived :: s.log) = times (s.mem q).reg s.log :=
    times_invoked_of_ne (h.reg_ne hp hq hne)
  refine ⟨⟨h.wf, h.nodup, h.inj, h.taken, ?_⟩, ⟨?_, ?_, ?_, ?_, ?_⟩, ⟨h.ticks, ?_, ?_, ?_⟩⟩
  · intro l₂ q hq
    obtain ⟨rfl, rfl⟩ := Prod.mk.inj (Option.some.inj hq)
    exact hp
  · exact fun q hq => ⟨List.mem_cons_of_mem _ (h.logged q hq).1, (h.logged q hq).2⟩
  · exact fun r hr => h.regs r ((List.mem_cons.mp hr).resolve_left (by simp))
  · intro r n hr
    rcases List.mem_cons.mp hr with heq | hr
    · rw [(Event.invoked.inj heq).1]
      exact h.regs _ (h.logged p hp).1
    · exact h.invoked r n hr
  · intro l₂ r hgone
    rcases gone_cons.mp hgone with ⟨_, heq, _⟩ | ⟨l₁, _, hold⟩
    · cases heq
    · exact h.gone l₁ r hold
  · exact h.right.invoke hone hper fun l₂ hgone => h.gone l₂ _ hgone p hp rfl
  · intro q hq
    by_cases hne : q = p
    · subst hne
      exact times_invoked_self ▸ hok
    · exact (htimes q hq hne).symm ▸ h.ok q hq
  · intro q hq hbehind
    by_cases hne : q = p
    · subst hne
      exact times_invoked_self ▸ harmed (hbehind l' rfl)
    · refine (htimes q hq hne).symm ▸ h.armed q hq fun l₂ hl₂ => ?_
      exact absurd (Prod.mk.inj (Option.some.inj (hl₂.symm.trans hthread))).2 hne
  · intro l₂ q hq
    obtain ⟨rfl, rfl⟩ := Prod.mk.inj (Option.some.inj hq)
    exact times_invoked_self ▸ hloc

theorem mem_next {l : List Ptr} (h : next p l = some q) : q ∈ l :=
  (List.dropWhile_sublist _).subset (List.mem_of_mem_tail (List.mem_of_mem_head? h))

/-- The timer thread goes to another timer. -/
theorem Inv.enter (h : Inv t₀ s) (hthread : ∀ x ∈ s.thread, ¬ x.1.Behind) {n : Option Ptr}
    (hn : ∀ q ∈ n, q ∈ s.head) : Inv t₀ { s with thread := n.map fun q => (Loc.enabled, q) } := by
  refine ⟨⟨h.wf, h.nodup, h.inj, h.taken, ?_⟩, ⟨h.logged, h.regs, h.invoked, h.gone, h.right⟩,
    ⟨h.ticks, h.ok, fun q hq _ => h.armed q hq fun l hl => hthread _ hl, ?_⟩⟩
  · intro l q hq
    obtain ⟨q', hq', heq⟩ := Option.map_eq_some_iff.mp hq
    obtain ⟨_, rfl⟩ := Prod.mk.inj heq
    exact hn q' hq'
  · intro l q hq
    obtain ⟨q', hq', heq⟩ := Option.map_eq_some_iff.mp hq
    obtain ⟨rfl, _⟩ := Prod.mk.inj heq
    trivial

theorem and_enabled (f : BitVec 32) : f &&& ~~~flagEnabled &&& flagEnabled = 0 := by
  rw [BitVec.and_assoc, show ~~~flagEnabled &&& flagEnabled = 0 from by decide]
  exact BitVec.and_zero

theorem and_oneshut (f : BitVec 32) : f &&& ~~~flagEnabled &&& flagOneshut = f &&& flagOneshut := by
  rw [BitVec.and_assoc, show ~~~flagEnabled &&& flagOneshut = flagOneshut from by decide]

theorem and_periodic (f : BitVec 32) : f &&& ~~~flagEnabled &&& flagPeriodic = f &&& flagPeriodic := by
  rw [BitVec.and_assoc, show ~~~flagEnabled &&& flagPeriodic = flagPeriodic from by decide]

theorem Inv.now_eq (h : Inv t₀ s) : s.now = nowAt t₀ s.arrived := by
  rw [State.now, h.ticks, nowAt]

/-- A one-shot timer that is found to be due is. -/
theorem Inv.oneShot_due (h : Inv t₀ s) (hp : p ∈ s.head) (hone : (s.mem p).reg.OneShot)
    (henabled : (s.mem p).flag &&& flagEnabled ≠ 0) (hdue : (s.mem p).expires ≤ s.now) (hfunc : (s.mem p).func ≠ 0) :
    (s.mem p).reg.since + (s.mem p).reg.expired ≤ s.arrived := by
  have hok := h.ok p hp
  obtain ⟨x, hx, hfit, heq⟩ := (hok.fresh hone henabled).2 hfunc
  rw [heq, h.now_eq] at hdue
  rw [hx]
  exact not_early hfit hok.since hdue

/-- A periodic timer that is found to be due was not invoked within the interval. -/
theorem Inv.periodic_due (h : Inv t₀ s) (hp : p ∈ s.head) (hper : (s.mem p).reg.Periodic)
    (hthread : ∀ l, s.thread = some (l, p) → ¬ l.Behind) (hdue : (s.mem p).expires ≤ s.now) :
    ∀ u ∈ times (s.mem p).reg s.log, u + (s.mem p).reg.expired ≤ s.arrived := by
  have hok := h.ok p hp
  rcases h.armed p hp hthread hper with hnone | ⟨a, ha, hpast, hfit, heq⟩
  · rw [hnone]
    exact fun u hu => absurd hu List.not_mem_nil
  · intro u hu
    rw [heq, h.now_eq] at hdue
    have hle := not_early hfit ha hdue
    have hu := hpast u hu
    rw [hok.interval hper] at hle
    omega

/-- What the timer thread does keeps the invariant. -/
theorem Inv.timerisr (h : Inv t₀ s) (wild : Option Ptr)
    (hok : ∀ x ∈ s.thread, x.1 = .rearm → (s.mem x.2).func ≠ 0 →
      s.now.toNat + (s.mem x.2).interval.toNat < 2 ^ 32) : Inv t₀ (timerisr s wild) := by
  rw [Timers.timerisr]
  split
  · rename_i hnone
    refine h.enter (fun x hx => ?_) fun q hq => List.mem_of_mem_head? hq
    rw [hnone] at hx
    cases hx
  rename_i l p hthread
  have hp := h.thread l p hthread
  have hl := h.loc l p hthread
  have ht := h.ok p hp
  have hbehind (hnot : ¬ l.Behind) : ∀ l', s.thread = some (l', p) → ¬ l'.Behind := by
    intro l' hl'
    obtain ⟨rfl, _⟩ := Prod.mk.inj (Option.some.inj (hl'.symm.trans hthread))
    exact hnot
  dsimp only
  cases l with
  | enabled =>
      dsimp only
      split
      · exact h.goto hthread (fun _ => by decide) ‹_›
      · exact h.goto hthread (fun _ => by decide) trivial
  | oneShot =>
      dsimp only
      split
      · rename_i hone
        refine h.goto hthread (fun _ => by decide) ⟨hl, ?_⟩
        rwa [ht.oneShot] at hone
      · exact h.goto hthread (fun _ => by decide) trivial
  | due =>
      dsimp only
      split
      · exact h.goto hthread (fun _ => by decide) ⟨hl.1, hl.2, h.oneShot_due hp hl.2 hl.1 ‹_›⟩
      · exact h.goto hthread (fun _ => by decide) trivial
  | hasFunc =>
      dsimp only
      split
      · rename_i hfunc
        exact h.goto hthread (fun _ => by decide) ⟨hl.1, hl.2.1, hfunc, hl.2.2 hfunc⟩
      · exact h.goto hthread (fun _ => by decide) trivial
  | disable =>
      obtain ⟨henabled, hone, hfunc, hdue⟩ := hl
      refine h.set_goto hthread rfl rfl ?_ (fun _ hper => absurd hper (ht.kind hone)) ?_
      · refine { ht with oneShot := ?_, periodic := ?_, fresh := ?_ }
        · exact (and_oneshut _).trans ht.oneShot
        · exact (and_periodic _).trans ht.periodic
        · exact fun _ hnot => absurd (and_enabled _) hnot
      · exact ⟨and_enabled _, hone, hfunc, hdue, (ht.fresh hone henabled).1⟩
  | call =>
      obtain ⟨hdisabled, hone, hfunc, hdue, hnone⟩ := hl
      refine h.invoke_goto hthread (fun _ => ⟨hnone, hdue⟩) (fun hper => absurd hper (ht.kind hone)) ?_
        (fun _ hper => absurd hper (ht.kind hone)) trivial
      refine { ht with past := ?_, noFunc := ?_, fresh := ?_ }
      · exact List.forall_mem_cons.mpr ⟨le_rfl, ht.past⟩
      · exact fun h0 => absurd h0 hfunc
      · exact fun _ hnot => absurd hdisabled hnot
  | inCall => exact h.goto hthread (fun _ => by decide) trivial
  | periodic =>
      dsimp only
      split
      · rename_i hper
        refine h.goto hthread (fun _ => by decide) ?_
        rwa [ht.periodic] at hper
      · exact h.goto hthread (fun _ => by decide) trivial
  | due2 =>
      dsimp only
      split
      · exact h.goto hthread (fun _ => by decide)
          ⟨hl, h.periodic_due hp hl (hbehind (by decide)) ‹_›⟩
      · exact h.goto hthread (fun _ => by decide) trivial
  | hasFunc2 =>
      dsimp only
      split
      · exact h.goto hthread (fun _ => by decide) ⟨hl.1, ‹_›, hl.2⟩
      · exact h.goto hthread (fun _ => by decide) hl.1
  | call2 =>
      obtain ⟨hper, hfunc, hpast⟩ := hl
      have hkind : ¬ (s.mem p).reg.OneShot := fun hone => ht.kind hone hper
      refine h.invoke_goto hthread (fun hone => absurd hone hkind) (fun _ => hpast) ?_
        (fun hnot => absurd (.inl rfl) hnot) hper
      refine { ht with past := ?_, noFunc := ?_, fresh := ?_ }
      · exact List.forall_mem_cons.mpr ⟨le_rfl, ht.past⟩
      · exact fun h0 => absurd h0 hfunc
      · exact fun hone => absurd hone hkind
  | inCall2 => exact h.goto hthread (fun hnot => absurd (.inr rfl) hnot) hl
  | rearm =>
      have hkind : ¬ (s.mem p).reg.OneShot := fun hone => ht.kind hone hl
      refine h.set_goto hthread rfl rfl ?_ (fun _ _ => ?_) trivial
      · exact { ht with fresh := fun hone => absurd hone hkind }
      · by_cases hfunc : (s.mem p).func = 0
        · exact .inl (ht.noFunc hfunc)
        · refine .inr ⟨s.arrived, le_rfl, ht.past, ?_, ?_⟩
          · rw [← h.now_eq]
            exact hok _ hthread rfl hfunc
          · rw [← h.now_eq]
            exact setWidth_add_setWidth _ _
  | advance =>
      dsimp only
      rw [if_pos hp]
      refine h.enter (fun x hx => ?_) fun q hq => mem_next hq
      obtain rfl := Option.some.inj (hthread.symm.trans hx)
      exact (by decide : ¬ Loc.advance.Behind)

/-! ### Registration -/

theorem and_bit {f m : BitVec 32} {i : ℕ} (hm : m = BitVec.twoPow 32 i) (h : f &&& m ≠ 0) : f &&& m = m := by
  rw [hm, BitVec.and_twoPow] at h ⊢
  split at h
  · exact if_pos ‹_›
  · exact absurd rfl h

theorem accepts_kind {expired type : BitVec 32} (h : Accepts expired type)
    (hone : type &&& flagOneshut ≠ 0) : ¬ type &&& flagPeriodic ≠ 0 := by
  intro hper
  refine h.2.2 ?_
  rw [BitVec.and_or_distrib_left, and_bit (i := 2) (by decide) hone, and_bit (i := 3) (by decide) hper]

theorem Inv.times_new (h : Inv t₀ s) {r : Reg} (hr : r.no = s.made) : times r s.log = [] := by
  refine List.eq_nil_iff_forall_not_mem.mpr fun u hu => ?_
  have hlt := h.invoked r u (mem_times.mp hu)
  omega

/-- A new timer, with an id that was free. -/
theorem Inv.add (h : Inv t₀ s) {idObj : Pid.KidObject} {id : ℕ} (hp : p ∉ s.head) (hwf : idObj.WF 1024)
    (hfree : Pid.IsFree s.idObj id) (htaken : ∀ j, Pid.IsFree idObj j ↔ Pid.IsFree s.idObj j ∧ j ≠ id)
    (hno : t.reg.no = s.made) (hid : t.timerId = id) (hreg : t.reg.timerId = id)
    (hok : TimerOk t₀ s.arrived [] t) :
    Inv t₀ { s with
      idObj
      head := s.head ++ [p]
      mem := Function.update s.mem p t
      made := s.made + 1
      log := .registered t.reg :: s.log } := by
  have hself : Function.update s.mem p t p = t := Function.update_self _ _ _
  have hother {q : Ptr} (hq : q ∈ s.head) : Function.update s.mem p t q = s.mem q := by
    refine Function.update_of_ne ?_ _ _
    rintro rfl
    exact hp hq
  have hcases {q : Ptr} (hq : q ∈ s.head ++ [p]) : q ∈ s.head ∨ q = p :=
    (List.mem_append.mp hq).imp_right List.mem_singleton.mp
  have hold {q : Ptr} (hq : q ∈ s.head) : (s.mem q).timerId ≠ id := by
    obtain ⟨j, hj, hnot⟩ := h.taken q hq
    rw [hj]
    intro heq
    rw [Nat.cast_inj.mp heq] at hnot
    exact hnot hfree
  refine ⟨⟨hwf, ?_, ?_, ?_, ?_⟩, ⟨?_, ?_, ?_, ?_, ?_⟩, ⟨h.ticks, ?_, ?_, ?_⟩⟩
  · refine h.nodup.append (List.nodup_singleton p) fun q hq hq' => ?_
    rw [List.mem_singleton.mp hq'] at hq
    exact hp hq
  · intro q hq q' hq' heq
    dsimp only at heq
    rcases hcases hq with hold₁ | hnew₁ <;> rcases hcases hq' with hold₂ | hnew₂
    · rw [hother hold₁, hother hold₂] at heq
      exact h.inj q hold₁ q' hold₂ heq
    · rw [hother hold₁, hnew₂, hself, hid] at heq
      exact absurd heq (hold hold₁)
    · rw [hother hold₂, hnew₁, hself, hid] at heq
      exact absurd heq.symm (hold hold₂)
    · exact hnew₁.trans hnew₂.symm
  · intro q hq
    dsimp only
    rcases hcases hq with hq | rfl
    · obtain ⟨j, hj, hnot⟩ := h.taken q hq
      rw [hother hq]
      exact ⟨j, hj, fun hj => hnot ((htaken j).mp hj).1⟩
    · rw [hself]
      exact ⟨id, hid, fun hj => ((htaken id).mp hj).2 rfl⟩
  · exact fun l q hq => List.mem_append_left _ (h.thread l q hq)
  · intro q hq
    dsimp only
    rcases hcases hq with hq | rfl
    · rw [hother hq]
      exact ⟨List.mem_cons_of_mem _ (h.logged q hq).1, (h.logged q hq).2⟩
    · rw [hself]
      exact ⟨List.mem_cons_self, hreg.trans hid.symm⟩
  · intro r hr
    rcases List.mem_cons.mp hr with heq | hr
    · rw [Event.registered.inj heq, hno]
      exact Nat.lt_succ_self _
    · exact (h.regs r hr).trans (Nat.lt_succ_self _)
  · intro r n hr
    exact (h.invoked r n ((List.mem_cons.mp hr).resolve_left (by simp))).trans (Nat.lt_succ_self _)
  · intro l r hgone q hq
    dsimp only
    rcases gone_cons.mp hgone with ⟨_, heq, _⟩ | ⟨l₁, _, hbefore⟩
    · cases heq
    rcases hcases hq with hq | rfl
    · rw [hother hq]
      exact h.gone l₁ r hbefore q hq
    · rw [hself]
      rintro rfl
      obtain ⟨_, l', hlog, hmem, _⟩ := hbefore
      have hlt := h.regs t.reg (hlog ▸ List.mem_append_right _ (List.mem_cons_of_mem _ hmem))
      omega
  · refine h.right.cons (fun r l => rfl) fun r heq => ?_
    rw [← Event.registered.inj heq]
    exact h.times_new hno
  · intro q hq
    dsimp only
    rcases hcases hq with hq | rfl
    · rw [hother hq]
      exact h.ok q hq
    · rw [hself, times_registered, h.times_new hno]
      exact hok
  · intro q hq hthread
    dsimp only
    rcases hcases hq with hq | rfl
    · rw [hother hq]
      exact h.armed q hq hthread
    · rw [hself, times_registered, h.times_new hno]
      exact fun _ => .inl rfl
  · intro l q hq
    dsimp only
    rw [hother (h.thread l q hq)]
    exact h.loc l q hq

theorem Inv.registerTimer (h : Inv t₀ s) {expired type callback arg : BitVec 32} {mem : Option Ptr} {r : ℤ × State}
    (hok : Call.Ok zero s (.registerTimer expired type callback arg mem)) (hmem : ∀ p ∈ mem, p ∉ s.head)
    (hrun : registerTimer zero s expired type callback arg mem = some r) : Inv t₀ r.2 := by
  by_cases haccept : Accepts expired type
  swap
  · rw [Timers.registerTimer.eq_def, if_pos haccept] at hrun
    obtain rfl := Option.some.inj hrun
    exact h
  rw [Timers.registerTimer.eq_def, if_neg (not_not.mpr haccept)] at hrun
  cases mem with
  | none =>
      obtain rfl := Option.some.inj hrun
      exact h
  | some p =>
      obtain ⟨hid, hfit⟩ := hok haccept (by simp)
      dsimp only at hrun
      rw [Pid.idFrom_eq hid, Option.map_map] at hrun
      obtain ⟨⟨id, obj⟩, hget, rfl⟩ := Option.map_eq_some_iff.mp hrun
      obtain ⟨_, hfree, hwf, hfree'⟩ := Pid.getUnusedId_spec h.wf hget
      refine h.add (hmem p rfl) hwf hfree hfree' rfl rfl rfl ?_
      constructor
      · rfl
      · rfl
      · exact accepts_kind haccept
      · exact le_rfl
      · exact fun u hu => absurd hu List.not_mem_nil
      · exact fun _ => rfl
      · intro hone henabled
        refine ⟨rfl, fun hfunc => ⟨expired, rfl, ?_, ?_⟩⟩
        · rw [← h.now_eq]
          exact hfit hone henabled hfunc
        · rw [← h.now_eq]
          exact setWidth_add_signExtend _ _
      · intro hper
        exact congrArg BitVec.toNat (if_pos hper)

/-- A timer that the timer thread is not at is removed. -/
theorem Inv.unregisterTimer (h : Inv t₀ s) {timerId : ℤ} (hok : Call.Ok zero s (.unregisterTimer timerId)) :
    Inv t₀ (unregisterTimer s timerId).2 := by
  rw [Timers.unregisterTimer]
  split
  · exact h
  split
  swap
  · exact h
  rename_i p hfind
  have hp : p ∈ s.head := List.mem_of_find?_eq_some hfind
  have hid : (s.mem p).timerId = timerId := by simpa using List.find?_some hfind
  have hmem {q : Ptr} (hq : q ∈ s.head.erase p) : q ∈ s.head := List.mem_of_mem_erase hq
  have hne {q : Ptr} (hq : q ∈ s.head.erase p) : (s.mem q).timerId ≠ timerId := by
    rw [← hid]
    intro heq
    obtain rfl := h.inj q (hmem hq) p hp heq
    exact h.nodup.not_mem_erase hq
  refine ⟨⟨h.wf.putId _, h.nodup.erase p, ?_, ?_, ?_⟩, ⟨?_, ?_, ?_, ?_, ?_⟩, ⟨h.ticks, ?_, ?_, ?_⟩⟩
  · exact fun q hq q' hq' heq => h.inj q (hmem hq) q' (hmem hq') heq
  · intro q hq
    obtain ⟨j, hj, hnot⟩ := h.taken q (hmem hq)
    refine ⟨j, hj, fun hfree => ?_⟩
    rcases (Pid.isFree_putId _ _ _).mp hfree with hfree | rfl
    · exact hnot hfree
    · refine hne hq (hj.trans ?_)
      omega
  · intro l q hq
    refine (List.mem_erase_of_ne ?_).mpr (h.thread l q hq)
    rintro rfl
    exact hok _ hq hid
  · exact fun q hq => ⟨List.mem_cons_of_mem _ (h.logged q (hmem hq)).1, (h.logged q (hmem hq)).2⟩
  · exact fun r hr => h.regs r ((List.mem_cons.mp hr).resolve_left (by simp))
  · exact fun r n hr => h.invoked r n ((List.mem_cons.mp hr).resolve_left (by simp))
  · intro l r hgone q hq
    rcases gone_cons.mp hgone with ⟨_, heq, _⟩ | ⟨l₁, _, hbefore⟩
    · rintro rfl
      rw [(h.logged q (hmem hq)).2] at heq
      exact hne hq (Event.unregistered.inj heq).symm
    · exact h.gone l₁ r hbefore q (hmem hq)
  · exact h.right.cons (fun r l => rfl) fun r heq => by cases heq
  · exact fun q hq => h.ok q (hmem hq)
  · exact fun q hq hthread => h.armed q (hmem hq) hthread
  · exact h.loc

theorem Inv.step (h : Inv t₀ s) {c : Call} {s' : State} (hok : c.Ok zero s) (hstep : s.step zero c = some s') :
    Inv t₀ s' := by
  cases c with
  | tick =>
      obtain rfl := Option.some.inj hstep
      exact h.tick
  | thread wild =>
      obtain rfl := Option.some.inj hstep
      exact h.timerisr wild hok
  | registerTimer expired type callback arg mem =>
      rw [State.step] at hstep
      split at hstep
      · cases hstep
      rename_i hnew
      obtain ⟨r, hr, rfl⟩ := Option.map_eq_some_iff.mp hstep
      refine h.registerTimer hok (fun p hp hmem => hnew ?_) hr
      rw [Option.mem_def.mp hp, Option.any_some]
      exact decide_eq_true hmem
  | unregisterTimer timerId =>
      obtain rfl := Option.some.inj hstep
      exact h.unregisterTimer hok
  | write p t =>
      rw [State.step] at hstep
      split at hstep
      · cases hstep
      obtain rfl := Option.some.inj hstep
      exact h.write ‹_›

theorem inv_start (t₀ : BitVec 64) (beyond : ℕ → BitVec 32) (mem : Ptr → TimerList) :
    Inv t₀ (start t₀ beyond mem) where
  wf := ⟨(by decide : 4096 / 4 = 1024), (by decide : 0 < 1024)⟩
  nodup := List.nodup_nil
  inj := fun p hp => absurd hp List.not_mem_nil
  taken := fun p hp => absurd hp List.not_mem_nil
  thread := fun l p h => by cases h
  logged := fun p hp => absurd hp List.not_mem_nil
  regs := fun r hr => absurd hr List.not_mem_nil
  invoked := fun r n hr => absurd hr List.not_mem_nil
  gone := fun l r _ p hp => absurd hp List.not_mem_nil
  right :=
    { once := fun r hr => absurd hr List.not_mem_nil
      notEarly := fun r hr => absurd hr List.not_mem_nil
      apart := fun r hr => absurd hr List.not_mem_nil
      gone := fun l id l' h => absurd h (by simp [start]) }
  ticks := (add_zero t₀).symm
  ok := fun p hp => absurd hp List.not_mem_nil
  armed := fun p hp => absurd hp List.not_mem_nil
  loc := fun l p h => by cases h

end

/-! ## Main results -/

/-- **Callbacks come when they should** in every run that meets the condition: a one-shot timer once at most and not
too early, a periodic one not twice in an interval, and none behind `unregister_timer`. -/
theorem timers_right {zero : ℤ} {ticks : BitVec 64} {beyond : ℕ → BitVec 32} {mem : Ptr → TimerList} {s : State}
    (h : Reach (State.step zero) (fun s c => c.Ok zero s) (start ticks beyond mem) s) : LogRight s.log :=
  (h.invariant (inv_start ticks beyond mem) fun _ _ _ hinv hok hstep => hinv.step hok hstep).right

/-- Memory of zeros. -/
def zeros : Ptr → TimerList := fun _ => ⟨0, 0, 0, 0, 0, 0, ⟨0, 0, 0, 0, 0⟩⟩

/-- The timer thread runs for some steps. -/
def threadSteps (n : ℕ) : List Call := List.replicate n (.thread none)

/-- A one-shot timer of two ticks. -/
theorem timers_right_two_ticks : ∃ s, Reach (State.step 0) (fun s c => c.Ok 0 s) (start 7 (fun _ => 0) zeros) s ∧
    s.log = [.invoked ⟨0, 0, 5, 2, 0⟩ 2, .registered ⟨0, 0, 5, 2, 0⟩] ∧ LogRight s.log := by
  have hrun : (runCalls (State.step 0) (start 7 (fun _ => 0) zeros)
      (.registerTimer 2 5 1 0 (some 16) :: .tick :: .tick :: threadSteps 7)).map State.log =
        some [.invoked ⟨0, 0, 5, 2, 0⟩ 2, .registered ⟨0, 0, 5, 2, 0⟩] := by
    decide +kernel
  obtain ⟨s, hs, hlog⟩ := Option.map_eq_some_iff.mp hrun
  have hreach : Reach (State.step 0) (fun s c => c.Ok 0 s) (start 7 (fun _ => 0) zeros) s :=
    Reach.of_runCalls .start _ (by decide +kernel) hs
  exact ⟨s, hreach, hlog, timers_right hreach⟩

/-- A timer of ten ticks is invoked at once if `expires` has no room for its time, or twice in one tick. A timer is
invoked behind `unregister_timer` if the timer thread was about to call its callback. -/
theorem timers_can_go_wrong :
    (¬ ∀ s, Reach (State.step (-1)) (fun _ _ => True) (start 0xFFFFFFFF (fun _ => 0) zeros) s → LogRight s.log) ∧
      (¬ ∀ s, Reach (State.step (-1)) (fun _ _ => True) (start 0xFFFFFFF0 (fun _ => 0) zeros) s → LogRight s.log) ∧
      ¬ ∀ s, Reach (State.step (-1)) (fun _ _ => True) (start 0 (fun _ => 0) zeros) s → LogRight s.log := by
  refine ⟨?_, ?_, ?_⟩
  · intro hall
    have hrun : (runCalls (State.step (-1)) (start 0xFFFFFFFF (fun _ => 0) zeros)
        (.registerTimer 10 5 1 0 (some 16) :: threadSteps 7)).map State.log =
          some [.invoked ⟨0, 0, 5, 10, 0⟩ 0, .registered ⟨0, 0, 5, 10, 0⟩] := by
      decide +kernel
    obtain ⟨s, hs, hlog⟩ := Option.map_eq_some_iff.mp hrun
    have hright := hall s (Reach.of_runCalls .start _ (AllCalls.of_forall (fun _ _ => trivial) _ _) hs)
    rw [hlog] at hright
    exact absurd (hright.notEarly ⟨0, 0, 5, 10, 0⟩ (by decide) (by decide) 0 (by decide)) (by decide)
  · intro hall
    have hrun : (runCalls (State.step (-1)) (start 0xFFFFFFF0 (fun _ => 0) zeros)
        (.registerTimer 10 9 1 0 (some 16) :: List.replicate 10 .tick ++ threadSteps 17)).map State.log =
          some [.invoked ⟨0, 0, 9, 10, 0⟩ 10, .invoked ⟨0, 0, 9, 10, 0⟩ 10, .registered ⟨0, 0, 9, 10, 0⟩] := by
      decide +kernel
    obtain ⟨s, hs, hlog⟩ := Option.map_eq_some_iff.mp hrun
    have hright := hall s (Reach.of_runCalls .start _ (AllCalls.of_forall (fun _ _ => trivial) _ _) hs)
    rw [hlog] at hright
    exact absurd (hright.apart ⟨0, 0, 9, 10, 0⟩ (by decide) (by decide)) (by decide)
  · intro hall
    have hrun : (runCalls (State.step (-1)) (start 0 (fun _ => 0) zeros)
        (.registerTimer 0 5 1 0 (some 16) :: threadSteps 6 ++ .unregisterTimer 0 :: threadSteps 1)).map State.log =
          some [.invoked ⟨0, 0, 5, 0, 0⟩ 0, .unregistered 0, .registered ⟨0, 0, 5, 0, 0⟩] := by
      decide +kernel
    obtain ⟨s, hs, hlog⟩ := Option.map_eq_some_iff.mp hrun
    have hright := hall s (Reach.of_runCalls .start _ (AllCalls.of_forall (fun _ _ => trivial) _ _) hs)
    rw [hlog] at hright
    exact absurd (hright.gone [.invoked ⟨0, 0, 5, 0, 0⟩ 0] 0 _ rfl ⟨0, 0, 5, 0, 0⟩ (by decide) rfl) (by decide)

end Shaunos.Timers
