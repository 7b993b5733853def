import Mathlib
import Shaunos.Common.Run

/-!
# The clock

Reference: `Kernel/timer.c` (`timer_handler`).

A run of the handler accounts for all ticks since the last one, in one lump: the milliseconds that
`wall_jiffies` is behind `ticks` are added to `xtime.ts_nsec` in 32 bits, and a loop carries them
into the seconds. While `timer_depth` is 1, an interrupt only counts its tick. Such ticks are
accounted for in the same run if they come before the difference is taken, and in the next one
otherwise.

The loop takes off a second while *more* than a second is left, so it leaves 1000000000 nanoseconds
when the time is a whole number of seconds.

* `carry_spec` — what the loop leaves;
* `run_right_iff` — which runs of the handler leave the clock right;
* `clock_right_iff` — the same for sequences of interrupts.

The wake-up of the timer thread is left out.
-/

namespace Shaunos.Timer

/-- `INTERVAL`, in milliseconds. -/
def interval : ℕ := 1

/-- `struct timespec`. -/
structure Timespec where
  tsSec : BitVec 32
  tsNsec : BitVec 32

/-- What the handler accounts to the thread that it interrupts. -/
structure Thread where
  ktime : BitVec 32
  utime : BitVec 32
  ticks : BitVec 32

/-- The globals of the handler. -/
structure Clock where
  ticks : BitVec 64
  wallJiffies : BitVec 64
  xtime : Timespec
  timerDepth : BitVec 32
  needReschedule : BitVec 32
  /-- The number of timer interrupts so far. No code reads this. -/
  arrived : ℕ

/-- What a run of the handler meets. -/
structure Interrupt where
  /-- `current`. -/
  current : Option Thread
  /-- Whether user code was interrupted. -/
  user : Bool
  /-- The interrupts that come while `timer_depth` is 1: before `nticks` is computed, -/
  early : ℕ
  /-- before `wall_jiffies` is set, -/
  mid : ℕ
  /-- and after that. -/
  late : ℕ

/-- `ticks++`. -/
def Clock.tick (c : Clock) : Clock := { c with ticks := c.ticks + 1, arrived := c.arrived + 1 }

/-- Interrupts that find `timer_depth` set. -/
def Clock.nested (c : Clock) (k : ℕ) : Clock :=
  { c with ticks := c.ticks + BitVec.ofNat 64 k, arrived := c.arrived + k }

/-- So many passes of the `do` loop. -/
def carry : ℕ → Timespec → Timespec
  | 0, t => t
  | n + 1, t =>
      carry n (if (1000000000#32).slt t.tsNsec then
        { tsSec := t.tsSec + 1, tsNsec := t.tsNsec - 1000000000#32 } else t)

/-- `timer_handler`. It returns what becomes of `current`. -/
def timerHandler (c : Clock) (r : Interrupt) : Clock × Option Thread :=
  let c := c.tick
  if c.timerDepth ≠ 0 then (c, r.current)
  else
    let c := { c with timerDepth := 1 }
    let c := c.nested r.early
    match r.current with
    | none => (c, none)
    | some thread =>
        let nticks : BitVec 32 := (c.ticks - c.wallJiffies).setWidth 32
        let c := c.nested r.mid
        let (usec, c) :=
          if nticks ≠ 0 then
            (nticks * BitVec.ofNat 32 interval * 1000#32,
              { c with wallJiffies := c.wallJiffies + nticks.setWidth 64 })
          else (BitVec.ofNat 32 interval * 1000#32, { c with wallJiffies := c.ticks })
        let c := c.nested r.late
        let xtime := { c.xtime with tsNsec := c.xtime.tsNsec + usec * 1000#32 }
        -- `nticks` is decremented before it is tested, so from 0 the loop goes all the way round
        let xtime := carry (if nticks = 0 then 2 ^ 32 else nticks.toNat) xtime
        let thread :=
          if r.user then { thread with utime := thread.utime + 1 }
          else { thread with ktime := thread.ktime + 1 }
        let slice := thread.ticks = 50
        let thread := { thread with ticks := if slice then 0 else thread.ticks + 1 }
        ({ c with
            xtime
            needReschedule := if slice then 1 else c.needReschedule
            timerDepth := 0 }, some thread)

/-- One interrupt, with those that it is interrupted by. -/
def interrupt (c : Clock) (r : Interrupt) : Option Clock := some (timerHandler c r).1

/-- An interrupt that finds `timer_depth` set only counts. -/
theorem timerHandler_nested {c : Clock} (h : c.timerDepth ≠ 0) (k : ℕ) (r : Interrupt) :
    (timerHandler (c.nested k) r).1 = c.nested (k + 1) := by
  have hdepth : (c.nested k).tick.timerDepth ≠ 0 := h
  rw [timerHandler, if_pos hdepth]
  simp only [Clock.tick, Clock.nested, Nat.add_assoc, BitVec.add_assoc, BitVec.ofNat_add]
  rfl

/-! ## What callers expect -/

/-- The time in nanoseconds. -/
def Timespec.nanoseconds (t : Timespec) : ℤ := t.tsSec.toInt * 10 ^ 9 + t.tsNsec.toInt

/-- The clock shows the start time and the ticks since then. -/
structure ClockRight (start : Timespec) (c : Clock) : Prop where
  time : c.xtime.nanoseconds = start.nanoseconds + c.arrived * (interval * 10 ^ 6 : ℕ)
  nonneg : 0 ≤ c.xtime.tsNsec.toInt
  lt : c.xtime.tsNsec.toInt < 10 ^ 9
  wall : c.wallJiffies = c.ticks

/-- The time that a clock starts with. -/
structure StartTime where
  time : Timespec
  nonneg : 0 ≤ time.tsNsec.toInt
  lt : time.tsNsec.toInt < 10 ^ 9

/-- The clock at its start. -/
def StartTime.clock (start : StartTime) (ticks : BitVec 64) : Clock where
  ticks := ticks
  wallJiffies := ticks
  xtime := start.time
  timerDepth := 0
  needReschedule := 0
  arrived := 0

/-- What a run that accounts for all its ticks adds up `ts_nsec` to. -/
def Clock.sum (c : Clock) (r : Interrupt) : ℤ :=
  c.xtime.tsNsec.toInt + (1 + r.early) * (interval * 10 ^ 6 : ℕ)

/-- The run finds a thread and is not interrupted once it has computed `nticks`; the nanoseconds fit
into 32 bits and are not a whole number of seconds, and neither do the seconds overflow. -/
def InTime (c : Clock) (r : Interrupt) : Prop :=
  r.current ≠ none ∧ r.mid = 0 ∧ r.late = 0 ∧ c.sum r < 2 ^ 31 ∧ ¬ 10 ^ 9 ∣ c.sum r ∧
    c.xtime.tsSec.toInt + c.sum r / 10 ^ 9 < 2 ^ 31

/-! ## The loop -/

/-- How often the loop takes off a second. -/
def carries (n : ℕ) (nsec : ℤ) : ℕ := min n ((nsec - 1) / 10 ^ 9).toNat

theorem carry_spec (n : ℕ) (t : Timespec) :
    (carry n t).tsNsec.toInt = t.tsNsec.toInt - carries n t.tsNsec.toInt * 10 ^ 9 ∧
      (carry n t).tsSec = t.tsSec + BitVec.ofNat 32 (carries n t.tsNsec.toInt) := by
  induction n generalizing t with
  | zero => simp [carry, carries]
  | succ n ih =>
      rw [carry]
      have hlt : (1000000000#32).slt t.tsNsec = true ↔ (10 : ℤ) ^ 9 < t.tsNsec.toInt := by
        rw [BitVec.slt_iff_toInt_lt]
        rfl
      by_cases h : (10 : ℤ) ^ 9 < t.tsNsec.toInt
      · rw [if_pos (hlt.mpr h)]
        have hsub : (t.tsNsec - 1000000000#32).toInt = t.tsNsec.toInt - 10 ^ 9 := by
          have hle := BitVec.toInt_lt (x := t.tsNsec)
          rw [BitVec.toInt_sub, show (1000000000#32).toInt = 10 ^ 9 from rfl]
          exact Int.bmod_eq_of_le (by omega) (by omega)
        have ⟨hnsec, hsec⟩ := ih ⟨t.tsSec + 1, t.tsNsec - 1000000000#32⟩
        have hk : carries (n + 1) t.tsNsec.toInt = carries n (t.tsNsec.toInt - 10 ^ 9) + 1 := by
          unfold carries
          omega
        simp only [hsub] at hnsec hsec
        rw [hnsec, hsec, hk]
        refine ⟨by push_cast; ring, ?_⟩
        rw [BitVec.ofNat_add, BitVec.add_assoc, BitVec.add_comm 1]
        rfl
      · rw [if_neg (mt hlt.mp h)]
        have hk : ∀ m, carries m t.tsNsec.toInt = 0 := by
          intro m
          unfold carries
          omega
        have hrest := ih t
        rwa [hk] at hrest ⊢

/-! ## One run -/

section

variable {start : Timespec} {c : Clock} {r : Interrupt}

/-- What a run computes as `nticks` when `wall_jiffies` was up to date. -/
def Interrupt.nticks (r : Interrupt) : BitVec 32 := BitVec.ofNat 32 (1 + r.early)

/-- The milliseconds that such a run adds to the time. -/
def Interrupt.advance (r : Interrupt) : ℕ := if r.nticks = 0 then 1 else r.nticks.toNat

/-- The passes of its loop. -/
def Interrupt.passes (r : Interrupt) : ℕ := if r.nticks = 0 then 2 ^ 32 else r.nticks.toNat

/-- All ticks that arrive while the handler runs. -/
def Interrupt.arriving (r : Interrupt) : ℕ := 1 + r.early + r.mid + r.late

theorem advance_le (r : Interrupt) : r.advance ≤ 1 + r.early := by
  unfold Interrupt.advance Interrupt.nticks
  split
  · omega
  · rw [BitVec.toNat_ofNat]
    exact Nat.mod_le _ _

/-- A run that finds no thread leaves the time alone. -/
theorem timerHandler_none (hdepth : c.timerDepth = 0) (hnone : r.current = none) :
    (timerHandler c r).1.xtime = c.xtime ∧
      (timerHandler c r).1.arrived = c.arrived + (1 + r.early) := by
  have htick : ¬ c.tick.timerDepth ≠ 0 := not_not.mpr hdepth
  rw [timerHandler, if_neg htick, hnone]
  exact ⟨rfl, Nat.add_assoc _ _ _⟩

/-- What a run that finds a thread leaves. -/
theorem timerHandler_some (hdepth : c.timerDepth = 0) (hsome : r.current ≠ none)
    (hwall : c.wallJiffies = c.ticks) :
    (timerHandler c r).1.arrived = c.arrived + r.arriving ∧
      (timerHandler c r).1.ticks = c.ticks + BitVec.ofNat 64 r.arriving ∧
      (r.nticks ≠ 0 → (timerHandler c r).1.wallJiffies = c.ticks + r.nticks.setWidth 64) ∧
      (timerHandler c r).1.xtime = carry r.passes
        { c.xtime with tsNsec := c.xtime.tsNsec + BitVec.ofNat 32 (r.advance * 10 ^ 6) } ∧
      (timerHandler c r).1.timerDepth = 0 := by
  have htick : ¬ c.tick.timerDepth ≠ 0 := not_not.mpr hdepth
  have ⟨thread, hthread⟩ := Option.ne_none_iff_exists'.mp hsome
  have hn : (c.ticks + 1 + BitVec.ofNat 64 r.early - c.ticks).setWidth 32 = r.nticks := by
    have hsub : c.ticks + 1 + BitVec.ofNat 64 r.early - c.ticks = BitVec.ofNat 64 (1 + r.early) := by
      rw [BitVec.add_assoc, BitVec.add_comm, BitVec.add_sub_cancel, BitVec.ofNat_add]
      rfl
    rw [hsub, Interrupt.nticks]
    apply BitVec.eq_of_toNat_eq
    rw [BitVec.toNat_setWidth, BitVec.toNat_ofNat, BitVec.toNat_ofNat]
    omega
  have harriving : c.arrived + 1 + r.early + r.mid + r.late = c.arrived + r.arriving := by
    unfold Interrupt.arriving
    omega
  have hticks : c.ticks + 1 + BitVec.ofNat 64 r.early + BitVec.ofNat 64 r.mid + BitVec.ofNat 64 r.late =
      c.ticks + BitVec.ofNat 64 r.arriving := by
    simp only [Interrupt.arriving, BitVec.ofNat_add, BitVec.add_assoc]
    rfl
  rw [timerHandler, if_neg htick, hthread]
  simp only [Clock.tick, Clock.nested, hwall, hn, Interrupt.passes, Interrupt.advance]
  by_cases hzero : r.nticks = 0
  · have hne : ¬ r.nticks ≠ 0 := not_not.mpr hzero
    simp only [if_neg hne, if_pos hzero]
    exact ⟨harriving, hticks, fun h => absurd hzero h, rfl, trivial⟩
  · have husec : r.nticks * BitVec.ofNat 32 interval * 1000#32 * 1000#32 =
        BitVec.ofNat 32 (r.nticks.toNat * 10 ^ 6) := by
      rw [BitVec.ofNat_mul, BitVec.ofNat_toNat, BitVec.setWidth_eq, BitVec.mul_assoc, BitVec.mul_assoc]
      rfl
    simp only [if_pos hzero, if_neg hzero, ne_eq, husec]
    exact ⟨harriving, hticks, fun _ => trivial, trivial, trivial⟩

/-- Adding what is not negative in 32 bits: the sum, less the times it goes round. -/
theorem toInt_add_ofNat (x : BitVec 32) (n : ℕ) (h : -2 ^ 31 ≤ x.toInt + n) :
    ∃ m : ℕ, (x + BitVec.ofNat 32 n).toInt = x.toInt + n - m * 2 ^ 32 ∧
      (m = 0 ↔ x.toInt + n < 2 ^ 31) := by
  have hbmod : (x + BitVec.ofNat 32 n).toInt = (x.toInt + n).bmod (2 ^ 32) := by
    rw [BitVec.toInt_add, BitVec.toInt_ofNat', Int.add_bmod_bmod]
  rw [hbmod, Int.bmod_def]
  refine ⟨(((x.toInt + n) - (x.toInt + n).bmod (2 ^ 32)) / 2 ^ 32).toNat, ?_, ?_⟩
  · rw [Int.bmod_def]
    omega
  · rw [Int.bmod_def]
    omega

/-- The nanoseconds that a run leaves, and what its time lags behind because 32 bits overflow. -/
theorem run_time (hdepth : c.timerDepth = 0) (hsome : r.current ≠ none) (h : ClockRight start c) :
    ∃ m o : ℕ,
      let v := c.xtime.tsNsec.toInt + (r.advance * 10 ^ 6 : ℕ)
      let k := carries r.passes (v - m * 2 ^ 32)
      (m = 0 ↔ v < 2 ^ 31) ∧ (o = 0 ↔ c.xtime.tsSec.toInt + k < 2 ^ 31) ∧
        (timerHandler c r).1.xtime.tsNsec.toInt = v - m * 2 ^ 32 - k * 10 ^ 9 ∧
        (timerHandler c r).1.xtime.nanoseconds =
          c.xtime.nanoseconds + (r.advance * 10 ^ 6 : ℕ) - m * 2 ^ 32 - o * 2 ^ 32 * 10 ^ 9 := by
  have ⟨_, _, _, hxtime, _⟩ := timerHandler_some hdepth hsome h.wall
  have hnonneg := h.nonneg
  have ⟨m, hm, hmiff⟩ := toInt_add_ofNat c.xtime.tsNsec (r.advance * 10 ^ 6) (by omega)
  have ⟨hnsec, hsec⟩ := carry_spec r.passes
    { c.xtime with tsNsec := c.xtime.tsNsec + BitVec.ofNat 32 (r.advance * 10 ^ 6) }
  simp only [hm] at hnsec hsec
  have hsecle := BitVec.le_toInt c.xtime.tsSec
  have ⟨o, ho, hoiff⟩ := toInt_add_ofNat c.xtime.tsSec
    (carries r.passes (c.xtime.tsNsec.toInt + (r.advance * 10 ^ 6 : ℕ) - m * 2 ^ 32)) (by omega)
  refine ⟨m, o, hmiff, hoiff, ?_, ?_⟩
  · rw [hxtime, hnsec]
  · rw [Timespec.nanoseconds, Timespec.nanoseconds, hxtime, hnsec, hsec, ho]
    ring

theorem carries_le (n : ℕ) {v : ℤ} (hv : 0 < v) : (carries n v : ℤ) * 10 ^ 9 ≤ v - 1 := by
  unfold carries
  omega

/-- Few enough ticks are counted as they are. -/
theorem nticks_of_lt (h : 1 + r.early < 2 ^ 32) :
    r.nticks ≠ 0 ∧ r.advance = 1 + r.early ∧ r.passes = 1 + r.early := by
  have htoNat : r.nticks.toNat = 1 + r.early := by
    rw [Interrupt.nticks, BitVec.toNat_ofNat, Nat.mod_eq_of_lt h]
  have hne : r.nticks ≠ 0 := by
    intro hzero
    rw [hzero] at htoNat
    have hpos : 0 = 1 + r.early := htoNat
    omega
  rw [Interrupt.advance, Interrupt.passes, if_neg hne, if_neg hne]
  exact ⟨hne, htoNat, htoNat⟩

/-- Where the clock has moved by all the ticks, none of them came too late, and nothing has overflowed. -/
theorem nothing_lost {m o mid late advance n : ℕ} (hle : advance ≤ n)
    (h : (mid + late) * 1000000 + m * 4294967296 + o * 4294967296000000000 = (advance - n) * (1000000 : ℤ)) :
    m = 0 ∧ o = 0 ∧ mid = 0 ∧ late = 0 ∧ advance = n := by
  refine ⟨?_, ?_, ?_, ?_, ?_⟩ <;> omega

/-- A run of the handler leaves a right clock right exactly when it is in time. -/
theorem run_right_iff (hdepth : c.timerDepth = 0) (h : ClockRight start c) :
    ClockRight start (timerHandler c r).1 ↔ InTime c r := by
  have htime := h.time
  have hnonneg := h.nonneg
  have hlt := h.lt
  rw [interval, one_mul] at htime
  by_cases hsome : r.current ≠ none
  · have ⟨harrived, hticks, hwall, _, _⟩ := timerHandler_some hdepth hsome h.wall
    have ⟨m, o, hm, ho, hnsec, htotal⟩ := run_time hdepth hsome h
    have hadv := advance_le r
    have hsum : c.sum r = c.xtime.tsNsec.toInt + (1 + r.early) * (10 ^ 6 : ℕ) := by
      rw [Clock.sum, interval, one_mul]
    constructor
    · intro ht
      have hright := ht.time
      have hin := ht.lt
      rw [htotal, harrived, htime, interval, one_mul, Interrupt.arriving] at hright
      push_cast at hright hadv hsum
      obtain ⟨rfl, rfl, hmid, hlate, hall⟩ :
          m = 0 ∧ o = 0 ∧ r.mid = 0 ∧ r.late = 0 ∧ r.advance = 1 + r.early :=
        nothing_lost hadv (by push_cast; linarith only [hright])
      have hv : c.xtime.tsNsec.toInt + (r.advance * 10 ^ 6 : ℕ) = c.sum r := by
        rw [hall, hsum]
        push_cast
        ring
      rw [hv] at hm ho hnsec
      have hfit := hm.mp rfl
      have hsec := ho.mp rfl
      rw [Nat.cast_zero, zero_mul, sub_zero] at hsec hnsec
      have hk := carries_le r.passes (v := c.sum r) (by omega)
      refine ⟨hsome, hmid, hlate, hfit, ?_, ?_⟩ <;> omega
    · rintro ⟨_, hmid, hlate, hfit, hwhole, hsec⟩
      push_cast at hsum
      have ⟨hne, hall, hpasses⟩ := nticks_of_lt (r := r) (by omega)
      have hv : c.xtime.tsNsec.toInt + (r.advance * 10 ^ 6 : ℕ) = c.sum r := by
        rw [hall, hsum]
        push_cast
        ring
      rw [hv] at hm ho hnsec
      obtain rfl := hm.mpr hfit
      rw [Nat.cast_zero, zero_mul, sub_zero, hpasses] at ho hnsec
      -- the loop makes as many passes as there are seconds to take off
      have hk : (carries (1 + r.early) (c.sum r) : ℤ) = c.sum r / 10 ^ 9 := by
        unfold carries
        omega
      rw [hk] at ho hnsec
      obtain rfl := ho.mpr hsec
      have harriving : r.arriving = 1 + r.early := by
        unfold Interrupt.arriving
        omega
      refine ⟨?_, by omega, by omega, ?_⟩
      · rw [htotal, harrived, harriving, hall, htime, interval]
        push_cast
        ring
      · rw [hwall hne, hticks, harriving, Interrupt.nticks]
        congr 1
        apply BitVec.eq_of_toNat_eq
        rw [BitVec.toNat_setWidth, BitVec.toNat_ofNat, BitVec.toNat_ofNat]
        omega
  · have hnone := not_not.mp hsome
    refine iff_of_false ?_ fun hin => hsome hin.1
    intro ht
    have ⟨hxtime, harrived⟩ := timerHandler_none (r := r) hdepth hnone
    have hright := ht.time
    rw [hxtime, harrived, htime, interval] at hright
    push_cast at hright
    omega

end

/-! ## Sequences of interrupts -/

/-- The clock is right after every run of the handler exactly when every run is in time. -/
theorem clock_right_iff (start : StartTime) (ticks : BitVec 64) (rs : List Interrupt) :
    KeepsAll interrupt (ClockRight start.time) (start.clock ticks) rs ↔
      AllCalls interrupt InTime (start.clock ticks) rs := by
  have hstart : ClockRight start.time (start.clock ticks) :=
    ⟨by simp [StartTime.clock], start.nonneg, start.lt, rfl⟩
  have hall : AllCalls interrupt (fun _ _ => True) (start.clock ticks) rs :=
    .of_forall (fun _ _ => trivial) _ rs
  refine keepsAll_iff_of_inv (fun c => ClockRight start.time c ∧ c.timerDepth = 0)
    (fun _ h => h.1) ?_ ?_ ⟨hstart, rfl⟩ rs hall
  · rintro c r ⟨h, hdepth⟩ _ hin
    exact ⟨_, rfl, (run_right_iff hdepth h).mpr hin, (timerHandler_some hdepth hin.1 h.wall).2.2.2.2⟩
  · rintro c r t ⟨h, hdepth⟩ _ hnot ht hright
    obtain rfl := Option.some.inj ht
    exact hnot ((run_right_iff hdepth h).mp hright)

/-- The clock shows 999 milliseconds, and one tick comes. -/
theorem clock_can_show_full_second :
    ¬ ∀ (start : StartTime) (ticks : BitVec 64) (rs : List Interrupt),
      (∀ r ∈ rs, r.current ≠ none) →
        KeepsAll interrupt (ClockRight start.time) (start.clock ticks) rs := by
  intro hall
  let start : StartTime := ⟨⟨0, 999000000⟩, by decide, by decide⟩
  let r : Interrupt := ⟨some ⟨0, 0, 0⟩, false, 0, 0, 0⟩
  have hkeeps := hall start 0 [r] fun r' hr' => by
    rw [List.mem_singleton.mp hr']
    exact Option.some_ne_none _
  have ⟨_, c, hc, hright⟩ := hkeeps
  obtain rfl := Option.some.inj hc
  have hnsec : (timerHandler (start.clock 0) r).1.xtime.tsNsec = 1000000000#32 := by decide +kernel
  have hlt := hright.lt
  rw [hnsec] at hlt
  exact absurd hlt (by decide)

end Shaunos.Timer
