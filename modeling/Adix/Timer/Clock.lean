import Adix.Scheduler.Run

/-!
# The clock (`sys/timer/timer.c`)

Every 100 ticks `timer_handler` switches to another task in its middle, after it has counted the tick and before it
looks whether a second is over. The rest runs when the interrupted task is scheduled again, and looks at the ticks
reached by then, so a second can be lost or counted twice.
-/

namespace Adix.Timer

open Scheduler Option

def pitClockHz : Nat := 1000

/-- The variables of the clock. `advanced` counts how often `time_sec` has been advanced. -/
structure Clock where
  timerTicks : Nat
  timeSec : BitVec 32
  timeMin : BitVec 32
  timeHour : BitVec 32
  advanced : Nat
  deriving DecidableEq

def Clock.nextSecond (c : Clock) : Clock :=
  let c := { c with timeSec := c.timeSec + 1, advanced := c.advanced + 1 }
  if c.timeSec = 60 then
    let c := { c with timeSec := 0, timeMin := c.timeMin + 1 }
    if c.timeMin = 60 then { c with timeMin := 0, timeHour := c.timeHour + 1 } else c
  else c

/-- The part of `timer_handler` behind `switch_context`. -/
def Clock.finish (c : Clock) : Clock :=
  if c.timerTicks % pitClockHz = 0 then Clock.nextSecond { c with timerTicks := 0 } else c

/-- The clock with the scheduler: the tasks that are in the middle of the handler, and the number of interrupts so far.
-/
structure State where
  sched : Sched
  clock : Clock
  suspended : TaskId → Bool
  interrupts : Nat

def State.resume (y : State) : State :=
  match y.sched.stack with
  | some t =>
    if y.suspended t then
      { y with clock := y.clock.finish, suspended := fun u => if u = t then false else y.suspended u }
    else y
  | none => y

/-- `timer_handler`, up to the end or to the switch to another task. -/
def timerHandler (y : State) : Option State := do
  let clock := { y.clock with timerTicks := y.clock.timerTicks + 1 }
  let sched ← sysWakeupTimer y.sched
  let suspended := fun u => if sched.stack = some u then true else y.suspended u
  let sched ← if clock.timerTicks % 100 = 0 then sysYield sched else some sched
  return ⟨sched, clock, suspended, y.interrupts + 1⟩

/-- What can happen: a timer interrupt, or an event of the scheduler. -/
inductive TimerEvent where
  | interrupt
  | task (e : Event)
  deriving DecidableEq

def State.step (y : State) : TimerEvent → Option State
  | .interrupt => (timerHandler y).map State.resume
  | .task e => (Scheduler.step y.sched e).map fun s => State.resume { y with sched := s }

def State.start (s : Sched) : State := ⟨s, ⟨0, 0, 0, 0, 0⟩, fun _ => false, 0⟩

open State (start resume)

def CountsSeconds (y : State) : Prop := y.clock.advanced = y.interrupts / pitClockHz

def TimerAllowed (y : State) : TimerEvent → Prop
  | .interrupt => Allowed y.sched .tick
  | .task e => Allowed y.sched e

instance (y : State) : ∀ e, Decidable (TimerAllowed y e)
  | .interrupt => inferInstanceAs (Decidable (Allowed y.sched .tick))
  | .task e => inferInstanceAs (Decidable (Allowed y.sched e))

/-- At the end of a second the timer goes on with the same task or switches to one in the middle of the handler, and no
such task is scheduled by an event before the next tick. -/
def InStep (y : State) : TimerEvent → Prop
  | .interrupt => (y.clock.timerTicks + 1) % pitClockHz = 0 →
      ∀ s ∈ sysWakeupTimer y.sched, ∀ t ∈ getNextTask s, s.stack = some t ∨ y.suspended t = true
  | .task e => y.clock.timerTicks % pitClockHz = 0 → ∀ s ∈ Scheduler.step y.sched e, ∀ t ∈ s.stack,
    y.suspended t = false

instance (y : State) : ∀ e, Decidable (InStep y e)
  | .interrupt => inferInstanceAs (Decidable (_ → ∀ s ∈ sysWakeupTimer y.sched, ∀ t ∈ getNextTask s, _ ∨ _))
  | .task e => inferInstanceAs (Decidable (_ → ∀ s ∈ Scheduler.step y.sched e, ∀ t ∈ s.stack, _))

variable {y y' : State} {s s' : Sched} {t : TaskId} {e : Event} {c : Clock}

structure ClockInv (y : State) : Prop where
  inv : Inv y.sched
  ticks : y.clock.timerTicks < pitClockHz
  count : y.interrupts = pitClockHz * y.clock.advanced + y.clock.timerTicks

private theorem ClockInv.counts (h : ClockInv y) : CountsSeconds y := by
  have h1 := h.ticks
  have h2 := h.count
  unfold CountsSeconds
  rw [h2, Nat.mul_add_div (by decide), Nat.div_eq_of_lt h1, Nat.add_zero]

private theorem nextSecond_eq (c : Clock) :
    c.nextSecond.timerTicks = c.timerTicks ∧ c.nextSecond.advanced = c.advanced + 1 := by
  unfold Clock.nextSecond
  dsimp only
  split
  · split
    · exact ⟨rfl, rfl⟩
    · exact ⟨rfl, rfl⟩
  · exact ⟨rfl, rfl⟩

private theorem finish_of_ne (h : c.timerTicks % pitClockHz ≠ 0) : c.finish = c := if_neg h

private theorem finish_second (h : c.timerTicks = pitClockHz) :
    c.finish.timerTicks = 0 ∧ c.finish.advanced = c.advanced + 1 := by
  unfold Clock.finish
  rw [if_pos (by rw [h]; decide)]
  exact nextSecond_eq _

private theorem resume_sched (y : State) : y.resume.sched = y.sched ∧ y.resume.interrupts = y.interrupts := by
  unfold resume
  split
  · split
    · exact ⟨rfl, rfl⟩
    · exact ⟨rfl, rfl⟩
  · exact ⟨rfl, rfl⟩

private theorem resume_clock_of_ne (h : y.clock.timerTicks % pitClockHz ≠ 0) : y.resume.clock = y.clock := by
  unfold resume
  split
  · split
    · exact finish_of_ne h
    · rfl
  · rfl

private theorem resume_clock_of_idle (h : ∀ t ∈ y.sched.stack, y.suspended t = false) : y.resume.clock = y.clock := by
  unfold resume
  split
  · rename_i t ht
    rw [h t ht]
    rfl
  · rfl

private theorem resume_clock_of_suspended (ht : y.sched.stack = some t) (h : y.suspended t = true) :
    y.resume.clock = y.clock.finish := by
  unfold resume
  rw [ht]
  dsimp only
  rw [if_pos h]

private theorem ClockInv.task (hy : ClockInv y) (ha : Allowed y.sched e) (hin : InStep y (.task e)) :
    ∃ y', y.step (.task e) = some y' ∧ ClockInv y' := by
  obtain ⟨s', hs', hinv, -⟩ := step_spec hy.inv ha
  refine ⟨resume { y with sched := s' }, by rw [State.step, hs']; rfl, ?_⟩
  obtain ⟨hsched, hint⟩ := resume_sched { y with sched := s' }
  have hclock : (resume { y with sched := s' }).clock = y.clock := by
    by_cases hz : y.clock.timerTicks % pitClockHz = 0
    · exact resume_clock_of_idle (hin hz s' hs')
    · exact resume_clock_of_ne hz
  exact ⟨by rw [hsched]; exact hinv, by rw [hclock]; exact hy.ticks, by rw [hint, hclock]; exact hy.count⟩

/-- A timer interrupt counts the tick, wakes sleepers, and every 100 ticks switches to another task. -/
private theorem timerHandler_spec (hs : Inv y.sched) (ha : Allowed y.sched .tick) :
    ∃ s1 y', sysWakeupTimer y.sched = some s1 ∧ timerHandler y = some y' ∧ Inv y'.sched ∧
      y'.clock = { y.clock with timerTicks := y.clock.timerTicks + 1 } ∧ y'.interrupts = y.interrupts + 1 ∧
      (∀ u, y'.suspended u = if s1.stack = some u then true else y.suspended u) ∧
      if (y.clock.timerTicks + 1) % 100 = 0 then getNextTask s1 = y'.sched.stack else y'.sched = s1 := by
  obtain ⟨s1, hs1, hinv, -⟩ := step_spec hs ha
  have hs1 : sysWakeupTimer y.sched = some s1 := hs1
  by_cases hswitch : (y.clock.timerTicks + 1) % 100 = 0
  · obtain ⟨s2, hs2, hy⟩ := hinv.toCore.yields
    obtain ⟨s3, hs3, hinv3, -⟩ := yield_effect hinv
    obtain rfl : s2 = s3 := some.inj (hs2.symm.trans hs3)
    obtain ⟨x, l, hrun, -, hstack⟩ := hy.run
    refine ⟨s1, ⟨s2, { y.clock with timerTicks := y.clock.timerTicks + 1 },
      fun u => if s1.stack = some u then true else y.suspended u, y.interrupts + 1⟩, hs1, ?_, hinv3, rfl, rfl,
      fun _ => rfl, ?_⟩
    · simp [timerHandler, hs1, hs2, hswitch]
    · rw [if_pos hswitch, hstack, getNextTask, hrun]
      rfl
  · refine ⟨s1, ⟨s1, { y.clock with timerTicks := y.clock.timerTicks + 1 },
      fun u => if s1.stack = some u then true else y.suspended u, y.interrupts + 1⟩, hs1, ?_, hinv, rfl, rfl,
      fun _ => rfl, ?_⟩
    · simp [timerHandler, hs1, hswitch]
    · rw [if_neg hswitch]

private theorem ClockInv.interrupt (hy : ClockInv y) (ha : Allowed y.sched .tick) (hin : InStep y .interrupt) :
    ∃ y', y.step .interrupt = some y' ∧ ClockInv y' := by
  obtain ⟨s1, y1, hs1, hh, hinv, hclock, hint, hsus, hnext⟩ := timerHandler_spec hy.inv ha
  have hticks := hy.ticks
  have hcount := hy.count
  have hhz : pitClockHz = 1000 := rfl
  have hticks1 : y1.clock.timerTicks = y.clock.timerTicks + 1 := by rw [hclock]
  have hadv1 : y1.clock.advanced = y.clock.advanced := by rw [hclock]
  obtain ⟨hsched, hint'⟩ := resume_sched y1
  refine ⟨y1.resume, by rw [State.step, hh]; rfl, ?_⟩
  by_cases hend : y.clock.timerTicks + 1 = pitClockHz
  · -- the second is over, and the task that runs now is in the middle of the handler
    rw [if_pos (by rw [hend]; decide)] at hnext
    obtain ⟨t, -, ht, -, -⟩ := hinv.exists_current
    rw [hinv.getCurrentTask] at ht
    have hsuspended : y1.suspended t = true := by
      rw [hsus]
      rcases hin (by rw [hend]; decide) s1 hs1 t (hnext.trans ht) with h | h
      · rw [if_pos h]
      · split
        · rfl
        · exact h
    obtain ⟨hzero, hadv⟩ := finish_second (hticks1.trans hend)
    have hres := resume_clock_of_suspended ht hsuspended
    refine ⟨by rw [hsched]; exact hinv, by rw [hres, hzero]; decide, ?_⟩
    rw [hres, hhz]
    rw [hhz] at hcount hend
    omega
  · have hres : y1.resume.clock = y1.clock := resume_clock_of_ne (by rw [hhz]; omega)
    refine ⟨by rw [hsched]; exact hinv, by rw [hres]; omega, ?_⟩
    rw [hres, hadv1]
    omega

/-- The time is the number of seconds counted, in hours, minutes and seconds. -/
structure Clock.Reads (c : Clock) : Prop where
  sec : c.timeSec.toNat = c.advanced % 60
  min : c.timeMin.toNat = c.advanced / 60 % 60
  hour : c.timeHour.toNat = c.advanced / 3600 % 2 ^ 32

private theorem Clock.Reads.nextSecond (h : c.Reads) : c.nextSecond.Reads := by
  obtain ⟨hsec, hmin, hhour⟩ := h
  unfold Clock.nextSecond
  dsimp only
  split
  · split
    · constructor <;> dsimp only <;> bv_omega
    · constructor <;> dsimp only <;> bv_omega
  · constructor <;> dsimp only <;> bv_omega

private theorem resume_reads (h : y.clock.Reads) : y.resume.clock.Reads := by
  unfold resume
  split
  · split
    · unfold Clock.finish
      split
      · exact Clock.Reads.nextSecond ⟨h.sec, h.min, h.hour⟩
      · exact h
    · exact h
  · exact h

/-- Each event keeps the time right. -/
private theorem step_reads {e : TimerEvent} (h : y.clock.Reads) (hs : y.step e = some y') : y'.clock.Reads := by
  cases e with
  | interrupt =>
    obtain ⟨y1, h1, rfl⟩ := map_eq_some_iff.1 hs
    obtain ⟨s1, -, h1⟩ := bind_eq_some_iff.1 h1
    split at h1
    · obtain ⟨s2, -, h1⟩ := bind_eq_some_iff.1 h1
      cases h1
      exact resume_reads ⟨h.sec, h.min, h.hour⟩
    · cases h1
      exact resume_reads ⟨h.sec, h.min, h.hour⟩
  | task e =>
    obtain ⟨s1, -, rfl⟩ := map_eq_some_iff.1 hs
    exact resume_reads h

private theorem run_reads {es : List TimerEvent} (h : y.clock.Reads) (hrun : run State.step y es = some y') :
    y'.clock.Reads := by
  induction es generalizing y with
  | nil =>
    cases hrun
    exact h
  | cons e es ih =>
    obtain ⟨y1, h1, hrun⟩ := bind_eq_some_iff.1 hrun
    exact ih (step_reads h h1) hrun

/-- Whatever the schedule, and whether seconds are lost or not, the time is right for the seconds that have been
counted. -/
theorem clock_reads (s : Sched) (es : List TimerEvent) (y : State) (hrun : run State.step (start s) es = some y) :
    y.clock.Reads :=
  run_reads (by constructor <;> simp [start]) hrun

theorem clock_reads_tick : ∃ y, run State.step (start plainStart) [.interrupt, .task .yield] = some y ∧ y.clock.Reads :=
  ⟨_, rfl, clock_reads plainStart [.interrupt, .task .yield] _ rfl⟩

end Adix.Timer
