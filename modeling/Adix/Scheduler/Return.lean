import Adix.Scheduler.Run

/-!
# The result of waiting for a process

`sys_sleep` returns what is in `wakeup_return` when the caller runs again, and every child that exits writes its id
there. If other tasks sleep on the same id, one of them may run before the parent, and be another child that exits.
-/

namespace Adix.Scheduler

open Option

variable {s s' : Sched} {t u c q : TaskId} {p : Pcb} {e : Event} {es : List Event} {n : Nat} {y : Returning}

/-- The id of the running process, if `t` is its parent and sleeps on that id. -/
def awaited (s : Sched) (t : TaskId) : Option Nat :=
  (getCurrentTask s).bind fun c => (s.pcb c).bind fun p =>
    if p.parent = some t ∧ t ∈ s.waitQueue ∧ descOf s t = some p.pid then some p.pid else none

/-- The scheduler with the id of the child that each task has been waiting for, from the exit of the child on until the
call of `sys_sleep` has returned. -/
structure Returning where
  sched : Sched
  due : TaskId → Option Nat

/-- The calls that are to return after an event: that of the parent of an exiting process, and those from before but
for the process that exits. -/
def dueAfter (y : Returning) (e : Event) (t : TaskId) : Option Nat :=
  if e = .exit then
    if getCurrentTask y.sched = some t then none
    else if (awaited y.sched t).isSome then awaited y.sched t
    else y.due t
  else y.due t

/-- An event of the scheduler, or `sys_sleep` returns in the running task, which may be preempted before, since
`switchTo` enables interrupts. -/
inductive ReturnEvent where
  | sched (e : Event)
  | returned
  deriving DecidableEq

def Returning.step (y : Returning) : ReturnEvent → Option Returning
  | .sched e => (Scheduler.step y.sched e).map fun s => ⟨s, dueAfter y e⟩
  | .returned => some { y with due := fun t => if getCurrentTask y.sched = some t then none else y.due t }

/-- A call that was woken up by the exit of the child, and that is about to return, returns the id of the child. -/
def ReturnsPid (y : Returning) : Prop :=
  ∀ t n, y.sched.stack = some t → y.due t = some n → ∃ p, y.sched.pcb t = some p ∧ p.wakeupReturn = n

def ReturnAllowed (y : Returning) : ReturnEvent → Prop
  | .sched e => Allowed y.sched e
  | .returned => True

instance (y : Returning) : ∀ e, Decidable (ReturnAllowed y e)
  | .sched e => inferInstanceAs (Decidable (Allowed y.sched e))
  | .returned => .isTrue trivial

/-- No process exits while its parent is on its way back from waiting for another one. -/
def NoOtherExit (y : Returning) (e : ReturnEvent) : Prop :=
  e = .sched .exit → ∀ c ∈ getCurrentTask y.sched, ∀ p ∈ y.sched.pcb c, ∀ q ∈ p.parent, y.due q = none

instance (y : Returning) (e : ReturnEvent) : Decidable (NoOtherExit y e) :=
  inferInstanceAs (Decidable (_ → ∀ c ∈ getCurrentTask y.sched, ∀ p ∈ y.sched.pcb c, ∀ q ∈ p.parent, _))

private theorem awaited_eq_some (h : awaited s t = some n) : ∃ c p, getCurrentTask s = some c ∧ s.pcb c = some p ∧
    p.parent = some t ∧ t ∈ s.waitQueue ∧ p.pid = n := by
  obtain ⟨c, hc, h⟩ := bind_eq_some_iff.1 h
  obtain ⟨p, hp, h⟩ := bind_eq_some_iff.1 h
  split at h
  · rename_i hw
    exact ⟨c, p, hc, hp, hw.1, hw.2.1, some.inj h⟩
  · cases h

structure ReturnInv (y : Returning) : Prop where
  inv : Inv y.sched
  due : ∀ t n, y.due t = some n → ∃ p, y.sched.pcb t = some p ∧ p.wakeupReturn = n

private theorem dueAfter_of_ne_exit (he : e ≠ .exit) (h : dueAfter y e t = some n) : y.due t = some n := by
  unfold dueAfter at h
  rwa [if_neg he] at h

private theorem Effect.wakeupReturn (h : Effect s e s') (hs : Inv s) (he : e ≠ .exit) (hp : s.pcb t = some p) :
    ∃ p', s'.pcb t = some p' ∧ p'.wakeupReturn = p.wakeupReturn := by
  cases h with
  | moves _ hm _ =>
    obtain ⟨d, r, hu⟩ := hm.pcb t
    rw [hp] at hu
    exact ⟨_, hu, rfl⟩
  | @fork _ u pu _ _ hf =>
    have hnew : t ≠ s.numTasks := by
      intro hc
      rw [hc, hs.pcb_numTasks] at hp
      cases hp
    have hpcb := hf.pcb t
    rw [if_neg hnew, hp] at hpcb
    exact ⟨_, hpcb, rfl⟩
  | exit hx _ => exact absurd hx he

/-- An exit writes to the parent of the exiting process only, which is not on its way back from another one. -/
theorem ReturnInv.exit (hy : ReturnInv y) (ha : Allowed y.sched .exit) (hn : NoOtherExit y (.sched .exit)) :
    ∃ y', y.step (.sched .exit) = some y' ∧ ReturnInv y' := by
  obtain ⟨s', c, p, hs', hinv, hx⟩ := exit_spec hy.inv ha
  refine ⟨⟨s', dueAfter y .exit⟩, by rw [Returning.step, hs']; rfl, hinv, fun t n hdue => ?_⟩
  change dueAfter y .exit t = some n at hdue
  unfold dueAfter at hdue
  rw [if_pos rfl] at hdue
  split at hdue
  · cases hdue
  rename_i hcur
  have htc : t ≠ c := fun h => hcur (h ▸ hx.current)
  split at hdue
  · -- the parent has been sleeping on the id
    obtain ⟨c', p', hc', hp', hpar, hwait, rfl⟩ := awaited_eq_some hdue
    cases hx.current.symm.trans hc'
    cases hx.pcb_eq.symm.trans hp'
    obtain ⟨pt, hpt⟩ := isSome_iff_exists.1 ((hy.inv.pcb_iff t).1 (mem_all_of_wait hwait))
    exact ⟨_, by rw [hx.pcb_other t htc, hpt]; rfl, if_pos hpar⟩
  · have hpar : p.parent ≠ some t := by
      intro hc
      rw [hn rfl c hx.current p hx.pcb_eq t hc] at hdue
      cases hdue
    obtain ⟨pt, hpt, hret⟩ := hy.due t n hdue
    exact ⟨_, by rw [hx.pcb_other t htc, hpt]; rfl, (if_neg hpar).trans hret⟩

/-- Each event keeps the ids that are to be returned. -/
private theorem ReturnInv.step (hy : ReturnInv y) {e : ReturnEvent} (ha : ReturnAllowed y e) (hn : NoOtherExit y e) :
    ∃ y', y.step e = some y' ∧ ReturnInv y' := by
  cases e with
  | sched e =>
    by_cases he : e = .exit
    · subst he
      exact hy.exit ha hn
    · obtain ⟨s', hs', hinv, heff⟩ := step_spec hy.inv ha
      refine ⟨⟨s', dueAfter y e⟩, by rw [Returning.step, hs']; rfl, hinv, fun t n hdue => ?_⟩
      obtain ⟨p, hp, hret⟩ := hy.due t n (dueAfter_of_ne_exit he hdue)
      obtain ⟨p', hp', heq⟩ := heff.wakeupReturn hy.inv he hp
      exact ⟨p', hp', heq.trans hret⟩
  | returned =>
    refine ⟨_, rfl, hy.inv, fun t n hdue => hy.due t n ?_⟩
    dsimp only at hdue
    split at hdue
    · cases hdue
    · exact hdue

/-- If no process exits while its parent is on its way back from waiting for another one, waiting for a process returns
its id. -/
theorem returns_pid (around : Nat → Int) (cr3 : Nat) (sh d : Uninit) :
    ∃ s₀, cooperativeSchedule (boot around) cr3 sh d = some s₀ ∧
      ∀ es, Permitted Returning.step (fun y e => ReturnAllowed y e ∧ NoOtherExit y e) ⟨s₀, fun _ => none⟩ es →
        ∃ y, run Returning.step ⟨s₀, fun _ => none⟩ es = some y ∧ ReturnsPid y := by
  obtain ⟨s₀, hs0, hstart⟩ := cooperativeSchedule_start around cr3 sh d
  refine ⟨s₀, hs0, fun es hes => ?_⟩
  have h0 : ReturnInv ⟨s₀, fun _ => none⟩ := ⟨hstart.inv, fun t n h => by cases h⟩
  obtain ⟨y, hy, hinv⟩ := run_invariant (fun y e hy ha => hy.step ha.1 ha.2) h0 hes
  exact ⟨y, hy, fun t n _ hdue => hinv.due t n hdue⟩

def waitedFor : List ReturnEvent :=
  [.sched .yield, .sched (.fork plainFork), .sched (.fork plainFork), .sched (.sleep 3),
  .sched .yield, .sched .exit, .sched .yield, .sched .yield, .sched .yield]

theorem returns_pid_child : ∃ y, run Returning.step ⟨plainStart, fun _ => none⟩ waitedFor = some y ∧
    y.sched.stack = some 0 ∧ y.due 0 = some 3 ∧ ReturnsPid y := by
  have hrun := at_plainStart (returns_pid (fun _ => 0) 0x1000 zeroed zeroed)
  obtain ⟨y, hy, hret⟩ := hrun waitedFor (by decide +kernel)
  have hcheck : ((run Returning.step ⟨plainStart, fun _ => none⟩ waitedFor).any fun y =>
      decide (y.sched.stack = some 0 ∧ y.due 0 = some 3)) = true := by
    decide +kernel
  rw [hy] at hcheck
  obtain ⟨hstack, hdue⟩ := of_decide_eq_true hcheck
  exact ⟨y, hy, hstack, hdue, hret⟩

/-- The shell forks twice and waits for its first child; the second child waits for the first one too, and exits before
the shell runs. -/
theorem returns_other_pid : ∃ es y, Permitted Returning.step ReturnAllowed ⟨plainStart, fun _ => none⟩ es ∧
    run Returning.step ⟨plainStart, fun _ => none⟩ es = some y ∧ ¬ ReturnsPid y := by
  obtain ⟨y, hy, hstack, hdue, hret⟩ : ∃ y ∈ run Returning.step ⟨plainStart, fun _ => none⟩ [.sched .yield,
      .sched (.fork plainFork),
      .sched (.fork plainFork), .sched (.sleep 3), .sched (.sleep 3), .sched .exit, .sched .exit],
      y.sched.stack = some 0 ∧ y.due 0 = some 3 ∧ (y.sched.pcb 0).map Pcb.wakeupReturn = some 4 := by
    decide +kernel
  refine ⟨_, y, by decide +kernel, hy, fun h => ?_⟩
  obtain ⟨p, hp, hp3⟩ := h 0 3 hstack hdue
  rw [hp, map_some, hp3] at hret
  exact absurd (some.inj hret) (by decide)

end Adix.Scheduler
