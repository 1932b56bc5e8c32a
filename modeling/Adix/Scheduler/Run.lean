import Adix.Scheduler.Lifecycle

/-!
# Runs of the scheduler

An event moves tasks between the queues, or it is a fork or an exit. From this follow the invariant of the queues and
everything that the other modules say about runs.
-/

namespace Adix.Scheduler

open List Option

variable {s s' : Sched} {t u : TaskId} {p x : Pcb} {m : List TaskId} {e : Event} {es : List Event}
  {around : Nat → Int} {cr3 : Nat} {sh d : Uninit}

def elapsed (s : Sched) : List TaskId := (countDown s).waitTimerQueue.filter (waitsFor (countDown s) timerElapsed)

/-- An event that can happen: a fork gets its memory within the limit, the daemon neither sleeps nor exits, and no more
than `MAX_WAIT_PROC` tasks are woken up at once. -/
def Allowed (s : Sched) : Event → Prop
  | .yield => True
  | .fork env => ∀ t ∈ getCurrentTask s, ∀ p ∈ s.pcb t, env.Succeeds p ∧ s.noproc + 1 ≤ s.rlimitNproc
  | .exit => ∀ t ∈ getCurrentTask s, ∀ p ∈ s.pcb t, t ≠ daemon ∧ (wokenByExit s p).length ≤ maxWaitProc
  | .sleep _ => getCurrentTask s ≠ some daemon
  | .sleepTimer k => 0 < k → getCurrentTask s ≠ some daemon
  | .wakeup d => (waiting s d).length ≤ maxWaitProc
  | .tick => (elapsed s).length ≤ maxWaitProc
  | .setrlimit _ => True

instance (s : Sched) : ∀ e, Decidable (Allowed s e)
  | .yield => .isTrue trivial
  | .fork _ => inferInstanceAs (Decidable (∀ t ∈ getCurrentTask s, ∀ p ∈ s.pcb t, _ ∧ _))
  | .exit => inferInstanceAs (Decidable (∀ t ∈ getCurrentTask s, ∀ p ∈ s.pcb t, _ ∧ _))
  | .sleep _ => inferInstanceAs (Decidable (_ ≠ _))
  | .sleepTimer _ => inferInstanceAs (Decidable (_ → _))
  | .wakeup _ => inferInstanceAs (Decidable (_ ≤ _))
  | .tick => inferInstanceAs (Decidable (_ ≤ _))
  | .setrlimit _ => .isTrue trivial

structure Waits (s : Sched) (e : Event) (s' : Sched) : Prop where
  now : ∀ u ∈ s'.waitQueue, u ∈ s.waitQueue ∧ descOf s' u = descOf s u ∨
    ∃ d, e = .sleep d ∧ getCurrentTask s = some u ∧ descOf s' u = some d
  woken : ∀ u ∈ s.waitQueue, u ∉ s'.waitQueue → ∃ d, e = .wakeup d ∧ descOf s u = some d

/-- What an event can do. -/
inductive Effect (s : Sched) (e : Event) (s' : Sched) : Prop
  | moves (hne : ∀ env, e ≠ .fork env) (h : Moves s s') (hw : Waits s e s')
  | fork {env : ForkEnv} {t : TaskId} {p x : Pcb} (he : e = .fork env) (h : Forked s s' t p x)
  | exit {t : TaskId} {p : Pcb} (he : e = .exit) (h : Exited s s' t p)

private theorem Waits.of_eq (hq : s'.waitQueue = s.waitQueue) (hd : ∀ u ∈ s.waitQueue, descOf s' u = descOf s u) :
    Waits s e s' where
  now u hu := Or.inl ⟨hq ▸ hu, hd u (hq ▸ hu)⟩
  woken _ hu hu' := absurd (hq ▸ hu) hu'

private theorem Inv.of_moves (hs : Inv s) (h : Moves s s') (hd : daemon ∈ s'.runQueue)
    (hlast : s'.runQueue.getLast? = s'.stack) : Inv s' where
  toCore := h.core hs.toCore hd
  terminated := h.terminated.trans hs.terminated
  current := hlast

private theorem Inv.woken (hs : Inv s) (hm : m.Nodup) (hsub : ∀ u ∈ m, u ∈ s.waitQueue ∨ u ∈ s.waitTimerQueue) :
    Inv (Scheduler.woken m s) :=
  hs.of_moves (moves_woken hs.queued hm hsub) (mem_run_woken hs.queued hsub hs.daemon)
    ((getLast_woken hs.queued hsub hs.run_ne_nil).trans hs.current)

/-- What `sys_yield` does to the queues. -/
theorem yield_effect (hs : Inv s) : ∃ s', sysYield s = some s' ∧ Inv s' ∧ Effect s .yield s' := by
  obtain ⟨s', hs', hy⟩ := hs.toCore.yields
  have hmoves := hy.moves hs.terminated
  refine ⟨s', hs', hy.inv hs.toCore (by rw [hs.terminated]; rfl) (by simp [hs.terminated]), .moves (by simp) hmoves ?_⟩
  refine Waits.of_eq hy.wait fun u _ => ?_
  unfold descOf
  rw [hy.pcb u, getTerminatedTask, hs.terminated]
  rfl

private theorem sleep_effect (hs : Inv s) {d : Nat} (hd : getCurrentTask s ≠ some daemon) :
    ∃ s', sysSleep s d = some s' ∧ Inv s' ∧ Effect s (.sleep d) s' := by
  obtain ⟨t, p, ht, hp, hrun⟩ := hs.exists_current
  have htd : t ≠ daemon := fun h => hd (h ▸ ht)
  obtain ⟨s', hs', hinv, hmoves, hwait, hself, hother⟩ := sysSleep_spec hs ht htd d
  refine ⟨s', hs', hinv, .moves (by simp) hmoves ⟨fun u hu => ?_, fun u hu hu' => ?_⟩⟩
  · rw [hwait] at hu
    rcases mem_cons.1 hu with rfl | hu
    · exact Or.inr ⟨d, rfl, ht, by rw [descOf, hself, hp]; rfl⟩
    · have hut : u ≠ t := fun h => hs.queued.run_wait hrun (h ▸ hu)
      exact Or.inl ⟨hu, by rw [descOf, hother u hut, descOf]⟩
  · rw [hwait] at hu'
    exact absurd (mem_cons_of_mem _ hu) hu'

private theorem sleepTimer_effect (hs : Inv s) {k : Int} (hd : 0 < k → getCurrentTask s ≠ some daemon) :
    ∃ s', sysSleepTimer s k = some s' ∧ Inv s' ∧ Effect s (.sleepTimer k) s' := by
  by_cases hk : 0 < k
  · obtain ⟨t, p, ht, -⟩ := hs.exists_current
    have htd : t ≠ daemon := fun h => hd hk (h ▸ ht)
    obtain ⟨s', hs', hinv, hmoves, hwait, hdesc⟩ := sysSleepTimer_spec hs ht hk htd
    exact ⟨s', hs', hinv, .moves (by simp) hmoves (Waits.of_eq hwait fun u _ => hdesc u)⟩
  · have hself : Moves s s := moves_self
    exact ⟨s, if_pos (by omega), hs, .moves (by simp) hself (Waits.of_eq rfl fun _ _ => rfl)⟩

/-- What `sys_wakeup` does to them. -/
theorem wakeup_effect (hs : Inv s) {d : Nat} (hm : (waiting s d).length ≤ maxWaitProc) :
    ∃ s', (sysWakeup s d).map Prod.fst = some s' ∧ Inv s' ∧ Effect s (.wakeup d) s' := by
  have hnd : (waiting s d).Nodup := hs.queued.wait.filter _
  have hsub : ∀ u ∈ waiting s d, u ∈ s.waitQueue ∨ u ∈ s.waitTimerQueue := fun u hu => Or.inl (waiting_subset u hu)
  refine ⟨Scheduler.woken (waiting s d) s, by rw [sysWakeup_eq hs.queued hm]; rfl, hs.woken hnd hsub,
    .moves (by simp) (moves_woken hs.queued hnd hsub) ⟨fun u hu => Or.inl ?_, fun u hu hu' => ?_⟩⟩
  · obtain ⟨hu, hum⟩ := mem_filter.1 hu
    refine ⟨hu, ?_⟩
    simp only [decide_eq_true_eq] at hum
    rw [descOf, woken_of_not_mem hum, descOf]
  · have hum : u ∈ waiting s d := by
      by_contra hum
      exact hu' (mem_filter.2 ⟨hu, by simpa using hum⟩)
    obtain ⟨-, p, hp, hd⟩ := mem_waiting.1 hum
    exact ⟨d, rfl, by rw [descOf, hp, map_some, hd]⟩

theorem countDown_eq (h : Queued s) : countDown s =
    { s with pcb := fun u => if u ∈ s.waitTimerQueue then (s.pcb u).map fun p =>
        { p with sleepTimeRem := p.sleepTimeRem - 1
                 waitDesc := if p.sleepTimeRem - 1 = 0 then timerElapsed else p.waitDesc } else s.pcb u } :=
  foldl_update (Or.inl h.timer)

theorem moves_countDown (h : Queued s) : Moves s (countDown s) := by
  rw [countDown_eq h]
  exact
    { perm := .refl _
      terminated := rfl
      pcb := fun u => by
        dsimp only
        cases s.pcb u with
        | none => exact ⟨0, 0, by simp⟩
        | some p =>
          split
          · exact ⟨_, _, rfl⟩
          · exact ⟨p.waitDesc, p.sleepTimeRem, rfl⟩
      noproc := rfl
      numTasks := rfl
      prep := rfl
      pidArray := rfl }

/-- A tick counts down and wakes the tasks whose time has elapsed. -/
theorem sysWakeupTimer_eq (h : Queued s) (hm : (elapsed s).length ≤ maxWaitProc) :
    sysWakeupTimer s = some (woken (elapsed s) (countDown s)) := by
  have hq : Queued (countDown s) := (moves_countDown h).perm.nodup_iff.2 h
  unfold sysWakeupTimer
  dsimp only
  rw [sysWakeupQueue_eq hq hq.timer hm]
  rfl

private theorem tick_effect (hs : Inv s) (hm : (elapsed s).length ≤ maxWaitProc) :
    ∃ s', sysWakeupTimer s = some s' ∧ Inv s' ∧ Effect s .tick s' := by
  have hcount := countDown_eq hs.queued
  have hmoves := moves_countDown hs.queued
  have hrun : (countDown s).runQueue = s.runQueue := by rw [hcount]
  have hwait : (countDown s).waitQueue = s.waitQueue := by rw [hcount]
  have hstack : (countDown s).stack = s.stack := by rw [hcount]
  have hinv : Inv (countDown s) := hs.of_moves hmoves (hrun ▸ hs.daemon) (by rw [hrun, hstack]; exact hs.current)
  have hnd : (elapsed s).Nodup := hinv.queued.timer.filter _
  have htimer : ∀ u ∈ elapsed s, u ∈ (countDown s).waitTimerQueue := fun u hu => (mem_filter.1 hu).1
  have hsub : ∀ u ∈ elapsed s, u ∈ (countDown s).waitQueue ∨ u ∈ (countDown s).waitTimerQueue :=
    fun u hu => Or.inr (htimer u hu)
  have hkept : ∀ u ∈ s.waitQueue, u ∉ elapsed s := fun u hu hue =>
    hinv.queued.wait_timer (hwait ▸ hu) (htimer u hue)
  refine ⟨Scheduler.woken (elapsed s) (countDown s), sysWakeupTimer_eq hs.queued hm, hinv.woken hnd hsub,
    .moves (by simp) (hmoves.trans (moves_woken hinv.queued hnd hsub)) (Waits.of_eq ?_ fun u hu => ?_)⟩
  · show (countDown s).waitQueue.filter (· ∉ elapsed s) = _
    rw [hwait]
    exact filter_not_mem_eq_self hkept
  · have hut : u ∉ s.waitTimerQueue := hs.queued.wait_timer hu
    rw [descOf, woken_of_not_mem (hkept u hu), hcount, descOf]
    dsimp only
    rw [if_neg hut]

/-- What an event does, and that it can always be carried out. -/
theorem step_spec (hs : Inv s) (ha : Allowed s e) : ∃ s', step s e = some s' ∧ Inv s' ∧ Effect s e s' := by
  obtain ⟨t, p, ht, hp, -⟩ := hs.exists_current
  cases e with
  | yield => exact yield_effect hs
  | fork env =>
    obtain ⟨henv, hlim⟩ := ha t ht p hp
    obtain ⟨s', x, hs', hf⟩ := sysFork_spec hs ht hp henv hlim
    exact ⟨s', by rw [step, hs']; rfl, hf.inv hs, .fork rfl hf⟩
  | exit =>
    obtain ⟨hd, hm⟩ := ha t ht p hp
    obtain ⟨s', hs', hinv, hx⟩ := sysExit_spec hs ht hp hd hm
    exact ⟨s', hs', hinv, .exit rfl hx⟩
  | sleep d => exact sleep_effect hs ha
  | sleepTimer k => exact sleepTimer_effect hs ha
  | wakeup d => exact wakeup_effect hs ha
  | tick => exact tick_effect hs ha
  | setrlimit n =>
    show ∃ s', some (sysSetrlimit s n) = some s' ∧ _
    unfold sysSetrlimit
    split
    · exact ⟨s, rfl, hs, .moves (by simp) moves_self (Waits.of_eq rfl fun _ _ => rfl)⟩
    · have hmoves : Moves s { s with rlimitNproc := n } := { (moves_self : Moves s s) with }
      exact ⟨_, rfl, hs.of_moves hmoves hs.daemon hs.current, .moves (by simp) hmoves (Waits.of_eq rfl fun _ _ => rfl)⟩

/-- The current task can exit, and is gone then. -/
theorem exit_spec (hs : Inv s) (ha : Allowed s .exit) :
    ∃ s' t p, step s .exit = some s' ∧ Inv s' ∧ Exited s s' t p := by
  obtain ⟨t, p, ht, hp, -⟩ := hs.exists_current
  obtain ⟨hd, hm⟩ := ha t ht p hp
  obtain ⟨s', hs', hinv, hx⟩ := sysExit_spec hs ht hp hd hm
  exact ⟨s', t, p, hs', hinv, hx⟩

/-- The state in which `cooperative_schedule` switches to the first task. -/
private def firstTasks (around : Nat → Int) (cr3 : Nat) (sh d : Uninit) : Sched where
  pcb := fun u =>
    if u = 1 then some ⟨2, none, none, d.wakeupReturn, [], .ready, .kthread, d.cr3Content, d.waitDesc, d.sleepTimeRem⟩
    else if u = 0 then
      some ⟨1, some "bin/adsh", none, sh.wakeupReturn, [], .ready, .uproc, cr3, sh.waitDesc, sh.sleepTimeRem⟩
    else none
  numTasks := 2
  runQueue := [1, 0]
  terminatedQueue := []
  waitQueue := []
  waitTimerQueue := []
  noproc := 2
  prepTask := none
  pidArray := fun i => if i = 2 then 1 else if i = 1 then 1 else if i < ulimit then 0 else around i
  rlimitNproc := rlimitNprocMax
  stack := none
  cr3 := cr3

private theorem firstTasks_pcb (hp : (firstTasks around cr3 sh d).pcb u = some p) :
    (u = 0 ∧ p.pid = 1 ∨ u = 1 ∧ p.pid = 2) ∧ p.parent = none ∧ p.children = [] ∧ p.state = .ready := by
  unfold firstTasks at hp
  dsimp only at hp
  split at hp
  · cases hp
    exact ⟨Or.inr ⟨‹_›, rfl⟩, rfl, rfl, rfl⟩
  · split at hp
    · cases hp
      exact ⟨Or.inl ⟨‹_›, rfl⟩, rfl, rfl, rfl⟩
    · cases hp

private theorem core_firstTasks (around : Nat → Int) (cr3 : Nat) (sh d : Uninit) :
    Core (firstTasks around cr3 sh d) where
  queued := by
    show ([1, 0] : List TaskId).Nodup
    decide
  pcb_iff u := by
    show u ∈ [1, 0] ↔ _
    unfold firstTasks
    by_cases h1 : u = 1
    · simp [h1]
    · by_cases h0 : u = 0
      · simp [h0]
      · simp [h0, h1]
  state hp := by simp [(firstTasks_pcb hp).2.2.2, firstTasks]
  noproc := rfl
  fresh {u} hu := by
    obtain ⟨p, hp⟩ := isSome_iff_exists.1 hu
    rcases (firstTasks_pcb hp).1 with ⟨hu, -⟩ | ⟨hu, -⟩
    · rw [hu]
      exact Nat.zero_lt_two
    · rw [hu]
      exact Nat.one_lt_two
  prep := rfl
  daemon := mem_cons_self
  parent _ hp hq := by rw [(firstTasks_pcb hp).2.1] at hq; cases hq
  child _ hp hc := by rw [(firstTasks_pcb hp).2.2.1] at hc; cases hc
  bound hp hc := by rw [(firstTasks_pcb hp).2.2.1] at hc; cases hc

structure Start (around : Nat → Int) (s : Sched) : Prop where
  inv : Inv s
  pids : ∀ {u p}, s.pcb u = some p → u = 0 ∧ p.pid = 1 ∨ u = 1 ∧ p.pid = 2
  shell : ∃ p, s.pcb 0 = some p ∧ p.pid = 1
  daemon : ∃ p, s.pcb 1 = some p ∧ p.pid = 2
  pidArray : ∀ i, s.pidArray i = if i = 1 ∨ i = 2 then 1 else if i < ulimit then 0 else around i
  wait : s.waitQueue = []
  limit : s.rlimitNproc = rlimitNprocMax
  noproc : s.noproc = 2
  numTasks : s.numTasks = 2

/-- `cooperative_schedule` makes two tasks and runs the first one. -/
theorem cooperativeSchedule_start (around : Nat → Int) (cr3 : Nat) (sh d : Uninit) :
    ∃ s, cooperativeSchedule (boot around) cr3 sh d = some s ∧ Start around s := by
  have hcore := core_firstTasks around cr3 sh d
  obtain ⟨s, hs, hy⟩ := hcore.yields
  have hpcb : ∀ u, s.pcb u = (firstTasks around cr3 sh d).pcb u := fun u => by rw [hy.pcb u]; rfl
  refine ⟨s, hs, hy.inv hcore rfl (by simp [firstTasks]), fun {u p} hp => ?_, ⟨_, hpcb 0, rfl⟩, ⟨_, hpcb 1, rfl⟩,
    fun i => ?_, hy.wait, hy.limit, hy.noproc, hy.numTasks⟩
  · rw [hpcb] at hp
    exact (firstTasks_pcb hp).1
  · have : s.pidArray i = (firstTasks around cr3 sh d).pidArray i := by rw [hy.pidArray i]; rfl
    rw [this]
    unfold firstTasks
    by_cases h1 : i = 1
    · simp [h1]
    · by_cases h2 : i = 2
      · simp [h2]
      · simp [h1, h2]

theorem cooperativeSchedule_children
    (h : cooperativeSchedule (boot around) cr3 sh d = some s) (hp : s.pcb u = some p) : p.children = [] := by
  obtain ⟨s', hs', hy⟩ := (core_firstTasks around cr3 sh d).yields
  obtain rfl : s' = s := some.inj (hs'.symm.trans h)
  rw [hy.pcb u] at hp
  exact (firstTasks_pcb hp).2.2.1

theorem cooperativeSchedule_waitDesc (h : cooperativeSchedule (boot around) cr3 sh d = some s) (hp : s.pcb u = some p) :
    p.waitDesc = sh.waitDesc ∨ p.waitDesc = d.waitDesc := by
  obtain ⟨s', hs', hy⟩ := (core_firstTasks around cr3 sh d).yields
  obtain rfl : s' = s := some.inj (hs'.symm.trans h)
  rw [hy.pcb u] at hp
  replace hp : (firstTasks around cr3 sh d).pcb u = some p := hp
  unfold firstTasks at hp
  dsimp only at hp
  split at hp
  · cases hp
    exact .inr rfl
  · split at hp
    · cases hp
      exact .inl rfl
    · cases hp

def Live (s : Sched) (t : TaskId) : Prop := ∃ p, s.pcb t = some p ∧ p.state = .ready

instance (s : Sched) (t : TaskId) : Decidable (Live s t) :=
  decidable_of_iff (∃ p ∈ s.pcb t, p.state = .ready) (exists_congr fun _ => Iff.rfl)

/-- The live tasks are those with a PCB. -/
theorem Inv.live_iff (hs : Inv s) : Live s t ↔ (s.pcb t).isSome := by
  rw [isSome_iff_exists]
  refine exists_congr fun p => ⟨fun h => h.1, fun h => ⟨h, (hs.state h).2 (by simp [hs.terminated])⟩⟩

/-- Every live task is on one queue and once, the run queue is not empty, its last task is the running one, and `noproc`
counts the live tasks. -/
structure Consistent (s : Sched) : Prop where
  one_queue : ∀ t, Live s t → s.runQueue.count t + s.waitQueue.count t + s.waitTimerQueue.count t = 1
  run_ne_nil : s.runQueue ≠ []
  running : ∃ t, s.stack = some t ∧ Live s t ∧ s.runQueue.getLast? = some t ∧ getCurrentTask s = some t
  finite : {t | Live s t}.Finite
  noproc : s.noproc = {t | Live s t}.ncard

private theorem Inv.consistent (hs : Inv s) : Consistent s := by
  have hall : s.all = s.runQueue ++ s.waitQueue ++ s.waitTimerQueue := by
    unfold Sched.all
    rw [hs.terminated, append_nil]
  have hset : {t | Live s t} = ↑s.all.toFinset := by
    ext t
    rw [Set.mem_ofPred_eq, hs.live_iff, ← hs.pcb_iff, Finset.mem_coe, List.mem_toFinset]
  obtain ⟨t, p, ht, hp, -⟩ := hs.exists_current
  refine ⟨fun u hu => ?_, hs.run_ne_nil, ⟨t, ?_, ?_, ?_, ht⟩, ?_, ?_⟩
  · have hmem : u ∈ s.all := (hs.pcb_iff u).2 (hs.live_iff.1 hu)
    have hone : s.all.count u = 1 := count_eq_one_of_mem hs.queued hmem
    rw [hall, count_append, count_append] at hone
    exact hone
  · rw [← hs.getCurrentTask, ht]
  · exact hs.live_iff.2 (by rw [hp]; rfl)
  · rw [hs.current, ← hs.getCurrentTask, ht]
  · rw [hset]
    exact Finset.finite_toSet _
  · have hlen := hs.noproc
    rw [hs.terminated, length_nil, Nat.add_zero] at hlen
    rw [hset, Set.ncard_coe_finset, toFinset_card_of_nodup hs.queued, hlen]

/-- Every run that can happen keeps the invariant. -/
theorem run_inv (hs : Inv s) (hes : Permitted step Allowed s es) : ∃ s', run step s es = some s' ∧ Inv s' :=
  run_invariant (fun s e hs ha => by
    obtain ⟨s', hs', hinv, -⟩ := step_spec hs ha
    exact ⟨s', hs', hinv⟩) hs hes

/-- The queues are consistent in every state that a run reaches from the two tasks of `cooperative_schedule`. -/
theorem queues_consistent (around : Nat → Int) (cr3 : Nat) (sh d : Uninit) :
    ∃ s₀, cooperativeSchedule (boot around) cr3 sh d = some s₀ ∧
      ∀ es, Permitted step Allowed s₀ es → ∃ s, run step s₀ es = some s ∧ Consistent s := by
  obtain ⟨s₀, hs0, hstart⟩ := cooperativeSchedule_start around cr3 sh d
  refine ⟨s₀, hs0, fun es hes => ?_⟩
  obtain ⟨s, hs, hinv⟩ := run_inv hstart.inv hes
  exact ⟨s, hs, hinv.consistent⟩

def zeroed : Uninit := ⟨0, 0, 0, 0⟩

def plainFork : ForkEnv := ⟨true, true, true, true, some 0x3000, true, true, zeroed⟩

def plainStart : Sched := (cooperativeSchedule (boot fun _ => 0) 0x1000 zeroed zeroed).getD (boot fun _ => 0)

theorem plainStart_eq : cooperativeSchedule (boot fun _ => 0) 0x1000 zeroed zeroed = some plainStart := rfl

/-- What holds after every start holds after this one. -/
theorem at_plainStart {P : Sched → Prop}
    (h : ∃ s, cooperativeSchedule (boot fun _ => 0) 0x1000 zeroed zeroed = some s ∧ P s) : P plainStart := by
  obtain ⟨s, hs, hp⟩ := h
  rw [plainStart_eq] at hs
  exact some.inj hs ▸ hp

theorem queues_consistent_child : ∃ s,
    run step plainStart [.yield, .fork plainFork, .sleep 3, .sleepTimer 1, .tick, .yield, .exit] = some s ∧
      Consistent s := by
  have hrun := at_plainStart (queues_consistent (fun _ => 0) 0x1000 zeroed zeroed)
  exact hrun _ (by decide +kernel)

end Adix.Scheduler
