import Adix.Lib.Runs
import Adix.Scheduler.Effect
import Mathlib.Data.Set.Card

/-!
# The queues of the scheduler

All operations but fork and exit only move tasks between the queues (`Moves`), so that one lemma carries the invariant
through them; what exit does is said once in `Exited`, what fork does in `Forked`.
-/

namespace Adix.Scheduler

open List Option

variable {s s' s1 : Sched} {t u c q : TaskId} {p pq : Pcb} {m : List TaskId} {f : Pcb → Pcb} {k : Int}

/-- What holds also inside the operations, while a task that exits is on the list of terminated tasks. -/
structure Core (s : Sched) : Prop where
  queued : Queued s
  pcb_iff : ∀ t, t ∈ s.all ↔ (s.pcb t).isSome
  state : ∀ {t p}, s.pcb t = some p → (p.state = .ready ↔ t ∉ s.terminatedQueue)
  noproc : s.noproc + s.terminatedQueue.length = s.all.length
  fresh : ∀ {t}, (s.pcb t).isSome → t < s.numTasks
  prep : s.prepTask = none
  daemon : daemon ∈ s.runQueue
  parent : ∀ {c p q}, c ∉ s.terminatedQueue → s.pcb c = some p → p.parent = some q →
    ∃ pq, s.pcb q = some pq ∧ c ∈ pq.children
  child : ∀ {q pq c p}, q ∉ s.terminatedQueue → s.pcb q = some pq → c ∈ pq.children → s.pcb c = some p →
    p.parent = some q
  bound : ∀ {q pq c}, s.pcb q = some pq → c ∈ pq.children → c < s.numTasks

/-- What holds between the operations. -/
structure Inv (s : Sched) : Prop extends Core s where
  terminated : s.terminatedQueue = []
  current : s.runQueue.getLast? = s.stack

theorem Core.pcb_numTasks (hs : Core s) : s.pcb s.numTasks = none := by
  by_contra hne
  exact absurd (hs.fresh (isSome_iff_ne_none.2 hne)) (Nat.lt_irrefl _)

/-- Tasks move between the queues, and keep their ids, parents, children and states. -/
structure Moves (s s' : Sched) : Prop where
  perm : s'.all.Perm s.all
  terminated : s'.terminatedQueue = s.terminatedQueue
  pcb : ∀ u, ∃ d r, s'.pcb u = (s.pcb u).map fun p => { p with waitDesc := d, sleepTimeRem := r }
  noproc : s'.noproc = s.noproc
  numTasks : s'.numTasks = s.numTasks
  prep : s'.prepTask = s.prepTask
  pidArray : s'.pidArray = s.pidArray

private theorem exists_waits (x : Option Pcb) :
    ∃ d r, x = x.map fun p => { p with waitDesc := d, sleepTimeRem := r } := by
  cases x with
  | none => exact ⟨0, 0, rfl⟩
  | some p => exact ⟨p.waitDesc, p.sleepTimeRem, rfl⟩

namespace Moves

theorem isSome (h : Moves s s') : (s'.pcb u).isSome = (s.pcb u).isSome := by
  obtain ⟨d, r, hu⟩ := h.pcb u
  rw [hu, isSome_map]

theorem pcb_some (h : Moves s s') {p' : Pcb} (hp : s'.pcb u = some p') :
    ∃ p, s.pcb u = some p ∧ p'.pid = p.pid ∧ p'.parent = p.parent ∧ p'.children = p.children ∧ p'.state = p.state := by
  obtain ⟨d, r, hu⟩ := h.pcb u
  rw [hu] at hp
  obtain ⟨p, hp0, rfl⟩ := map_eq_some_iff.1 hp
  exact ⟨p, hp0, rfl, rfl, rfl, rfl⟩

theorem trans {s'' : Sched} (h : Moves s s') (h' : Moves s' s'') : Moves s s'' where
  perm := h'.perm.trans h.perm
  terminated := h'.terminated.trans h.terminated
  pcb u := by
    obtain ⟨d, r, hu⟩ := h.pcb u
    obtain ⟨d', r', hu'⟩ := h'.pcb u
    refine ⟨d', r', ?_⟩
    rw [hu', hu, Option.map_map]
    rfl
  noproc := h'.noproc.trans h.noproc
  numTasks := h'.numTasks.trans h.numTasks
  prep := h'.prep.trans h.prep
  pidArray := h'.pidArray.trans h.pidArray

/-- Moves keep the invariant. -/
theorem core (h : Moves s s') (hs : Core s) (hd : daemon ∈ s'.runQueue) : Core s' where
  queued := h.perm.nodup_iff.2 hs.queued
  pcb_iff t := by rw [h.perm.mem_iff, hs.pcb_iff, h.isSome]
  state {t p'} hp := by
    obtain ⟨p, hp, -, -, -, hst⟩ := h.pcb_some hp
    rw [hst, h.terminated]
    exact hs.state hp
  noproc := by rw [h.noproc, h.terminated, h.perm.length_eq, hs.noproc]
  fresh {t} ht := by
    rw [h.isSome] at ht
    rw [h.numTasks]
    exact hs.fresh ht
  prep := h.prep.trans hs.prep
  daemon := hd
  parent {c p' q} hc hp hq := by
    obtain ⟨p, hp, -, hpar, -⟩ := h.pcb_some hp
    rw [h.terminated] at hc
    obtain ⟨pq, hpq, hmem⟩ := hs.parent hc hp (hpar ▸ hq)
    obtain ⟨d, r, hq'⟩ := h.pcb q
    rw [hpq] at hq'
    exact ⟨_, hq', hmem⟩
  child {q pq' c p'} hq hpq hc hp := by
    obtain ⟨pq, hpq, -, -, hch, -⟩ := h.pcb_some hpq
    obtain ⟨p, hp, -, hpar, -⟩ := h.pcb_some hp
    rw [h.terminated] at hq
    rw [hpar]
    exact hs.child hq hpq (hch ▸ hc) hp
  bound {q pq' c} hpq hc := by
    obtain ⟨pq, hpq, -, -, hch, -⟩ := h.pcb_some hpq
    rw [h.numTasks]
    exact hs.bound hpq (hch ▸ hc)

end Moves

theorem moves_self : Moves s s where
  perm := .refl _
  terminated := rfl
  pcb _ := exists_waits _
  noproc := rfl
  numTasks := rfl
  prep := rfl
  pidArray := rfl

/-- Waking tasks up moves them. -/
theorem moves_woken (h : Queued s) (hm : m.Nodup) (hsub : ∀ u ∈ m, u ∈ s.waitQueue ∨ u ∈ s.waitTimerQueue) :
    Moves s (woken m s) where
  perm := all_woken h hm fun u hu => (hsub u hu).elim mem_all_of_wait mem_all_of_timer
  terminated := filter_not_mem_eq_self fun u hu hum =>
    h.not_terminated (by rcases hsub u hum with h | h <;> simp [h]) hu
  pcb u := by
    by_cases hu : u ∈ m
    · cases hp : s.pcb u with
      | none => exact ⟨0, 0, by simp [woken, hp]⟩
      | some p => exact ⟨notWaiting, p.sleepTimeRem, by simp [woken, hu, hp]⟩
    · rw [woken_of_not_mem hu]
      exact exists_waits _
  noproc := rfl
  numTasks := rfl
  prep := rfl
  pidArray := rfl

theorem mem_run_woken (h : Queued s) (hsub : ∀ u ∈ m, u ∈ s.waitQueue ∨ u ∈ s.waitTimerQueue) (ht : t ∈ s.runQueue) :
    t ∈ (woken m s).runQueue := by
  have htm : t ∉ m := fun hm => (hsub t hm).elim (h.run_wait ht) (h.run_timer ht)
  exact mem_append_right _ (mem_filter.2 ⟨ht, by simpa using htm⟩)

theorem getLast_woken (h : Queued s) (hsub : ∀ u ∈ m, u ∈ s.waitQueue ∨ u ∈ s.waitTimerQueue) (hne : s.runQueue ≠ []) :
    (woken m s).runQueue.getLast? = s.runQueue.getLast? := by
  have hrun : s.runQueue.filter (· ∉ m) = s.runQueue := filter_not_mem_eq_self fun u hu hum =>
    (hsub u hum).elim (h.run_wait hu) (h.run_timer hu)
  show (m ++ s.runQueue.filter (· ∉ m)).getLast? = _
  rw [hrun, getLast?_append, getLast?_eq_some_getLast hne]
  rfl

private theorem getTerminatedTask_iff (h : s.terminatedQueue.tail = []) :
    getTerminatedTask s = some t ↔ t ∈ s.terminatedQueue := by
  unfold getTerminatedTask
  cases hq : s.terminatedQueue with
  | nil => simp
  | cons x l =>
    rw [hq] at h
    obtain rfl : l = [] := h
    simp [eq_comm]

/-- After a switch there is no terminated task, and the invariant holds. -/
theorem Yielded.inv (h : Yielded s s') (hs : Core s) (hterm : s.terminatedQueue.tail = [])
    (horphan : ∀ c p q, c ∉ s.terminatedQueue → s.pcb c = some p → p.parent = some q → q ∉ s.terminatedQueue) :
    Inv s' := by
  have hempty : s'.terminatedQueue = [] := h.terminated.trans hterm
  obtain ⟨x, l, hrun, hrun', hstack⟩ := h.run
  have hall : s'.all = l ++ [x] ++ s.waitQueue ++ s.waitTimerQueue := by
    unfold Sched.all
    rw [hrun', h.wait, h.timer, hempty, append_nil]
  have hperm : (s'.all ++ s.terminatedQueue).Perm s.all := by
    unfold Sched.all at hall ⊢
    rw [hall, hrun]
    exact (((perm_append_singleton x l).append_right _).append_right _).append_right _
  have hnd : (s'.all ++ s.terminatedQueue).Nodup := hperm.nodup_iff.2 hs.queued
  have hpcb : ∀ {u p}, s'.pcb u = some p ↔ u ∉ s.terminatedQueue ∧ s.pcb u = some p := by
    intro u p
    rw [h.pcb u]
    by_cases hu : u ∈ s.terminatedQueue
    · simp [(getTerminatedTask_iff hterm).2 hu, hu]
    · simp [mt (getTerminatedTask_iff hterm).1 hu, hu]
  have hsome : ∀ {u}, (s'.pcb u).isSome ↔ u ∉ s.terminatedQueue ∧ (s.pcb u).isSome := by
    intro u
    simp only [isSome_iff_exists, hpcb, exists_and_left]
  exact
    { queued := (nodup_append.1 hnd).1
      pcb_iff := fun u => by
        rw [hsome, ← hs.pcb_iff, ← hperm.mem_iff, mem_append]
        have hdisj : u ∈ s'.all → u ∉ s.terminatedQueue := fun h1 h2 => (nodup_append.1 hnd).2.2 u h1 u h2 rfl
        tauto
      state := fun {u p} hp => by
        obtain ⟨hu, hp⟩ := hpcb.1 hp
        rw [hempty]
        simp [(hs.state hp).2 hu]
      noproc := by
        have := hs.noproc
        have := hperm.length_eq
        rw [length_append] at this
        rw [h.noproc, hempty, length_nil]
        omega
      fresh := fun hu => h.numTasks ▸ hs.fresh (hsome.1 hu).2
      prep := h.prep.trans hs.prep
      daemon := by
        have := hs.daemon
        rw [hrun] at this
        rw [hrun']
        simpa [or_comm] using this
      parent := fun {c p q} _ hp hq => by
        obtain ⟨hc, hp⟩ := hpcb.1 hp
        obtain ⟨pq, hpq, hmem⟩ := hs.parent hc hp hq
        exact ⟨pq, hpcb.2 ⟨horphan c p q hc hp hq, hpq⟩, hmem⟩
      child := fun {q pq c p} _ hpq hc hp => by
        obtain ⟨hq, hpq⟩ := hpcb.1 hpq
        exact hs.child hq hpq hc (hpcb.1 hp).2
      bound := fun {q pq c} hpq hc => h.numTasks ▸ hs.bound (hpcb.1 hpq).2 hc
      terminated := hempty
      current := by rw [hrun', hstack, getLast?_concat] }

theorem Core.run_ne_nil (hs : Core s) : s.runQueue ≠ [] := ne_nil_of_mem hs.daemon

/-- There is always a task to switch to. -/
theorem Core.yields (hs : Core s) : ∃ s', sysYield s = some s' ∧ Yielded s s' :=
  sysYield_spec hs.queued (fun t ht => (hs.pcb_iff t).1 ht) hs.run_ne_nil

theorem Yielded.moves (h : Yielded s s') (hterm : s.terminatedQueue = []) : Moves s s' := by
  obtain ⟨x, l, hrun, hrun', -⟩ := h.run
  have hnone : getTerminatedTask s = none := by rw [getTerminatedTask, hterm]; rfl
  exact
    { perm := by
        unfold Sched.all
        rw [hrun', h.wait, h.timer, h.terminated, hterm, hrun]
        exact (((perm_append_singleton x l).append_right _).append_right _).append_right _
      terminated := by rw [h.terminated, hterm]; rfl
      pcb := fun u => by
        rw [h.pcb u, hnone]
        exact exists_waits _
      noproc := h.noproc
      numTasks := h.numTasks
      prep := h.prep
      pidArray := funext fun i => by rw [h.pidArray i, terminatedPid, hnone]; rfl }

/-- The last task of the run queue runs. -/
theorem Inv.getCurrentTask (hs : Inv s) : getCurrentTask s = s.stack := by
  unfold Scheduler.getCurrentTask
  rw [hs.prep]
  exact hs.current

theorem Inv.exists_current (hs : Inv s) :
    ∃ t p, Scheduler.getCurrentTask s = some t ∧ s.pcb t = some p ∧ t ∈ s.runQueue := by
  have hlast := getLast?_eq_some_getLast hs.run_ne_nil
  have hmem := getLast_mem hs.run_ne_nil
  obtain ⟨p, hp⟩ := isSome_iff_exists.1 ((hs.pcb_iff _).1 (mem_all_of_run hmem))
  refine ⟨_, p, ?_, hp, hmem⟩
  rw [hs.getCurrentTask, ← hs.current, hlast]

theorem Inv.mem_run_of_current (hs : Inv s) (ht : Scheduler.getCurrentTask s = some t) : t ∈ s.runQueue := by
  obtain ⟨t', -, ht', -, hmem⟩ := hs.exists_current
  rw [ht] at ht'
  rwa [some.inj ht']

def descOf (s : Sched) (u : TaskId) : Option Nat := (s.pcb u).map Pcb.waitDesc

private theorem moves_away (hf : ∀ p, ∃ d r, f p = { p with waitDesc := d, sleepTimeRem := r })
    (hperm : s1.all.Perm s.all) (hterm : s1.terminatedQueue = s.terminatedQueue) (hpcb : s1.pcb = (s.update t f).pcb)
    (hrest : s1.noproc = s.noproc ∧ s1.numTasks = s.numTasks ∧ s1.prepTask = s.prepTask ∧ s1.pidArray = s.pidArray) :
    Moves s s1 where
  perm := hperm
  terminated := hterm
  pcb u := by
    rw [hpcb]
    by_cases hu : u = t
    · subst hu
      rw [update_self]
      cases s.pcb u with
      | none => exact ⟨0, 0, rfl⟩
      | some p =>
        obtain ⟨d, r, hdr⟩ := hf p
        exact ⟨d, r, congrArg some hdr⟩
    · rw [update_other hu]
      exact exists_waits _
  noproc := hrest.1
  numTasks := hrest.2.1
  prep := hrest.2.2.1
  pidArray := hrest.2.2.2

theorem queued_update (h : Queued s) : Queued (s.update t f) := h

def asleep (s : Sched) (t : TaskId) (d : Nat) : Sched :=
  { s.update t fun p => { p with waitDesc := d } with
    runQueue := s.runQueue.erase t
    waitQueue := t :: s.waitQueue }

def asleepTimer (s : Sched) (t : TaskId) (k : Int) : Sched :=
  { s.update t fun p => { p with sleepTimeRem := BitVec.ofInt 64 k } with
    runQueue := s.runQueue.erase t
    waitTimerQueue := t :: s.waitTimerQueue }

theorem sysSleep_eq (h : Queued s) (ht : getCurrentTask s = some t) (hrun : t ∈ s.runQueue) (d : Nat) :
    sysSleep s d = sysYield (asleep s t d) := by
  unfold sysSleep updateWaitDescriptor
  rw [ht, bind_eq_bind, bind_some, listDel_of_run (queued_update h) hrun]
  rfl

theorem sysSleepTimer_eq (h : Queued s) (ht : getCurrentTask s = some t) (hrun : t ∈ s.runQueue) (hk : 0 < k) :
    sysSleepTimer s k = sysYield (asleepTimer s t k) := by
  unfold sysSleepTimer
  rw [if_neg (by omega), ht, bind_eq_bind, bind_some, listDel_of_run (queued_update h) hrun]
  rfl

theorem perm_erase_run (ht : t ∈ s.runQueue) :
    (t :: (s.runQueue.erase t ++ s.waitQueue ++ s.waitTimerQueue ++ s.terminatedQueue)).Perm s.all := by
  exact (((perm_cons_erase ht).symm.append_right _).append_right _).append_right _

theorem asleep_all (ht : t ∈ s.runQueue) (d : Nat) : (asleep s t d).all.Perm s.all :=
  List.Perm.trans ((List.perm_middle.append_right _).append_right _) (perm_erase_run ht)

theorem asleepTimer_all (ht : t ∈ s.runQueue) (k : Int) : (asleepTimer s t k).all.Perm s.all :=
  List.Perm.trans (List.perm_middle.append_right _) (perm_erase_run ht)

private theorem yields_away (hs : Inv s) (hd : t ≠ daemon) (hmoves : Moves s s1)
    (hrun : s1.runQueue = s.runQueue.erase t) :
    ∃ s', sysYield s1 = some s' ∧ Inv s' ∧ Moves s s' ∧ Yielded s1 s' ∧ ∀ u, s'.pcb u = s1.pcb u := by
  have hcore : Core s1 := hmoves.core hs.toCore (hrun ▸ (mem_erase_of_ne hd.symm).2 hs.daemon)
  obtain ⟨s', hs', hy⟩ := hcore.yields
  have hempty : s1.terminatedQueue = [] := hmoves.terminated.trans hs.terminated
  refine ⟨s', hs', hy.inv hcore (by rw [hempty]; rfl) (by simp [hempty]), hmoves.trans (hy.moves hempty), hy,
    fun u => ?_⟩
  rw [hy.pcb u, getTerminatedTask, hempty]
  rfl

/-- A task that goes to sleep is first on the wait queue, with its descriptor. -/
theorem sysSleep_spec (hs : Inv s) (ht : getCurrentTask s = some t) (hd : t ≠ daemon) (d : Nat) :
    ∃ s', sysSleep s d = some s' ∧ Inv s' ∧ Moves s s' ∧ s'.waitQueue = t :: s.waitQueue ∧
      s'.pcb t = (s.pcb t).map (fun p => { p with waitDesc := d }) ∧ ∀ u, u ≠ t → s'.pcb u = s.pcb u := by
  have hrun := hs.mem_run_of_current ht
  have hmoves : Moves s (asleep s t d) :=
    moves_away (fun p => ⟨d, p.sleepTimeRem, rfl⟩) (asleep_all hrun d) rfl rfl ⟨rfl, rfl, rfl, rfl⟩
  obtain ⟨s', hs', hinv, hmoves', hy, hpcb⟩ := yields_away hs hd hmoves rfl
  refine ⟨s', (sysSleep_eq hs.queued ht hrun d).trans hs', hinv, hmoves', hy.wait, ?_, fun u hu => ?_⟩
  · rw [hpcb]
    exact update_self
  · rw [hpcb]
    exact update_other hu

/-- A task that sleeps for a time leaves the wait queue as it is. -/
theorem sysSleepTimer_spec (hs : Inv s) (ht : getCurrentTask s = some t) (hk : 0 < k) (hd : t ≠ daemon) :
    ∃ s', sysSleepTimer s k = some s' ∧ Inv s' ∧ Moves s s' ∧ s'.waitQueue = s.waitQueue ∧
      ∀ u, descOf s' u = descOf s u := by
  have hrun := hs.mem_run_of_current ht
  have hmoves : Moves s (asleepTimer s t k) :=
    moves_away (fun p => ⟨p.waitDesc, BitVec.ofInt 64 k, rfl⟩) (asleepTimer_all hrun k) rfl rfl ⟨rfl, rfl, rfl, rfl⟩
  obtain ⟨s', hs', hinv, hmoves', hy, hpcb⟩ := yields_away hs hd hmoves rfl
  refine ⟨s', (sysSleepTimer_eq hs.queued ht hrun hk).trans hs', hinv, hmoves', hy.wait, fun u => ?_⟩
  unfold descOf
  rw [hpcb]
  show ((s.update t _).pcb u).map _ = _
  by_cases hu : u = t
  · rw [hu, update_self, Option.map_map]
    rfl
  · rw [update_other hu]

end Adix.Scheduler
