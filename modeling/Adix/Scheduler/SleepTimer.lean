import Adix.Scheduler.Run

/-!
# Timed sleep is exact

A task on the timer queue is woken up when its descriptor is `TIMER_ELAPSED`, and `sys_sleep_timer` does not set the
descriptor when the task goes to sleep.
-/

namespace Adix.Scheduler

open List
open Option (bind_eq_some_iff map_some map_eq_some_iff isSome_map isSome_iff_exists bind_some)

variable {s s' s'' : Sched} {t u : TaskId} {p : Pcb} {m : List TaskId} {e : Event} {f : Pcb → Pcb} {k : Int}
  {es : List Event} {d n : Nat}

def remOf (s : Sched) (u : TaskId) : Option (BitVec 64) := (s.pcb u).map Pcb.sleepTimeRem

/-- Each task is on one list, and no task that runs or sleeps for a time has the descriptor of those whose time has
elapsed. -/
structure Timed (s : Sched) : Prop where
  queued : Queued s
  pcb : ∀ t ∈ s.all, (s.pcb t).isSome
  fresh : ∀ t ∈ s.all, t < s.numTasks
  prep : s.prepTask = none
  run : ∀ t ∈ s.runQueue, descOf s t ≠ some timerElapsed
  timer : ∀ t ∈ s.waitTimerQueue, descOf s t ≠ some timerElapsed

structure Lasts (s s' : Sched) : Prop where
  timed : Timed s'
  sleeps : ∀ u ∈ s.waitTimerQueue, u ∈ s'.waitTimerQueue ∧ remOf s' u = remOf s u

private theorem Lasts.refl (hs : Timed s) : Lasts s s := ⟨hs, fun _ hu => ⟨hu, rfl⟩⟩

private theorem Lasts.trans (h : Lasts s s') (h' : Lasts s' s'') : Lasts s s'' := by
  refine ⟨h'.timed, fun u hu => ?_⟩
  obtain ⟨h1, h2⟩ := h.sleeps u hu
  obtain ⟨h3, h4⟩ := h'.sleeps u h1
  exact ⟨h3, h4.trans h2⟩

private theorem isSome_descOf : (descOf s u).isSome = (s.pcb u).isSome := isSome_map

structure SameQueues (s s' : Sched) : Prop where
  run : s'.runQueue = s.runQueue
  wait : s'.waitQueue = s.waitQueue
  timer : s'.waitTimerQueue = s.waitTimerQueue
  terminated : s'.terminatedQueue = s.terminatedQueue
  prep : s'.prepTask = s.prepTask
  numTasks : s.numTasks ≤ s'.numTasks
  time : ∀ u, descOf s' u = descOf s u ∧ remOf s' u = remOf s u

private theorem SameQueues.trans (h : SameQueues s s') (h' : SameQueues s' s'') : SameQueues s s'' where
  run := h'.run.trans h.run
  wait := h'.wait.trans h.wait
  timer := h'.timer.trans h.timer
  terminated := h'.terminated.trans h.terminated
  prep := h'.prep.trans h.prep
  numTasks := Nat.le_trans h.numTasks h'.numTasks
  time u := ⟨(h'.time u).1.trans (h.time u).1, (h'.time u).2.trans (h.time u).2⟩

private theorem SameQueues.all (h : SameQueues s s') : s'.all = s.all := by
  unfold Sched.all
  rw [h.run, h.wait, h.timer, h.terminated]

private theorem SameQueues.lasts (h : SameQueues s s') (hs : Timed s) : Lasts s s' where
  timed :=
    { queued := by
        unfold Queued
        rw [h.all]
        exact hs.queued
      pcb := fun t ht => by
        rw [← isSome_descOf, (h.time t).1, isSome_descOf]
        exact hs.pcb t (h.all ▸ ht)
      fresh := fun t ht => Nat.lt_of_lt_of_le (hs.fresh t (h.all ▸ ht)) h.numTasks
      prep := h.prep.trans hs.prep
      run := fun t ht => by
        rw [(h.time t).1]
        exact hs.run t (h.run ▸ ht)
      timer := fun t ht => by
        rw [(h.time t).1]
        exact hs.timer t (h.timer ▸ ht) }
  sleeps u hu := ⟨h.timer ▸ hu, (h.time u).2⟩

private theorem sameQueues_update (hf : ∀ p, (f p).waitDesc = p.waitDesc ∧ (f p).sleepTimeRem = p.sleepTimeRem) :
    SameQueues s (s.update t f) where
  run := rfl
  wait := rfl
  timer := rfl
  terminated := rfl
  prep := rfl
  numTasks := Nat.le_refl _
  time u := by
    unfold descOf remOf
    by_cases hu : u = t
    · rw [hu, update_self, Option.map_map, Option.map_map]
      cases s.pcb t with
      | none => exact ⟨rfl, rfl⟩
      | some p => exact ⟨congrArg some (hf p).1, congrArg some (hf p).2⟩
    · rw [update_other hu]
      exact ⟨rfl, rfl⟩

private theorem descOf_woken (hu : u ∈ m) : descOf (woken m s) u ≠ some timerElapsed := by
  cases hp : s.pcb u with
  | none => simp [descOf, woken, hp]
  | some p => simp [descOf, woken, hu, hp, notWaiting, timerElapsed]

private theorem woken_lasts (hs : Timed s) (hm : m.Nodup) (hsub : ∀ u ∈ m, u ∈ s.waitQueue) : Lasts s (woken m s) := by
  have hperm := all_woken hs.queued hm fun u hu => mem_all_of_wait (hsub u hu)
  have htimer : (woken m s).waitTimerQueue = s.waitTimerQueue :=
    filter_not_mem_eq_self fun u hu hum => hs.queued.wait_timer (hsub u hum) hu
  have hkept : ∀ u ∈ s.waitTimerQueue, (woken m s).pcb u = s.pcb u := fun u hu =>
    woken_of_not_mem fun hum => hs.queued.wait_timer (hsub u hum) hu
  refine ⟨⟨hperm.nodup_iff.2 hs.queued, fun u hu => ?_, fun u hu => hs.fresh u (hperm.mem_iff.1 hu), hs.prep,
    fun u hu => ?_, fun u hu => ?_⟩, fun u hu => ⟨htimer ▸ hu, ?_⟩⟩
  · have hsome := hs.pcb u (hperm.mem_iff.1 hu)
    by_cases hum : u ∈ m
    · simp [woken, hum, hsome]
    · rwa [woken_of_not_mem hum]
  · by_cases hum : u ∈ m
    · exact descOf_woken hum
    · rw [descOf, woken_of_not_mem hum]
      refine hs.run u ?_
      have hu : u ∈ m ++ s.runQueue.filter (· ∉ m) := hu
      exact (mem_filter.1 ((mem_append.1 hu).resolve_left hum)).1
  · rw [htimer] at hu
    rw [descOf, hkept u hu]
    exact hs.timer u hu
  · rw [remOf, hkept u hu, remOf]

private theorem sysWakeup_lasts (hs : Timed s) (h : sysWakeup s d = some (s', n)) : Lasts s s' := by
  rw [sysWakeup_eq hs.queued (length_waiting_le h)] at h
  cases h
  exact woken_lasts hs (hs.queued.wait.filter _) waiting_subset

private theorem sysYield_lasts (hs : Timed s) (h : sysYield s = some s') : Lasts s s' := by
  have hne : s.runQueue ≠ [] := by
    intro hnil
    simp [sysYield, getNextTask, hnil] at h
  obtain ⟨s1, hs1, hy⟩ := sysYield_spec hs.queued hs.pcb hne
  obtain rfl : s1 = s' := Option.some.inj (hs1.symm.trans h)
  obtain ⟨x, l, hrun, hrun', -⟩ := hy.run
  -- all tasks are there, but for the first one that has terminated
  have hperm : (s1.all ++ (getTerminatedTask s).toList).Perm s.all := by
    unfold Sched.all getTerminatedTask
    rw [hrun', hy.wait, hy.timer, hy.terminated, hrun]
    cases s.terminatedQueue with
    | nil =>
      simp only [head?_nil, Option.toList_none, append_nil, tail_nil]
      exact ((perm_append_singleton x l).append_right _).append_right _
    | cons y l' =>
      rw [List.append_assoc]
      exact (((perm_append_singleton x l).append_right _).append_right _).append (perm_append_singleton y l')
  have hnd : (s1.all ++ (getTerminatedTask s).toList).Nodup := hperm.nodup_iff.2 hs.queued
  have hkept : ∀ u ∈ s1.all, s1.pcb u = s.pcb u := by
    intro u hu
    rw [hy.pcb u, if_neg]
    intro hterm
    refine (nodup_append.1 hnd).2.2 u hu u ?_ rfl
    rw [hterm]
    simp
  have hmem : ∀ u ∈ s1.all, u ∈ s.all := fun u hu => hperm.mem_iff.1 (mem_append_left _ hu)
  refine ⟨⟨(nodup_append.1 hnd).1, fun u hu => ?_, fun u hu => ?_, hy.prep.trans hs.prep, fun u hu => ?_,
    fun u hu => ?_⟩, fun u hu => ?_⟩
  · rw [hkept u hu]
    exact hs.pcb u (hmem u hu)
  · rw [hy.numTasks]
    exact hs.fresh u (hmem u hu)
  · rw [descOf, hkept u (mem_all_of_run hu)]
    refine hs.run u ?_
    rw [hrun'] at hu
    rw [hrun]
    simpa [or_comm] using hu
  · rw [descOf, hkept u (mem_all_of_timer hu)]
    exact hs.timer u (hy.timer ▸ hu)
  · have hu' : u ∈ s1.waitTimerQueue := hy.timer ▸ hu
    exact ⟨hu', by rw [remOf, hkept u (mem_all_of_timer hu'), remOf]⟩

private theorem Timed.current (hs : Timed s) (ht : getCurrentTask s = some t) : t ∈ s.runQueue := by
  unfold getCurrentTask at ht
  rw [hs.prep] at ht
  exact mem_of_getLast? ht

private theorem leave_lasts (hs : Timed s) (ht : t ∈ s.runQueue) (hpcb : s'.pcb = (s.update t f).pcb)
    (hrun : s'.runQueue = s.runQueue.erase t) (hperm : s'.all.Perm s.all) (hnum : s'.numTasks = s.numTasks)
    (hprep : s'.prepTask = s.prepTask) (htimer : s'.waitTimerQueue = s.waitTimerQueue ∨
      s'.waitTimerQueue = t :: s.waitTimerQueue ∧ ∀ p, (f p).waitDesc = p.waitDesc) : Lasts s s' := by
  have hkept : ∀ u, u ≠ t → s'.pcb u = s.pcb u := by
    intro u hu
    rw [hpcb]
    exact update_other hu
  have hne : ∀ u ∈ s.waitTimerQueue, u ≠ t := by
    intro u hu heq
    exact hs.queued.run_timer ht (heq ▸ hu)
  refine ⟨⟨hperm.nodup_iff.2 hs.queued, fun u hu => ?_, fun u hu => ?_, hprep.trans hs.prep, fun u hu => ?_,
    fun u hu => ?_⟩, fun u hu => ⟨?_, by rw [remOf, hkept u (hne u hu), remOf]⟩⟩
  · have hsome := hs.pcb u (hperm.mem_iff.1 hu)
    rw [hpcb]
    by_cases heq : u = t
    · rw [heq, update_self, isSome_map]
      exact heq ▸ hsome
    · rwa [update_other heq]
  · rw [hnum]
    exact hs.fresh u (hperm.mem_iff.1 hu)
  · rw [hrun, hs.queued.run.mem_erase_iff] at hu
    rw [descOf, hkept u hu.1]
    exact hs.run u hu.2
  · rcases htimer with htimer | ⟨htimer, hdesc⟩
    · rw [htimer] at hu
      rw [descOf, hkept u (hne u hu)]
      exact hs.timer u hu
    · rw [htimer] at hu
      rcases mem_cons.1 hu with rfl | hu
      · -- the descriptor is the one that the task had while it ran
        have hu := hs.run u ht
        unfold descOf at hu ⊢
        rw [hpcb, update_self, Option.map_map]
        cases hp : s.pcb u with
        | none => simp
        | some p =>
          rw [hp] at hu
          rw [map_some, Function.comp_apply, hdesc]
          exact hu
      · rw [descOf, hkept u (hne u hu)]
        exact hs.timer u hu
  · rcases htimer with htimer | ⟨htimer, -⟩
    · exact htimer ▸ hu
    · exact htimer ▸ mem_cons_of_mem t hu

private theorem sysSleep_lasts (hs : Timed s) (h : sysSleep s d = some s') : Lasts s s' := by
  obtain ⟨t, ht, -⟩ := bind_eq_some_iff.1 h
  have hrun := hs.current ht
  rw [sysSleep_eq hs.queued ht hrun] at h
  have hleave : Lasts s (asleep s t d) := leave_lasts hs hrun rfl rfl (asleep_all hrun d) rfl rfl (.inl rfl)
  exact hleave.trans (sysYield_lasts hleave.timed h)

private theorem sysSleepTimer_lasts (hs : Timed s) (ht : getCurrentTask s = some t) (hk : 0 < k)
    (h : sysSleepTimer s k = some s') : Lasts s s' ∧ t ∈ s'.waitTimerQueue ∧ remOf s' t = some (BitVec.ofInt 64 k) := by
  have hrun := hs.current ht
  rw [sysSleepTimer_eq hs.queued ht hrun hk] at h
  have hleave : Lasts s (asleepTimer s t k) :=
    leave_lasts hs hrun rfl rfl (asleepTimer_all hrun k) rfl rfl (.inr ⟨rfl, fun _ => rfl⟩)
  have hyield := sysYield_lasts hleave.timed h
  obtain ⟨hmem, hrem⟩ := hyield.sleeps t mem_cons_self
  refine ⟨hleave.trans hyield, hmem, hrem.trans ?_⟩
  obtain ⟨p, hp⟩ := isSome_iff_exists.1 (hs.pcb t (mem_all_of_run hrun))
  show ((s.update t _).pcb t).map _ = _
  rw [update_self, hp]
  rfl

private theorem sameQueues_removeChild : SameQueues s (removeChild s t) := by
  unfold removeChild
  split
  · exact sameQueues_update fun _ => ⟨rfl, rfl⟩
  · exact ⟨rfl, rfl, rfl, rfl, rfl, Nat.le_refl _, fun _ => ⟨rfl, rfl⟩⟩

private theorem removeParentInfo_lasts (hs : Timed s) : Lasts s (removeParentInfoFromChildren s p) := by
  unfold removeParentInfoFromChildren
  generalize p.children = l
  induction l generalizing s with
  | nil => exact Lasts.refl hs
  | cons c l ih =>
    have hone : SameQueues s (s.update c fun p => { p with parent := none }) := sameQueues_update fun _ => ⟨rfl, rfl⟩
    have hone := hone.lasts hs
    exact hone.trans (ih hone.timed)

private theorem notifyParent_lasts (hs : Timed s) {parent : TaskId} (h : notifyParent s t p parent = some s') :
    Lasts s s' := by
  obtain ⟨q, -, h⟩ := bind_eq_some_iff.1 h
  obtain ⟨⟨s1, n⟩, hwake, h⟩ := bind_eq_some_iff.1 h
  have h1 := sysWakeup_lasts hs hwake
  obtain ⟨s2, h2, rfl⟩ : ∃ s2, Lasts s1 s2 ∧
      removeChild (s2.update parent fun q => { q with wakeupReturn := p.pid }) t = s' := by
    dsimp only at h
    split at h
    · obtain ⟨s2, hagain, h⟩ := bind_eq_some_iff.1 h
      obtain ⟨⟨s3, n'⟩, hwake', rfl⟩ := map_eq_some_iff.1 hagain
      exact ⟨s3, sysWakeup_lasts h1.timed hwake', Option.some.inj h⟩
    · exact ⟨s1, Lasts.refl h1.timed, Option.some.inj h⟩
  have h3 : SameQueues s2 (s2.update parent fun q => { q with wakeupReturn := p.pid }) :=
    sameQueues_update fun _ => ⟨rfl, rfl⟩
  have h3 := h3.lasts h2.timed
  exact h1.trans (h2.trans (h3.trans (sameQueues_removeChild.lasts h3.timed)))

private theorem forgetChildren_lasts (hs : Timed s) :
    Lasts s (if p.children ≠ [] then removeParentInfoFromChildren s p else s) := by
  split
  · exact removeParentInfo_lasts hs
  · exact Lasts.refl hs

private theorem handleWakeupOnExit_lasts (hs : Timed s) (h : handleWakeupOnExit s t p = some s') : Lasts s s' := by
  unfold handleWakeupOnExit at h
  cases hpar : p.parent with
  | none =>
    rw [hpar] at h
    cases h
    exact forgetChildren_lasts hs
  | some parent =>
    rw [hpar] at h
    obtain ⟨s1, hnotify, h⟩ := bind_eq_some_iff.1 h
    cases h
    have h1 := notifyParent_lasts hs hnotify
    exact h1.trans (forgetChildren_lasts h1.timed)

private theorem sysExit_lasts (hs : Timed s) (h : sysExit s = some s') : Lasts s s' := by
  obtain ⟨t, ht, h⟩ := bind_eq_some_iff.1 h
  obtain ⟨p, -, h⟩ := bind_eq_some_iff.1 h
  obtain ⟨s2, hwake, hyield⟩ := bind_eq_some_iff.1 h
  have hrun := hs.current ht
  rw [listDel_of_run (queued_update hs.queued) hrun] at hwake
  obtain ⟨s1, hs1⟩ : ∃ s1 : Sched, s1 = { s.update t fun p => { p with state := .terminated } with
    runQueue := s.runQueue.erase t, terminatedQueue := t :: s.terminatedQueue, noproc := s.noproc - 1 } := ⟨_, rfl⟩
  have h1 : Lasts s s1 := by
    rw [hs1]
    exact leave_lasts hs hrun rfl rfl (List.Perm.trans List.perm_middle (perm_erase_run hrun)) rfl rfl (.inl rfl)
  have hwake : handleWakeupOnExit s1 t p = some s2 := by
    rw [hs1]
    exact hwake
  have h2 := handleWakeupOnExit_lasts h1.timed hwake
  exact h1.trans (h2.trans (sysYield_lasts h2.timed hyield))

private theorem newTask_lasts (hs : Timed s) (h : SameQueues s s') (hnum : s.numTasks < s'.numTasks) {x : Pcb}
    (hx : x.waitDesc ≠ timerElapsed) (n : Nat) :
    Lasts s { s' with
      runQueue := s.numTasks :: s'.runQueue
      noproc := n
      pcb := fun u => if u = s.numTasks then some x else s'.pcb u } := by
  have hold := h.lasts hs
  have hne : ∀ u ∈ s'.all, u ≠ s.numTasks := by
    intro u hu
    rw [h.all] at hu
    exact Nat.ne_of_lt (hs.fresh u hu)
  refine ⟨⟨?_, fun u hu => ?_, fun u hu => ?_, hold.timed.prep, fun u hu => ?_, fun u hu => ?_⟩, fun u hu => ?_⟩
  · exact nodup_cons.2 ⟨fun hmem => hne _ hmem rfl, hold.timed.queued⟩
  · dsimp only
    rcases mem_cons.1 hu with rfl | hu
    · rw [if_pos rfl]
      rfl
    · rw [if_neg (hne u hu)]
      exact hold.timed.pcb u hu
  · rcases mem_cons.1 hu with rfl | hu
    · exact hnum
    · exact hold.timed.fresh u hu
  · unfold descOf
    dsimp only
    rcases mem_cons.1 hu with rfl | hu
    · rw [if_pos rfl]
      simpa using hx
    · rw [if_neg (hne u (mem_all_of_run hu))]
      exact hold.timed.run u hu
  · unfold descOf
    dsimp only
    rw [if_neg (hne u (mem_all_of_timer hu))]
    exact hold.timed.timer u hu
  · obtain ⟨hmem, hrem⟩ := hold.sleeps u hu
    refine ⟨hmem, ?_⟩
    unfold remOf at hrem ⊢
    dsimp only
    rw [if_neg (hne u (mem_all_of_timer hmem)), hrem]

private theorem sysFork_lasts (hs : Timed s) {env : ForkEnv} {r : Nat} (h : sysFork s env = some (s', r)) :
    Lasts s s' := by
  obtain ⟨t, ht, hrest⟩ := bind_eq_some_iff.1 h
  obtain ⟨p, hp, -⟩ := bind_eq_some_iff.1 hrest
  have hdesc : p.waitDesc ≠ timerElapsed := by
    have := hs.run t (hs.current ht)
    rw [descOf, hp] at this
    simpa using this
  -- what the call has changed at each of its steps
  have h1 : SameQueues s { s with numTasks := s.numTasks + 1 } :=
    ⟨rfl, rfl, rfl, rfl, rfl, Nat.le_succ _, fun _ => ⟨rfl, rfl⟩⟩
  have h2 : SameQueues s (getNextPid { s with numTasks := s.numTasks + 1 }).1 := by
    rw [getNextPid_eq]
    exact ⟨rfl, rfl, rfl, rfl, rfl, Nat.le_succ _, fun _ => ⟨rfl, rfl⟩⟩
  have h3 : SameQueues s (forking s t) := h2.trans (sameQueues_update fun _ => ⟨rfl, rfl⟩)
  have hnum : s.numTasks < (forking s t).numTasks := by
    rw [forking, getNextPid_eq]
    exact Nat.lt_succ_self _
  rcases sysFork_cases ht hp h with ⟨-, rfl⟩ | ⟨-, ⟨-, rfl⟩ | ⟨-, ⟨-, rfl⟩ | rfl | ⟨x, hx, rfl⟩⟩⟩
  · exact Lasts.refl hs
  · exact h1.lasts hs
  · exact h2.lasts hs
  · exact h3.lasts hs
  · exact newTask_lasts hs h3 hnum (hx ▸ hdesc) _

private theorem mem_elapsed (hs : Timed s) : u ∈ elapsed s ↔ u ∈ s.waitTimerQueue ∧ remOf s u = some 1 := by
  have hcount := countDown_eq hs.queued
  have hqueue : (countDown s).waitTimerQueue = s.waitTimerQueue := by rw [hcount]
  unfold elapsed
  rw [mem_filter, hqueue]
  refine and_congr_right fun hu => ?_
  obtain ⟨p, hp⟩ := isSome_iff_exists.1 (hs.pcb u (mem_all_of_timer hu))
  have hdesc : p.waitDesc ≠ timerElapsed := by
    have := hs.timer u hu
    rw [descOf, hp] at this
    simpa using this
  have hpcb : (countDown s).pcb u = some { p with
      sleepTimeRem := p.sleepTimeRem - 1
      waitDesc := if p.sleepTimeRem - 1 = 0 then timerElapsed else p.waitDesc } := by
    rw [hcount]
    dsimp only
    rw [if_pos hu, hp]
    rfl
  rw [waitsFor, hpcb, remOf, hp]
  by_cases hrem : p.sleepTimeRem = 1
  · simp [hrem]
  · have hzero : ¬ p.sleepTimeRem - 1 = 0 := by bv_omega
    simp only [if_neg hzero]
    simpa [hdesc] using hrem

private theorem sysWakeupTimer_sleeps (hs : Timed s) (h : sysWakeupTimer s = some s') :
    Timed s' ∧ ∀ u ∈ s.waitTimerQueue, if remOf s u = some 1 then u ∈ s'.runQueue ∧ u ∉ s'.waitTimerQueue
      else u ∈ s'.waitTimerQueue ∧ remOf s' u = (remOf s u).map (· - 1) := by
  have hcount := countDown_eq hs.queued
  have hmoves := moves_countDown hs.queued
  have hq : Queued (countDown s) := hmoves.perm.nodup_iff.2 hs.queued
  have hle : (elapsed s).length ≤ maxWaitProc := by
    obtain ⟨r, hr, -⟩ := map_eq_some_iff.1 h
    exact length_le_of_sysWakeupQueue hr
  rw [sysWakeupTimer_eq hs.queued hle] at h
  cases h
  have hnd : (elapsed s).Nodup := hq.timer.filter _
  have hsub : ∀ u ∈ elapsed s, u ∈ (countDown s).waitTimerQueue := fun u hu => (mem_filter.1 hu).1
  have hwoken : Moves s (woken (elapsed s) (countDown s)) :=
    hmoves.trans (moves_woken hq hnd fun u hu => .inr (hsub u hu))
  have hrun : (countDown s).runQueue = s.runQueue := by rw [hcount]
  have hqueue : (countDown s).waitTimerQueue = s.waitTimerQueue := by rw [hcount]
  have htimer : ∀ u, u ∈ (woken (elapsed s) (countDown s)).waitTimerQueue ↔ u ∈ s.waitTimerQueue ∧
      remOf s u ≠ some 1 := by
    intro u
    show u ∈ (countDown s).waitTimerQueue.filter (· ∉ elapsed s) ↔ _
    rw [mem_filter, hqueue]
    refine and_congr_right fun hu => ?_
    simp [mem_elapsed hs, hu]
  -- the PCB of a task that goes on sleeping
  have hpcb : ∀ u ∈ s.waitTimerQueue, remOf s u ≠ some 1 →
      (woken (elapsed s) (countDown s)).pcb u = (s.pcb u).map fun p =>
        { p with sleepTimeRem := p.sleepTimeRem - 1 } := by
    intro u hu hrem
    rw [woken_of_not_mem (fun hue => hrem ((mem_elapsed hs).1 hue).2), hcount]
    dsimp only
    rw [if_pos hu]
    cases hp : s.pcb u with
    | none => rfl
    | some p =>
      have hne : ¬ p.sleepTimeRem - 1 = 0 := by
        intro hzero
        refine hrem ?_
        rw [remOf, hp, map_some]
        congr 1
        bv_omega
      simp only [map_some, if_neg hne]
  refine ⟨⟨hwoken.perm.nodup_iff.2 hs.queued, fun u hu => ?_, fun u hu => ?_, hwoken.prep.trans hs.prep, fun u hu => ?_,
    fun u hu => ?_⟩, fun u hu => ?_⟩
  · rw [hwoken.isSome]
    exact hs.pcb u (hwoken.perm.mem_iff.1 hu)
  · rw [hwoken.numTasks]
    exact hs.fresh u (hwoken.perm.mem_iff.1 hu)
  · by_cases hue : u ∈ elapsed s
    · exact descOf_woken hue
    · have hu : u ∈ elapsed s ++ (countDown s).runQueue.filter (· ∉ elapsed s) := hu
      have hu := (mem_filter.1 ((mem_append.1 hu).resolve_left hue)).1
      rw [hrun] at hu
      rw [descOf, woken_of_not_mem hue, hcount]
      dsimp only
      rw [if_neg (hs.queued.run_timer hu)]
      exact hs.run u hu
  · obtain ⟨hu, hrem⟩ := (htimer u).1 hu
    rw [descOf, hpcb u hu hrem, Option.map_map]
    exact hs.timer u hu
  · split
    · next hrem =>
      have hue : u ∈ elapsed s := (mem_elapsed hs).2 ⟨hu, hrem⟩
      exact ⟨mem_append_left _ hue, fun hmem => ((htimer u).1 hmem).2 hrem⟩
    · next hrem =>
      refine ⟨(htimer u).2 ⟨hu, hrem⟩, ?_⟩
      rw [remOf, hpcb u hu hrem, remOf, Option.map_map, Option.map_map]
      rfl

/-- No event but a tick shortens the time of a task or wakes it up. -/
private theorem step_lasts (hs : Timed s) (he : e ≠ .tick) (h : step s e = some s') : Lasts s s' := by
  cases e with
  | yield => exact sysYield_lasts hs h
  | fork env =>
    obtain ⟨⟨s1, r⟩, hfork, rfl⟩ := map_eq_some_iff.1 h
    exact sysFork_lasts hs hfork
  | exit => exact sysExit_lasts hs h
  | sleep d => exact sysSleep_lasts hs h
  | sleepTimer k =>
    by_cases hk : 0 < k
    · obtain ⟨t, ht, -⟩ := bind_eq_some_iff.1 ((if_neg (by omega)).symm.trans h)
      exact (sysSleepTimer_lasts hs ht hk h).1
    · obtain rfl : s = s' := Option.some.inj ((if_pos (by omega)).symm.trans h)
      exact Lasts.refl hs
  | wakeup d =>
    obtain ⟨⟨s1, n⟩, hwake, rfl⟩ := map_eq_some_iff.1 h
    exact sysWakeup_lasts hs hwake
  | tick => exact absurd rfl he
  | setrlimit n =>
    cases h
    unfold sysSetrlimit
    split
    · exact Lasts.refl hs
    · have hsame : SameQueues s { s with rlimitNproc := n } :=
        ⟨rfl, rfl, rfl, rfl, rfl, Nat.le_refl _, fun _ => ⟨rfl, rfl⟩⟩
      exact hsame.lasts hs

/-- All operations keep it that no task on the run queue has the descriptor. -/
private theorem step_timed (hs : Timed s) (h : step s e = some s') : Timed s' := by
  by_cases he : e = .tick
  · subst he
    exact (sysWakeupTimer_sleeps hs h).1
  · exact (step_lasts hs he h).timed

private theorem run_timed (hs : Timed s) (h : run step s es = some s') : Timed s' := by
  induction es generalizing s with
  | nil => exact Option.some.inj h ▸ hs
  | cons e es ih =>
    obtain ⟨s1, h1, h⟩ := bind_eq_some_iff.1 h
    exact ih (step_timed hs h1) h

/-- Through fewer ticks than it asked for, a task sleeps on. -/
private theorem run_sleeps (hs : Timed s) (ht : t ∈ s.waitTimerQueue)
    (hrem : remOf s t = some (BitVec.ofNat 64 n)) (hn : n < 2 ^ 64) (hlt : es.count .tick < n)
    (h : run step s es = some s') :
    t ∈ s'.waitTimerQueue ∧ remOf s' t = some (BitVec.ofNat 64 (n - es.count .tick)) := by
  induction es generalizing s n with
  | nil =>
    cases h
    exact ⟨ht, hrem⟩
  | cons e es ih =>
    obtain ⟨s1, h1, h2⟩ := bind_eq_some_iff.1 h
    by_cases he : e = .tick
    · subst he
      rw [count_cons_self] at hlt ⊢
      obtain ⟨hs1, hsleeps⟩ := sysWakeupTimer_sleeps hs h1
      have hone : remOf s t ≠ some 1 := by
        rw [hrem]
        intro hone
        have := congrArg BitVec.toNat (Option.some.inj hone)
        rw [BitVec.toNat_ofNat, Nat.mod_eq_of_lt hn] at this
        simp at this
        omega
      have ht1 := hsleeps t ht
      rw [if_neg hone, hrem, map_some] at ht1
      have hpred : BitVec.ofNat 64 n - 1 = BitVec.ofNat 64 (n - 1) := by
        apply BitVec.eq_of_toNat_eq
        simp
        omega
      rw [hpred] at ht1
      have hsub : n - (es.count .tick + 1) = n - 1 - es.count .tick := by omega
      rw [hsub]
      exact ih hs1 ht1.1 ht1.2 (by omega) (by omega) h2
    · rw [count_cons_of_ne he] at hlt ⊢
      obtain ⟨hs1, hsleeps⟩ := step_lasts hs he h1
      obtain ⟨ht1, hrem1⟩ := hsleeps t ht
      exact ih hs1 ht1 (hrem1.trans hrem) hn hlt h2

private theorem cooperativeSchedule_timed {around : Nat → Int} {cr3 : Nat} {sh d : Uninit}
    (hsh : sh.waitDesc = notWaiting) (hd : d.waitDesc = notWaiting)
    (h : cooperativeSchedule (boot around) cr3 sh d = some s) : Timed s := by
  obtain ⟨s0, hs0, hstart⟩ := cooperativeSchedule_start around cr3 sh d
  obtain rfl : s0 = s := Option.some.inj (hs0.symm.trans h)
  have hdesc : ∀ u, descOf s0 u ≠ some timerElapsed := by
    intro u
    cases hp : s0.pcb u with
    | none => simp [descOf, hp]
    | some p =>
      have hp' := cooperativeSchedule_waitDesc h hp
      rw [hsh, hd, or_self] at hp'
      simp [descOf, hp, hp', notWaiting, timerElapsed]
  have hinv := hstart.inv
  exact ⟨hinv.queued, fun u hu => (hinv.pcb_iff u).1 hu, fun u hu => hinv.fresh ((hinv.pcb_iff u).1 hu), hinv.prep,
    fun u _ => hdesc u, fun u _ => hdesc u⟩

/-- In every run from two tasks that do not wait, a task that calls `sys_sleep_timer(k)` stays on the timer queue until
the `k`-th tick, which puts it on the run queue, if no more than `MAX_WAIT_PROC` tasks expire on it. -/
theorem sleepTimer_exact (around : Nat → Int) (cr3 : Nat) (sh d : Uninit) (hsh : sh.waitDesc = notWaiting)
    (hd : d.waitDesc = notWaiting) (s₀ : Sched) (h₀ : cooperativeSchedule (boot around) cr3 sh d = some s₀)
    (es : List Event) (s : Sched) (hs : run step s₀ es = some s) (t : TaskId) (ht : getCurrentTask s = some t)
    (k : Int) (hk : 0 < k) (hk' : k < 2 ^ 63) (s₁ : Sched) (h₁ : step s (.sleepTimer k) = some s₁) (es' : List Event)
    (s₂ : Sched) (h₂ : run step s₁ es' = some s₂) : (es'.count .tick < k → t ∈ s₂.waitTimerQueue ∧ t ∉ s₂.runQueue) ∧
      (es'.count .tick + 1 = k → (elapsed s₂).length ≤ maxWaitProc →
        ∃ s₃, step s₂ .tick = some s₃ ∧ t ∈ s₃.runQueue ∧ t ∉ s₃.waitTimerQueue) := by
  have htimed : Timed s := run_timed (cooperativeSchedule_timed hsh hd h₀) hs
  obtain ⟨n, rfl⟩ := Int.eq_ofNat_of_zero_le (Int.le_of_lt hk)
  obtain ⟨hlasts, hmem, hrem⟩ := sysSleepTimer_lasts htimed ht hk h₁
  rw [BitVec.ofInt_natCast] at hrem
  have htimed2 : Timed s₂ := run_timed hlasts.timed h₂
  constructor
  · intro hlt
    obtain ⟨hmem2, -⟩ := run_sleeps hlasts.timed hmem hrem (by omega) (by omega) h₂
    exact ⟨hmem2, fun hrun => htimed2.queued.run_timer hrun hmem2⟩
  · intro hlast hle
    obtain ⟨hmem2, hrem2⟩ := run_sleeps hlasts.timed hmem hrem (by omega) (by omega) h₂
    obtain ⟨s₃, h3⟩ : ∃ s₃, step s₂ .tick = some s₃ := ⟨_, sysWakeupTimer_eq htimed2.queued hle⟩
    have hwake := (sysWakeupTimer_sleeps htimed2 h3).2 t hmem2
    have hsub : n - es'.count .tick = 1 := by omega
    rw [hsub] at hrem2
    replace hrem2 : remOf s₂ t = some 1 := hrem2
    rw [if_pos hrem2] at hwake
    exact ⟨s₃, h3, hwake⟩

theorem sleepTimer_exact_shell : ∃ s₂ s₃, run step plainStart [.yield, .sleepTimer 2, .tick] = some s₂ ∧
    0 ∈ s₂.waitTimerQueue ∧ step s₂ .tick = some s₃ ∧ 0 ∈ s₃.runQueue := by
  have hcheck : ((run step plainStart [.yield]).bind fun s => (step s (.sleepTimer 2)).bind fun s1 =>
      (run step s1 [.tick]).bind fun s₂ =>
        if getCurrentTask s = some 0 ∧ (elapsed s₂).length ≤ maxWaitProc then some () else none) = some () := by
    decide +kernel
  obtain ⟨s, hs, hcheck⟩ := bind_eq_some_iff.1 hcheck
  obtain ⟨s1, h1, hcheck⟩ := bind_eq_some_iff.1 hcheck
  obtain ⟨s₂, h2, hcheck⟩ := bind_eq_some_iff.1 hcheck
  obtain ⟨ht, hle⟩ : getCurrentTask s = some 0 ∧ (elapsed s₂).length ≤ maxWaitProc := by
    by_contra hnot
    rw [if_neg hnot] at hcheck
    cases hcheck
  obtain ⟨hbefore, hlast⟩ := sleepTimer_exact (fun _ => 0) 0x1000 zeroed zeroed rfl rfl plainStart plainStart_eq
    [.yield] s hs 0 ht 2 (by decide) (by decide) s1 h1 [.tick] s₂ h2
  obtain ⟨s₃, h3, hrun, -⟩ := hlast (by decide) hle
  have hall : run step plainStart [.yield, .sleepTimer 2, .tick] = some s₂ := by
    show run step plainStart ([.yield] ++ [.sleepTimer 2, .tick]) = some s₂
    rw [run_append, hs, bind_some, run, h1, bind_some, h2]
  exact ⟨s₂, s₃, hall, (hbefore (by decide)).1, h3, hrun⟩

end Adix.Scheduler
