import Adix.Scheduler.Queues

/-!
# Fork and exit

The two operations that change which tasks there are.
-/

namespace Adix.Scheduler

open List Option

variable {s s' : Sched} {t u c q : TaskId} {p pq : Pcb} {env : ForkEnv}

structure Exited (s s' : Sched) (t : TaskId) (p : Pcb) : Prop where
  current : getCurrentTask s = some t
  pcb_eq : s.pcb t = some p
  wait : s'.waitQueue = s.waitQueue.filter (· ∉ wokenByExit s p)
  timer : s'.waitTimerQueue = s.waitTimerQueue
  pcb_self : s'.pcb t = none
  pcb_other : ∀ u, u ≠ t → s'.pcb u = (s.pcb u).map (afterExit t p (wokenByExit s p) u)
  pidArray : ∀ i, s'.pidArray i = if i = p.pid then 0 else s.pidArray i
  numTasks : s'.numTasks = s.numTasks

private def exiting (s : Sched) (t : TaskId) : Sched :=
  { s.update t fun p => { p with state := .terminated } with
    runQueue := s.runQueue.erase t, terminatedQueue := [t], noproc := s.noproc - 1 }

private theorem exiting_pcb (hp : s.pcb t = some p) (u : TaskId) : (exiting s t).pcb u =
    if u = t then some { p with state := .terminated } else s.pcb u := by
  show (s.update t _).pcb u = _
  by_cases hu : u = t
  · rw [hu, update_self, hp, if_pos rfl]
    rfl
  · rw [update_other hu, if_neg hu]

private theorem wokenByExit_exiting (hp : s.pcb t = some p) : wokenByExit (exiting s t) p = wokenByExit s p := by
  have hwaits : ∀ d, waiting (exiting s t) d = waiting s d := by
    intro d
    refine filter_congr fun u _ => ?_
    unfold waitsFor
    rw [exiting_pcb hp]
    by_cases hu : u = t
    · rw [if_pos hu, hu, hp]
    · rw [if_neg hu]
  unfold wokenByExit
  cases p.parent with
  | none => rfl
  | some q =>
    simp only [bind_some, hwaits, exiting_pcb hp]
    by_cases hq : q = t
    · rw [if_pos hq, hq, hp]
    · rw [if_neg hq]

private theorem queued_exiting (hs : Inv s) (ht : t ∈ s.runQueue) : (exiting s t).all.Perm s.all := by
  show (s.runQueue.erase t ++ s.waitQueue ++ s.waitTimerQueue ++ [t]).Perm _
  refine (perm_append_singleton t _).trans ?_
  unfold Sched.all
  rw [hs.terminated, append_nil]
  exact ((perm_cons_erase ht).symm.append_right _).append_right _

private def exited (s : Sched) (t : TaskId) (p : Pcb) : Sched :=
  { woken (wokenByExit s p) (exiting s t) with
    pcb := fun u => ((exiting s t).pcb u).map (afterExit t p (wokenByExit s p) u) }

private theorem exited_pcb (hp : s.pcb t = some p) (u : TaskId) : (exited s t p).pcb u = (s.pcb u).map fun x =>
    { afterExit t p (wokenByExit s p) u x with state := if u = t then .terminated else x.state } := by
  show ((exiting s t).pcb u).map _ = _
  rw [exiting_pcb hp]
  by_cases hu : u = t
  · simp [hu, hp, afterExit]
  · cases s.pcb u with
    | none => simp [hu]
    | some x => simp [hu, afterExit]

private theorem isSome_exited (hp : s.pcb t = some p) : ((exited s t p).pcb u).isSome = (s.pcb u).isSome := by
  rw [exited_pcb hp, isSome_map]

private theorem exited_subset : ∀ u ∈ wokenByExit s p, u ∈ (exiting s t).waitQueue ∨ u ∈ (exiting s t).waitTimerQueue :=
  fun u hu => Or.inl (show u ∈ s.waitQueue from wokenByExit_subset u hu)

private theorem exited_moves (hs : Inv s) (ht : t ∈ s.runQueue) (p : Pcb) :
    Moves (exiting s t) (woken (wokenByExit s p) (exiting s t)) :=
  moves_woken ((queued_exiting hs ht).nodup_iff.2 hs.queued) (nodup_wokenByExit hs.queued) exited_subset

private theorem core_exited (hs : Inv s) (ht : t ∈ s.runQueue) (hp : s.pcb t = some p) (hd : t ≠ daemon) :
    Core (exited s t p) := by
  have hmoves := exited_moves hs ht p
  have hperm : (exited s t p).all.Perm s.all := hmoves.perm.trans (queued_exiting hs ht)
  have hterm : (exited s t p).terminatedQueue = [t] := hmoves.terminated
  have hq : Queued (exiting s t) := (queued_exiting hs ht).nodup_iff.2 hs.queued
  have hlive : ∀ {u : TaskId}, u ∉ s.terminatedQueue := by simp [hs.terminated]
  have hne : ∀ {u : TaskId}, u ∉ (exited s t p).terminatedQueue → u ≠ t := by simp [hterm]
  -- a task has the PCB that it had before the exit, with a few fields changed
  have hback : ∀ {u p'}, (exited s t p).pcb u = some p' → ∃ x, s.pcb u = some x ∧
      p' = { afterExit t p (wokenByExit s p) u x with state := if u = t then .terminated else x.state } := by
    intro u p' hp'
    rw [exited_pcb hp] at hp'
    obtain ⟨x, hx, rfl⟩ := map_eq_some_iff.1 hp'
    exact ⟨x, hx, rfl⟩
  have hchildren : ∀ {u x c}, c ∈ (afterExit t p (wokenByExit s p) u x).children → c ∈ x.children := by
    intro u x c hc
    unfold afterExit at hc
    dsimp only at hc
    split at hc
    · exact mem_of_mem_erase hc
    · exact hc
  exact
    { queued := hperm.nodup_iff.2 hs.queued
      pcb_iff := fun u => by rw [hperm.mem_iff, hs.pcb_iff, isSome_exited hp]
      state := fun {u p'} hp' => by
        obtain ⟨x, hx, rfl⟩ := hback hp'
        rw [hterm, mem_singleton]
        by_cases hu : u = t
        · simp [hu]
        · simpa [hu] using (hs.state hx).2 hlive
      noproc := by
        have hlen := hs.noproc
        have hpos : 0 < s.all.length := length_pos_of_mem (mem_all_of_run ht)
        rw [hs.terminated, length_nil] at hlen
        rw [hterm, hperm.length_eq]
        show s.noproc - 1 + 1 = _
        omega
      fresh := fun {u} hu => hs.fresh (isSome_exited hp ▸ hu)
      prep := hs.prep
      daemon := mem_run_woken hq exited_subset ((mem_erase_of_ne hd.symm).2 hs.daemon)
      parent := fun {c p' q} hc hp' hq => by
        obtain ⟨x, hx, rfl⟩ := hback hp'
        have hcp : c ∉ p.children := fun hmem => by simp [afterExit, hmem] at hq
        have hpar : x.parent = some q := by simpa [afterExit, hcp] using hq
        obtain ⟨pq, hpq, hmem⟩ := hs.parent hlive hx hpar
        refine ⟨_, by rw [exited_pcb hp, hpq]; rfl, ?_⟩
        show c ∈ if p.parent = some q then pq.children.erase t else pq.children
        split
        · exact (mem_erase_of_ne (hne hc)).2 hmem
        · exact hmem
      child := fun {q pq' c p'} hq hpq' hc hp' => by
        obtain ⟨pq, hpq, rfl⟩ := hback hpq'
        obtain ⟨x, hx, rfl⟩ := hback hp'
        have hpar := hs.child hlive hpq (hchildren hc) hx
        -- the child has one parent, so it is not a child of the exiting task
        have hcp : c ∉ p.children := fun hmem => by
          have := hs.child hlive hp hmem hx
          rw [hpar] at this
          exact hne hq (some.inj this)
        simpa [afterExit, hcp] using hpar
      bound := fun {q pq' c} hpq' hc => by
        obtain ⟨pq, hpq, rfl⟩ := hback hpq'
        exact hs.bound hpq (hchildren hc) }

/-- A task that exits is unlinked from its parent and its children before its PCB is released, so that no PCB refers to
one that is not there. -/
theorem sysExit_spec (hs : Inv s) (ht : getCurrentTask s = some t) (hp : s.pcb t = some p) (hd : t ≠ daemon)
    (hm : (wokenByExit s p).length ≤ maxWaitProc) : ∃ s', sysExit s = some s' ∧ Inv s' ∧ Exited s s' t p := by
  have hrun := hs.mem_run_of_current ht
  have hq : Queued (exiting s t) := (queued_exiting hs hrun).nodup_iff.2 hs.queued
  have hlive : ∀ {u : TaskId}, u ∉ s.terminatedQueue := by simp [hs.terminated]
  have hcore := core_exited hs hrun hp hd
  have hterm : (exited s t p).terminatedQueue = [t] := (exited_moves hs hrun p).terminated
  have hself : (exiting s t).pcb t = some { p with state := .terminated } := by rw [exiting_pcb hp, if_pos rfl]
  have hparent : ∀ q, p.parent = some q → ((exiting s t).pcb q).isSome := by
    intro q hpar
    obtain ⟨pq, hpq, -⟩ := hs.parent hlive hp hpar
    rw [exiting_pcb hp]
    split
    · rfl
    · rw [hpq]; rfl
  have heq : sysExit s = sysYield (exited s t p) := by
    have hpar : Pcb.parent { p with state := .terminated } = p.parent := rfl
    have hh := handleWakeupOnExit_eq hq hself hpar hparent (by rw [wokenByExit_exiting hp]; exact hm)
    rw [wokenByExit_exiting hp] at hh
    unfold sysExit
    simp only [ht, hp, bind_eq_bind, bind_some]
    rw [listDel_of_run (queued_update hs.queued) hrun]
    have hempty : (s.update t fun p => { p with state := .terminated }).terminatedQueue = [] := hs.terminated
    simp only [hempty]
    exact congrArg (Option.bind · sysYield) hh
  obtain ⟨s', hs', hy⟩ := hcore.yields
  have hlast : getTerminatedTask (exited s t p) = some t := by rw [getTerminatedTask, hterm]; rfl
  have hpid : terminatedPid (exited s t p) = some p.pid := by
    rw [terminatedPid, hlast, bind_some, exited_pcb hp, hp]
    rfl
  have htimer : (exited s t p).waitTimerQueue = s.waitTimerQueue := filter_not_mem_eq_self fun u hu hum =>
    hs.queued.wait_timer (wokenByExit_subset u hum) hu
  refine ⟨s', heq.trans hs', hy.inv hcore (by rw [hterm]; rfl) ?_, ht, hp, hy.wait, hy.timer.trans htimer, ?_, ?_, ?_,
    hy.numTasks⟩
  · -- the children of the exiting task have no parent any more
    intro c p' q hc hp' hpar hqt
    rw [hterm, mem_singleton] at hqt
    rw [hterm, mem_singleton] at hc
    subst hqt
    rw [exited_pcb hp] at hp'
    obtain ⟨x, hx, rfl⟩ := map_eq_some_iff.1 hp'
    have hcp : c ∉ p.children := fun hmem => by simp [afterExit, hmem] at hpar
    obtain ⟨pq, hpq, hmem⟩ := hs.parent hlive hx (by simpa [afterExit, hcp] using hpar)
    rw [hp] at hpq
    exact hcp (some.inj hpq ▸ hmem)
  · rw [hy.pcb t, if_pos hlast]
  · intro u hu
    rw [hy.pcb u, if_neg (by rw [hlast]; simpa using Ne.symm hu), exited_pcb hp]
    cases s.pcb u with
    | none => rfl
    | some x => simp [hu, afterExit]
  · intro i
    rw [hy.pidArray i, hpid]
    by_cases hi : i = p.pid
    · simp [hi]
    · rw [if_neg hi, if_neg (by simpa using Ne.symm hi)]
      rfl

theorem wokenByExit_of_sysExit (hs : Inv s) (ht : getCurrentTask s = some t) (hp : s.pcb t = some p)
    (h : sysExit s = some s') : (wokenByExit s p).length ≤ maxWaitProc := by
  have hrun := hs.mem_run_of_current ht
  have hempty : (s.update t fun p => { p with state := .terminated }).terminatedQueue = [] := hs.terminated
  unfold sysExit at h
  simp only [ht, hp, bind_eq_bind, bind_some] at h
  rw [listDel_of_run (queued_update hs.queued) hrun] at h
  simp only [hempty] at h
  obtain ⟨s1, hs1, -⟩ := bind_eq_some_iff.1 h
  rw [← wokenByExit_exiting hp]
  exact length_wokenByExit_le ((queued_exiting hs hrun).nodup_iff.2 hs.queued) hs1

def ForkEnv.Succeeds (env : ForkEnv) (p : Pcb) : Prop :=
  env.pcbOk = true ∧ env.stackOk = true ∧ (p.name.isSome = true → env.nameOk = true) ∧ env.childrenOk = true ∧
    env.pageTable.isSome = true ∧ env.tssOk = true ∧ env.mmOk = true

instance (env : ForkEnv) (p : Pcb) : Decidable (env.Succeeds p) := inferInstanceAs (Decidable (_ ∧ _))

/-- The effect of a fork by the task `t` with the PCB `p`, with the PCB `x` of the new task. -/
structure Forked (s s' : Sched) (t : TaskId) (p x : Pcb) : Prop where
  current : getCurrentTask s = some t
  pcb_eq : s.pcb t = some p
  pid : x.pid = (getNextPid s).2
  parent : x.parent = some t
  children : x.children = []
  state : x.state = p.state
  pcb_new : s'.pcb s.numTasks = some x
  pcb_parent : s'.pcb t = some { p with children := p.children ++ [s.numTasks] }
  pcb_other : ∀ u, u ≠ s.numTasks → u ≠ t → s'.pcb u = s.pcb u
  run : s'.runQueue = s.numTasks :: s.runQueue
  wait : s'.waitQueue = s.waitQueue
  timer : s'.waitTimerQueue = s.waitTimerQueue
  terminated : s'.terminatedQueue = s.terminatedQueue
  noproc : s'.noproc = s.noproc + 1
  numTasks : s'.numTasks = s.numTasks + 1
  prep : s'.prepTask = s.prepTask
  stack : s'.stack = s.stack
  limit : s'.rlimitNproc = s.rlimitNproc
  pidArray : s'.pidArray = (getNextPid s).1.pidArray

theorem getNextPid_eq : (getNextPid s).1 = { s with pidArray := (getNextPid s).1.pidArray } := by
  unfold getNextPid
  split <;> rfl

private theorem getNextPid_congr (h : s'.pidArray = s.pidArray) :
    (getNextPid s').1.pidArray = (getNextPid s).1.pidArray ∧ (getNextPid s').2 = (getNextPid s).2 := by
  unfold getNextPid
  rw [h]
  split
  · exact ⟨rfl, rfl⟩
  · exact ⟨h, rfl⟩

private def childPcb (s : Sched) (env : ForkEnv) (t : TaskId) (p : Pcb) (cr3 : Nat) : Pcb where
  pid := (getNextPid s).2
  name := p.name
  parent := some t
  wakeupReturn := env.uninit.wakeupReturn
  children := []
  state := p.state
  type := p.type
  cr3Content := cr3
  waitDesc := p.waitDesc
  sleepTimeRem := env.uninit.sleepTimeRem

def forking (s : Sched) (t : TaskId) : Sched :=
  addChild (getNextPid { s with numTasks := s.numTasks + 1 }).1 t s.numTasks

/-- The exits of `sys_fork`, and what each has done by then. -/
theorem sysFork_cases {r : Nat} (ht : getCurrentTask s = some t) (hp : s.pcb t = some p)
    (h : sysFork s env = some (s', r)) :
    env.pcbOk = false ∧ s' = s ∨ env.pcbOk = true ∧ (env.stackOk = false ∧ s' = { s with numTasks := s.numTasks + 1 } ∨
      env.stackOk = true ∧
        ((p.name.isSome && !env.nameOk) = true ∧ s' = (getNextPid { s with numTasks := s.numTasks + 1 }).1 ∨
        s' = forking s t ∨ ∃ x : Pcb, x.waitDesc = p.waitDesc ∧ s' = { forking s t with
          runQueue := s.numTasks :: (forking s t).runQueue
          noproc := (forking s t).noproc + 1
          pcb := fun u => if u = s.numTasks then some x else (forking s t).pcb u })) := by
  unfold sysFork at h
  rw [ht, bind_eq_bind, bind_some, hp, bind_eq_bind, bind_some] at h
  by_cases hpcb : (!env.pcbOk) = true
  · rw [if_pos hpcb] at h
    cases h
    exact .inl ⟨by simpa using hpcb, rfl⟩
  rw [if_neg hpcb] at h
  refine .inr ⟨by simpa using hpcb, ?_⟩
  by_cases hstack : (!env.stackOk) = true
  · rw [if_pos hstack] at h
    cases h
    exact .inl ⟨by simpa using hstack, rfl⟩
  rw [if_neg hstack] at h
  refine .inr ⟨by simpa using hstack, ?_⟩
  unfold forking
  generalize getNextPid { s with numTasks := s.numTasks + 1 } = q at h ⊢
  obtain ⟨s2, pid⟩ := q
  dsimp only at h ⊢
  by_cases hname : (p.name.isSome && !env.nameOk) = true
  · rw [if_pos hname] at h
    cases h
    exact .inl ⟨hname, rfl⟩
  rw [if_neg hname] at h
  refine .inr ?_
  by_cases hchildren : (!env.childrenOk) = true
  · rw [if_pos hchildren] at h
    cases h
  rw [if_neg hchildren] at h
  -- from here on the list of children has the new task
  cases hcr3 : env.pageTable with
  | none =>
    rw [hcr3] at h
    cases h
    exact .inl rfl
  | some cr3 =>
    rw [hcr3] at h
    by_cases hlim : (addChild s2 t s.numTasks).noproc + 1 > (addChild s2 t s.numTasks).rlimitNproc
    · simp only [addToTaskList, if_pos hlim, Bool.not_false, if_true] at h
      split_ifs at h <;> cases h <;> exact .inl rfl
    · simp only [addToTaskList, if_neg hlim, Bool.not_true, Bool.false_eq_true, if_false] at h
      split_ifs at h <;> cases h
      · exact .inl rfl
      · exact .inl rfl
      · refine .inr ⟨_, ?_, rfl⟩
        rfl

/-- A fork within the limit makes a new task, linked to its parent. -/
theorem sysFork_spec (hs : Inv s) (ht : getCurrentTask s = some t) (hp : s.pcb t = some p)
    (henv : env.Succeeds p) (hlim : s.noproc + 1 ≤ s.rlimitNproc) :
    ∃ s' x, sysFork s env = some (s', x.pid) ∧ Forked s s' t p x := by
  obtain ⟨h1, h2, h3, h4, h5, h6, h7⟩ := henv
  obtain ⟨cr3, hcr3⟩ := isSome_iff_exists.1 h5
  have hname : (p.name.isSome && !env.nameOk) = false := by
    cases hn : p.name.isSome with
    | false => rfl
    | true => rw [h3 hn]; rfl
  have htn : t ≠ s.numTasks := Nat.ne_of_lt (hs.fresh (by rw [hp]; rfl))
  -- the state before the task is put on the run queue
  set s1 := addChild { s with numTasks := s.numTasks + 1, pidArray := (getNextPid s).1.pidArray } t s.numTasks with hs1
  have hnext : getNextPid { s with numTasks := s.numTasks + 1 } =
      ({ s with numTasks := s.numTasks + 1, pidArray := (getNextPid s).1.pidArray }, (getNextPid s).2) := by
    have hsame : Sched.pidArray { s with numTasks := s.numTasks + 1 } = s.pidArray := rfl
    obtain ⟨ha, hb⟩ := getNextPid_congr hsame
    exact Prod.ext (by rw [getNextPid_eq, ha]) hb
  have hadd : addToTaskList s1 s.numTasks =
      ({ s1 with runQueue := s.numTasks :: s.runQueue, noproc := s.noproc + 1 }, true) :=
    if_neg (Nat.not_lt.2 hlim)
  refine ⟨{ s1 with
    runQueue := s.numTasks :: s.runQueue
    noproc := s.noproc + 1
    pcb := fun u => if u = s.numTasks then some (childPcb s env t p cr3) else s1.pcb u },
    childPcb s env t p cr3, ?_, ?_⟩
  · unfold sysFork
    simp only [ht, hp, h1, h2, h4, h6, h7, hcr3, hname, hnext, bind_eq_bind, bind_some, Bool.not_true,
      Bool.false_eq_true, if_false]
    rw [← hs1, hadd]
    rfl
  · exact
      { current := ht
        pcb_eq := hp
        pid := rfl
        parent := rfl
        children := rfl
        state := rfl
        pcb_new := if_pos rfl
        pcb_parent := by
          show (if t = s.numTasks then _ else s1.pcb t) = _
          rw [if_neg htn]
          show (s.update t _).pcb t = _
          rw [update_self, hp]
          rfl
        pcb_other := fun u hu hut => by
          show (if u = s.numTasks then _ else s1.pcb u) = _
          rw [if_neg hu]
          exact update_other hut
        run := rfl
        wait := rfl
        timer := rfl
        terminated := rfl
        noproc := rfl
        numTasks := rfl
        prep := rfl
        stack := rfl
        limit := rfl
        pidArray := rfl }

namespace Forked

variable {x y : Pcb}

/-- A fork changes nothing in the other PCBs but the list of children of the parent. -/
theorem pcb (h : Forked s s' t p x) (u : TaskId) : s'.pcb u = if u = s.numTasks then some x else
    (s.pcb u).map fun y => { y with children := if u = t then y.children ++ [s.numTasks] else y.children } := by
  by_cases hu : u = s.numTasks
  · rw [if_pos hu, hu, h.pcb_new]
  · rw [if_neg hu]
    by_cases hut : u = t
    · rw [hut, h.pcb_parent, h.pcb_eq, map_some, if_pos rfl]
    · simp [h.pcb_other u hu hut, hut]

theorem pcb_some (h : Forked s s' t p x) (hy : s'.pcb u = some y) : u = s.numTasks ∧ y = x ∨ u ≠ s.numTasks ∧ ∃ y0,
    s.pcb u = some y0 ∧ y = { y0 with children := if u = t then y0.children ++ [s.numTasks] else y0.children } := by
  rw [h.pcb u] at hy
  split at hy
  · next hu => exact .inl ⟨hu, (some.inj hy).symm⟩
  · next hu =>
    obtain ⟨y0, hy0, rfl⟩ := map_eq_some_iff.1 hy
    exact .inr ⟨hu, y0, hy0, rfl⟩

theorem isSome_iff (h : Forked s s' t p x) : (s'.pcb u).isSome ↔ u = s.numTasks ∨ (s.pcb u).isSome := by
  rw [h.pcb u]
  split
  · next hu => simp [hu]
  · next hu => simp [hu]

/-- After a fork a child is the new one or an old one. -/
theorem children_cases (h : Forked s s' t p x) (hy : s'.pcb q = some y) (hc : c ∈ y.children) :
    c = s.numTasks ∧ q = t ∨ ∃ y0, s.pcb q = some y0 ∧ c ∈ y0.children := by
  obtain ⟨-, rfl⟩ | ⟨-, y0, hy0, rfl⟩ := h.pcb_some hy
  · rw [h.children] at hc
    cases hc
  · split at hc
    · next hqt =>
      rcases mem_append.1 hc with hc | hc
      · exact .inr ⟨y0, hy0, hc⟩
      · exact .inl ⟨mem_singleton.1 hc, hqt⟩
    · exact .inr ⟨y0, hy0, hc⟩

private theorem all_eq (h : Forked s s' t p x) : s'.all = s.numTasks :: s.all := by
  unfold Sched.all
  rw [h.run, h.wait, h.timer, h.terminated]
  rfl

/-- A fork keeps the invariant. -/
theorem inv (h : Forked s s' t p x) (hs : Inv s) : Inv s' := by
  have hfresh : s.pcb s.numTasks = none := hs.pcb_numTasks
  have hnew : s.numTasks ∉ s.all := fun hmem => by
    have := (hs.pcb_iff _).1 hmem
    rw [hfresh] at this
    cases this
  have hempty : s'.terminatedQueue = [] := h.terminated.trans hs.terminated
  have hlive : ∀ {u : TaskId}, u ∉ s.terminatedQueue := by simp [hs.terminated]
  exact
    { queued := by
        unfold Queued
        rw [h.all_eq]
        exact nodup_cons.2 ⟨hnew, hs.queued⟩
      pcb_iff := fun u => by rw [h.all_eq, mem_cons, hs.pcb_iff, h.isSome_iff]
      state := fun {u y} hy => by
        rw [hempty]
        obtain ⟨-, rfl⟩ | ⟨-, y0, hy0, rfl⟩ := h.pcb_some hy
        · simpa [h.state] using (hs.state h.pcb_eq).2 hlive
        · simpa using (hs.state hy0).2 hlive
      noproc := by
        have := hs.noproc
        rw [hs.terminated, length_nil] at this
        rw [h.noproc, hempty, h.all_eq, length_cons, length_nil]
        omega
      fresh := fun {u} hu => by
        rw [h.numTasks]
        rcases h.isSome_iff.1 hu with rfl | hu
        · exact Nat.lt_succ_self _
        · exact Nat.lt_succ_of_lt (hs.fresh hu)
      prep := h.prep.trans hs.prep
      daemon := by
        rw [h.run]
        exact mem_cons_of_mem _ hs.daemon
      parent := fun {c y q} _ hy hq => by
        obtain ⟨rfl, rfl⟩ | ⟨-, y0, hy0, rfl⟩ := h.pcb_some hy
        · rw [h.parent] at hq
          cases hq
          exact ⟨_, h.pcb_parent, by simp⟩
        · obtain ⟨pq, hpq, hmem⟩ := hs.parent hlive hy0 hq
          have hqn : q ≠ s.numTasks := by
            rintro rfl
            rw [hfresh] at hpq
            cases hpq
          refine ⟨_, by rw [h.pcb q, if_neg hqn, hpq, map_some], ?_⟩
          split
          · exact mem_append_left _ hmem
          · exact hmem
      child := fun {q y c z} _ hy hc hz => by
        obtain ⟨rfl, rfl⟩ | ⟨y0, hy0, hc⟩ := h.children_cases hy hc
        · rw [h.pcb_new] at hz
          rw [← some.inj hz]
          exact h.parent
        · obtain ⟨hcn, -⟩ | ⟨-, z0, hz0, rfl⟩ := h.pcb_some hz
          · exact absurd hcn (Nat.ne_of_lt (hs.bound hy0 hc))
          · have hpar := hs.child hlive hy0 hc hz0
            exact hpar
      bound := fun {q y c} hy hc => by
        rw [h.numTasks]
        obtain ⟨rfl, -⟩ | ⟨y0, hy0, hc⟩ := h.children_cases hy hc
        · exact Nat.lt_succ_self _
        · exact Nat.lt_succ_of_lt (hs.bound hy0 hc)
      terminated := hempty
      current := by
        rw [h.run, h.stack, ← hs.current, getLast?_cons, getLast?_eq_some_getLast hs.run_ne_nil]
        rfl }

end Forked

end Adix.Scheduler
