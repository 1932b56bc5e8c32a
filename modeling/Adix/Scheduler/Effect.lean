import Adix.Scheduler.Defs
import Mathlib.Data.List.Perm.Basic
import Mathlib.Data.List.Perm.Lattice

/-!
# What the operations of the scheduler do

As long as no task is on two lists or twice on one (`Queued`), the operations on the shared link field are operations
on the list that a task is on.
-/

namespace Adix.Scheduler

open List Option

variable {s s' : Sched} {t u x q : TaskId} {p px pt : Pcb} {m l : List TaskId} {f : Pcb → Pcb} {d : Nat}
  {r : Sched × Nat}

def Sched.all (s : Sched) : List TaskId := s.runQueue ++ s.waitQueue ++ s.waitTimerQueue ++ s.terminatedQueue

def Queued (s : Sched) : Prop := s.all.Nodup

@[simp] theorem update_self : (s.update t f).pcb t = (s.pcb t).map f := if_pos rfl

theorem update_other (h : u ≠ t) : (s.update t f).pcb u = s.pcb u := if_neg h

private theorem perm_append_filter (hm : m.Nodup) (hl : l.Nodup) (hsub : ∀ t ∈ m, t ∈ l) :
    (m ++ l.filter (· ∉ m)).Perm l := by
  have hnd : (m ++ l.filter (· ∉ m)).Nodup := by
    refine List.Nodup.append hm (hl.filter _) fun t ht ht' => ?_
    have := (mem_filter.1 ht').2
    simp [ht] at this
  refine (perm_ext_iff_of_nodup hnd hl).2 fun t => ?_
  rw [mem_append, mem_filter]
  constructor
  · rintro (ht | ht)
    · exact hsub t ht
    · exact ht.1
  · intro ht
    by_cases h : t ∈ m
    · exact Or.inl h
    · exact Or.inr ⟨ht, by simp [h]⟩

theorem filter_not_mem_eq_self (h : ∀ t ∈ l, t ∉ m) : l.filter (· ∉ m) = l :=
  filter_eq_self.2 fun t ht => by simp [h t ht]

namespace Queued

theorem run (h : Queued s) : s.runQueue.Nodup := (nodup_append.1 (nodup_append.1 (nodup_append.1 h).1).1).1

theorem wait (h : Queued s) : s.waitQueue.Nodup := (nodup_append.1 (nodup_append.1 (nodup_append.1 h).1).1).2.1

theorem timer (h : Queued s) : s.waitTimerQueue.Nodup := (nodup_append.1 (nodup_append.1 h).1).2.1

private theorem terminated (h : Queued s) : s.terminatedQueue.Nodup := (nodup_append.1 h).2.1

theorem run_wait (h : Queued s) (ht : t ∈ s.runQueue) : t ∉ s.waitQueue := fun hw =>
  (nodup_append.1 (nodup_append.1 (nodup_append.1 h).1).1).2.2 t ht t hw rfl

theorem run_timer (h : Queued s) (ht : t ∈ s.runQueue) : t ∉ s.waitTimerQueue := fun hw =>
  (nodup_append.1 (nodup_append.1 h).1).2.2 t (mem_append_left _ ht) t hw rfl

theorem wait_timer (h : Queued s) (ht : t ∈ s.waitQueue) : t ∉ s.waitTimerQueue := fun hw =>
  (nodup_append.1 (nodup_append.1 h).1).2.2 t (mem_append_right _ ht) t hw rfl

theorem not_terminated (h : Queued s) (ht : t ∈ s.runQueue ++ s.waitQueue ++ s.waitTimerQueue) :
    t ∉ s.terminatedQueue := fun hw =>
  (nodup_append.1 h).2.2 t ht t hw rfl

end Queued

theorem mem_all_of_run (h : t ∈ s.runQueue) : t ∈ s.all := by simp [Sched.all, h]

theorem mem_all_of_wait (h : t ∈ s.waitQueue) : t ∈ s.all := by simp [Sched.all, h]

theorem mem_all_of_timer (h : t ∈ s.waitTimerQueue) : t ∈ s.all := by simp [Sched.all, h]

private theorem mem_all_of_terminated (h : t ∈ s.terminatedQueue) : t ∈ s.all := by simp [Sched.all, h]

/-- A task of the run queue is taken off the run queue. -/
theorem listDel_of_run (h : Queued s) (ht : t ∈ s.runQueue) :
    s.listDel t = { s with runQueue := s.runQueue.erase t } := by
  have hall : t ∈ s.runQueue ++ s.waitQueue ++ s.waitTimerQueue := by simp [ht]
  unfold Sched.listDel
  rw [erase_of_not_mem (h.run_wait ht), erase_of_not_mem (h.run_timer ht), erase_of_not_mem (h.not_terminated hall)]

/-- The tasks `m` are put before the run queue, in their order. -/
def woken (m : List TaskId) (s : Sched) : Sched :=
  { s with
    runQueue := m ++ s.runQueue.filter (· ∉ m)
    waitQueue := s.waitQueue.filter (· ∉ m)
    waitTimerQueue := s.waitTimerQueue.filter (· ∉ m)
    terminatedQueue := s.terminatedQueue.filter (· ∉ m)
    pcb := fun u => if u ∈ m then (s.pcb u).map fun p => { p with waitDesc := notWaiting } else s.pcb u }

theorem woken_of_not_mem (h : u ∉ m) : (woken m s).pcb u = s.pcb u := if_neg h

private theorem woken_nil : woken [] s = s := by
  unfold woken
  simp

private theorem filter_cons_not_mem (hl : l.Nodup) : (l.filter (· ∉ m)).erase t = l.filter (· ∉ t :: m) := by
  rw [(hl.filter _).erase_eq_filter, List.filter_filter]
  refine filter_congr fun u _ => ?_
  by_cases h : u = t <;> simp [h]

private theorem foldr_wakeupProc (h : Queued s) (hm : m.Nodup) : m.foldr wakeupProc s = woken m s := by
  induction m with
  | nil => exact woken_nil.symm
  | cons t m ih =>
    obtain ⟨ht, hm⟩ := nodup_cons.1 hm
    rw [foldr_cons, ih hm]
    unfold wakeupProc updateWaitDescriptor Sched.update Sched.listDel woken
    dsimp only
    congr 1
    · funext u
      by_cases hu : u = t
      · rw [if_pos hu, if_neg (by rw [hu]; exact ht), if_pos (by simp [hu])]
      · rw [if_neg hu]
        simp [hu]
    · rw [erase_append_right _ ht, filter_cons_not_mem h.run]
      rfl
    · exact filter_cons_not_mem h.terminated
    · exact filter_cons_not_mem h.wait
    · exact filter_cons_not_mem h.timer

/-- No task is lost. -/
theorem all_woken (h : Queued s) (hm : m.Nodup) (hsub : ∀ t ∈ m, t ∈ s.all) : (woken m s).all.Perm s.all := by
  have heq : (woken m s).all = m ++ s.all.filter (· ∉ m) := by
    unfold woken Sched.all
    simp only [filter_append, List.append_assoc]
  rw [heq]
  exact perm_append_filter hm h hsub

/-- `_sys_wakeup` wakes the tasks that it gathered, in their order. -/
theorem sysWakeupQueue_eq (h : Queued s) (hl : l.Nodup) {waitDesc : Nat}
    (hm : (l.filter (waitsFor s waitDesc)).length ≤ maxWaitProc) : sysWakeupQueue s l waitDesc =
      some (woken (l.filter (waitsFor s waitDesc)) s, (l.filter (waitsFor s waitDesc)).length) := by
  unfold sysWakeupQueue
  rw [if_neg (by omega), foldr_wakeupProc h (hl.filter _)]

def waiting (s : Sched) (waitDesc : Nat) : List TaskId := s.waitQueue.filter (waitsFor s waitDesc)

theorem mem_waiting : t ∈ waiting s d ↔ t ∈ s.waitQueue ∧ ∃ p, s.pcb t = some p ∧ p.waitDesc = d := by
  unfold waiting waitsFor
  rw [mem_filter]
  refine and_congr_right fun _ => ?_
  cases s.pcb t with
  | none => simp
  | some p => simp

theorem waiting_subset : ∀ u ∈ waiting s d, u ∈ s.waitQueue := fun _ hu => (mem_waiting.1 hu).1

/-- `sys_wakeup` wakes all tasks that wait for the descriptor. -/
theorem sysWakeup_eq (h : Queued s) (hm : (waiting s d).length ≤ maxWaitProc) :
    sysWakeup s d = some (woken (waiting s d) s, (waiting s d).length) :=
  sysWakeupQueue_eq h h.wait hm

theorem length_le_of_sysWakeupQueue (h : sysWakeupQueue s l d = some r) :
    (l.filter (waitsFor s d)).length ≤ maxWaitProc := by
  unfold sysWakeupQueue at h
  dsimp only at h
  split_ifs at h with hlt
  exact Nat.le_of_not_lt hlt

theorem length_waiting_le (h : sysWakeup s d = some r) : (waiting s d).length ≤ maxWaitProc :=
  length_le_of_sysWakeupQueue h

def terminatedPid (s : Sched) : Option Nat := (getTerminatedTask s).bind fun t => (s.pcb t).map Pcb.pid

/-- The first task of the run queue has moved to its end, and the PCB of the terminated task is freed. -/
structure Yielded (s s' : Sched) : Prop where
  run : ∃ x l, s.runQueue = x :: l ∧ s'.runQueue = l ++ [x] ∧ s'.stack = some x
  wait : s'.waitQueue = s.waitQueue
  timer : s'.waitTimerQueue = s.waitTimerQueue
  terminated : s'.terminatedQueue = s.terminatedQueue.tail
  pcb : ∀ u, s'.pcb u = if getTerminatedTask s = some u then none else s.pcb u
  pidArray : ∀ i, s'.pidArray i = if terminatedPid s = some i then 0 else s.pidArray i
  noproc : s'.noproc = s.noproc
  numTasks : s'.numTasks = s.numTasks
  prep : s'.prepTask = s.prepTask
  limit : s'.rlimitNproc = s.rlimitNproc

private theorem cleanupTerminated_eq (h : Queued s) (hterm : ∀ t ∈ s.terminatedQueue, (s.pcb t).isSome) :
    cleanupTerminated s = some { s with
      terminatedQueue := s.terminatedQueue.tail
      pcb := fun u => if getTerminatedTask s = some u then none else s.pcb u
      pidArray := fun i => if terminatedPid s = some i then 0 else s.pidArray i } := by
  unfold cleanupTerminated terminatedPid getTerminatedTask
  cases hq : s.terminatedQueue with
  | nil =>
    have hs : s = { s with terminatedQueue := [] } := by rw [← hq]
    simpa using hs
  | cons t rest =>
    obtain ⟨p, hp⟩ := isSome_iff_exists.1 (hterm t (by simp [hq]))
    have ht : t ∉ s.runQueue ++ s.waitQueue ++ s.waitTimerQueue := fun hmem =>
      h.not_terminated hmem (by simp [hq])
    simp only [mem_append, not_or] at ht
    unfold Sched.listDel
    simp only [head?_cons, hp, map_some, bind_some, erase_of_not_mem ht.1.1, erase_of_not_mem ht.1.2,
      erase_of_not_mem ht.2]
    simp [hq, eq_comm]

/-- `sys_yield` switches to the first task of the run queue. -/
theorem sysYield_spec (h : Queued s) (hpcb : ∀ t ∈ s.all, (s.pcb t).isSome) (hrun : s.runQueue ≠ []) :
    ∃ s', sysYield s = some s' ∧ Yielded s s' := by
  obtain ⟨x, l, hxl⟩ := exists_cons_of_ne_nil hrun
  have hx : x ∈ s.runQueue := by simp [hxl]
  obtain ⟨px, hpx⟩ := isSome_iff_exists.1 (hpcb x (mem_all_of_run hx))
  -- the state in which `switchTo` is called
  obtain ⟨c, hc⟩ : ∃ c, (if px.cr3Content ≠ 0 then
      { { s with runQueue := l ++ [x] } with cr3 := px.cr3Content } else { s with runQueue := l ++ [x] } : Sched) =
      { s with runQueue := l ++ [x], cr3 := c } := by
    split
    · exact ⟨_, rfl⟩
    · exact ⟨_, rfl⟩
  have heq : sysYield s = switchTo { s with runQueue := l ++ [x], cr3 := c } x := by
    unfold sysYield getNextTask
    rw [hxl, head?_cons, bind_eq_bind, bind_some, listDel_of_run h hx]
    simp only [hxl, erase_cons_head]
    rw [hpx]
    exact congrArg (switchTo · x) hc
  have hq : Queued { s with runQueue := l ++ [x], cr3 := c, stack := some x } := by
    have hperm : (Sched.all { s with runQueue := l ++ [x], cr3 := c, stack := some x }).Perm s.all := by
      unfold Sched.all
      rw [hxl]
      exact (((perm_append_singleton x l).append_right _).append_right _).append_right _
    exact hperm.nodup_iff.2 h
  refine ⟨_, heq.trans (cleanupTerminated_eq hq fun t ht => hpcb t (mem_all_of_terminated ht)), ?_⟩
  exact ⟨⟨x, l, hxl, rfl, rfl⟩, rfl, rfl, rfl, fun _ => rfl, fun _ => rfl, rfl, rfl, rfl, rfl⟩

theorem foldl_update (h : l.Nodup ∨ ∀ p, f (f p) = f p) : l.foldl (fun s c => s.update c f) s =
      { s with pcb := fun u => if u ∈ l then (s.pcb u).map f else s.pcb u } := by
  induction l generalizing s with
  | nil => simp
  | cons c l ih =>
    have htail : l.Nodup ∨ ∀ p, f (f p) = f p := h.imp_left fun hnd => (nodup_cons.1 hnd).2
    rw [foldl_cons, ih htail]
    unfold Sched.update
    congr 1
    funext u
    by_cases hu : u = c
    · subst hu
      by_cases hul : u ∈ l
      · -- the task is there twice, so the write is idempotent
        have hf : ∀ p, f (f p) = f p := h.resolve_left fun hnd => (nodup_cons.1 hnd).1 hul
        simp [hul, Function.comp_def, hf]
      · simp [hul]
    · simp [hu]

def wokenByExit (s : Sched) (p : Pcb) : List TaskId :=
  match p.parent.bind s.pcb with
  | none => []
  | some q => if waiting s p.pid = [] then waiting s q.pid else waiting s p.pid

theorem wokenByExit_subset : ∀ u ∈ wokenByExit s p, u ∈ s.waitQueue := by
  intro u hu
  unfold wokenByExit at hu
  split at hu
  · cases hu
  · split at hu <;> exact waiting_subset u hu

theorem nodup_wokenByExit (h : Queued s) : (wokenByExit s p).Nodup := by
  unfold wokenByExit
  split
  · exact nodup_nil
  · split <;> exact h.wait.filter _

def afterExit (t : TaskId) (p : Pcb) (m : List TaskId) (u : TaskId) (x : Pcb) : Pcb :=
  { x with
    waitDesc := if u ∈ m then notWaiting else x.waitDesc
    wakeupReturn := if p.parent = some u then p.pid else x.wakeupReturn
    children := if p.parent = some u then x.children.erase t else x.children
    parent := if u ∈ p.children then none else x.parent }

private theorem removeParentInfoFromChildren_eq : removeParentInfoFromChildren s p =
    { s with pcb := fun u => if u ∈ p.children then (s.pcb u).map fun p => { p with parent := none } else s.pcb u } :=
  foldl_update (Or.inr fun _ => rfl)

private theorem notifyParent_eq (h : Queued s) {pq : Pcb} (ht : s.pcb t = some pt) (hpar : pt.parent = some q)
    (hpq : s.pcb q = some pq) (hp : p.parent = some q) (hm : (wokenByExit s p).length ≤ maxWaitProc) :
    notifyParent s t p q = some { woken (wokenByExit s p) s with
      pcb := fun u => ((woken (wokenByExit s p) s).pcb u).map fun x =>
        { x with
          wakeupReturn := if p.parent = some u then p.pid else x.wakeupReturn
          children := if p.parent = some u then x.children.erase t else x.children } } := by
  have hwoken : wokenByExit s p = if waiting s p.pid = [] then waiting s pq.pid else waiting s p.pid := by
    unfold wokenByExit
    rw [hp, bind_some, hpq]
  -- the two calls of `sys_wakeup` together
  have hwake : ((sysWakeup s p.pid).bind fun r =>
      if r.2 = 0 then (sysWakeup r.1 pq.pid).map Prod.fst else some r.1) = some (woken (wokenByExit s p) s) := by
    rw [hwoken] at hm ⊢
    split at hm
    · rename_i hnone
      rw [if_pos hnone, sysWakeup_eq h (by rw [hnone]; exact Nat.zero_le _), hnone, bind_some, woken_nil]
      rw [if_pos (by rfl), sysWakeup_eq h hm]
      rfl
    · rename_i hsome
      rw [if_neg hsome, sysWakeup_eq h hm, bind_some, if_neg (by simpa using hsome)]
  have hpt : ∀ r, ((woken r s).pcb t).bind Pcb.parent = some q := by
    intro r
    unfold woken
    dsimp only
    split <;> (rw [ht]; exact hpar)
  have heq : notifyParent s t p q = ((sysWakeup s p.pid).bind fun r =>
      if r.2 = 0 then (sysWakeup r.1 pq.pid).map Prod.fst else some r.1).map fun s =>
        removeChild (s.update q fun q => { q with wakeupReturn := p.pid }) t := by
    unfold notifyParent
    rw [hpq]
    cases sysWakeup s p.pid with
    | none => rfl
    | some r =>
      by_cases hr : r.2 = 0
      · simp only [bind_eq_bind, bind_some, hr, if_true]
        cases sysWakeup r.1 pq.pid <;> rfl
      · simp only [bind_eq_bind, bind_some, hr, if_false]
        rfl
  rw [heq, hwake, map_some]
  congr 1
  have hpt' : ((((woken (wokenByExit s p) s).update q fun q => { q with wakeupReturn := p.pid }).pcb t).bind
      Pcb.parent) = some q := by
    by_cases htq : t = q
    · subst htq
      rw [update_self, ← hpt (wokenByExit s p)]
      cases (woken (wokenByExit s p) s).pcb t <;> rfl
    · rw [update_other htq]
      exact hpt _
  unfold removeChild
  rw [hpt']
  unfold Sched.update
  dsimp only
  congr 1
  funext u
  by_cases hu : u = q
  · simp [hu, hp, Function.comp_def]
  · simp [hu, hp, Ne.symm hu]

/-- An exit wakes the tasks that wait for the process or, if there are none, for its parent. -/
theorem handleWakeupOnExit_eq (h : Queued s) (ht : s.pcb t = some pt) (hpar : pt.parent = p.parent)
    (hparent : ∀ q, p.parent = some q → (s.pcb q).isSome) (hm : (wokenByExit s p).length ≤ maxWaitProc) :
    handleWakeupOnExit s t p = some { woken (wokenByExit s p) s with
      pcb := fun u => (s.pcb u).map (afterExit t p (wokenByExit s p) u) } := by
  have hchildren : ∀ s : Sched, (if p.children ≠ [] then removeParentInfoFromChildren s p else s) =
      removeParentInfoFromChildren s p := by
    intro s
    by_cases hc : p.children = []
    · rw [if_neg (not_not_intro hc), removeParentInfoFromChildren, hc]
      rfl
    · rw [if_pos hc]
  unfold handleWakeupOnExit
  simp only [hchildren]
  simp only [removeParentInfoFromChildren_eq]
  cases hp : p.parent with
  | none =>
    have hw : wokenByExit s p = [] := by rw [wokenByExit, hp]; rfl
    rw [hw, woken_nil]
    simp only [bind_eq_bind, bind_some, Option.pure_def]
    congr 2
    funext u
    unfold afterExit
    by_cases hu : u ∈ p.children <;> cases s.pcb u <;> simp [hu, hp]
  | some q =>
    obtain ⟨pq, hpq⟩ := isSome_iff_exists.1 (hparent q hp)
    simp only [bind_eq_bind, Option.pure_def]
    rw [notifyParent_eq h ht (hpar.trans hp) hpq hp hm, bind_some]
    congr 2
    funext u
    unfold afterExit woken
    by_cases hu : u ∈ p.children <;> by_cases hm : u ∈ wokenByExit s p <;> cases hsu : s.pcb u <;> simp [hu, hm, hsu]

theorem length_wokenByExit_le (h : Queued s) (hw : handleWakeupOnExit s t p = some s') :
    (wokenByExit s p).length ≤ maxWaitProc := by
  unfold handleWakeupOnExit at hw
  cases hp : p.parent with
  | none =>
    rw [wokenByExit, hp]
    exact Nat.zero_le _
  | some q =>
    simp only [hp, bind_eq_bind, notifyParent] at hw
    obtain ⟨s1, hn, _⟩ := bind_eq_some_iff.1 hw
    obtain ⟨pq, hpq, hn⟩ := bind_eq_some_iff.1 hn
    obtain ⟨r, hr, hn⟩ := bind_eq_some_iff.1 hn
    have hle := length_waiting_le hr
    rw [sysWakeup_eq h hle] at hr
    cases hr
    have hwoken : wokenByExit s p = if waiting s p.pid = [] then waiting s pq.pid else waiting s p.pid := by
      unfold wokenByExit
      rw [hp, bind_some, hpq]
    rw [hwoken]
    split
    · -- nobody waits for the process, and the second call has come through
      rename_i hnone
      rw [hnone, woken_nil, if_pos (by rfl)] at hn
      obtain ⟨s2, hs2, _⟩ := bind_eq_some_iff.1 hn
      obtain ⟨r, hr, -⟩ := map_eq_some_iff.1 hs2
      exact length_waiting_le hr
    · exact hle

end Adix.Scheduler
