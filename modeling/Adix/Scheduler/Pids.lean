import Adix.Scheduler.Run

/-!
# Process ids

`getNextPid` takes a free entry of `pid_array`, and `cleanupTerminated` gives it back. The table has fewer entries than
the limit on processes allows, and `sys_fork` does not look at the result of `getNextPid`, so that tasks with the id
`-1` can be made.
-/

namespace Adix.Scheduler

open List Option

variable {s s' : Sched} {t u : TaskId} {p x : Pcb} {e : Event} {es : List Event} {around : Nat → Int} {n : Nat}

def pidOf (s : Sched) (u : TaskId) : Option Nat := (s.pcb u).map Pcb.pid

theorem Moves.pidOf (h : Moves s s') : pidOf s' u = pidOf s u := by
  obtain ⟨d, r, hu⟩ := h.pcb u
  unfold Scheduler.pidOf
  rw [hu, Option.map_map]
  rfl

theorem Forked.pidOf (h : Forked s s' t p x) : pidOf s' u = if u = s.numTasks then some x.pid else pidOf s u := by
  unfold Scheduler.pidOf
  rw [h.pcb u]
  split
  · rfl
  · rw [Option.map_map]
    rfl

theorem Exited.pidOf (h : Exited s s' t p) : pidOf s' u = if u = t then none else pidOf s u := by
  unfold Scheduler.pidOf
  by_cases hu : u = t
  · rw [if_pos hu, hu, h.pcb_self]
    rfl
  · rw [if_neg hu, h.pcb_other u hu, Option.map_map]
    rfl

def HasFreePid (s : Sched) : Prop := ∃ i, 1 ≤ i ∧ i < ulimit ∧ s.pidArray i = 0

private theorem mem_range'_iff {i : Nat} : i ∈ List.range' 1 (ulimit - 1) ↔ 1 ≤ i ∧ i < ulimit := by
  rw [mem_range'_1]
  omega

instance (s : Sched) : Decidable (HasFreePid s) :=
  decidable_of_iff ((List.range' 1 (ulimit - 1)).any fun i => decide (s.pidArray i = 0)) <| by
    simp only [List.any_eq_true, mem_range'_iff, decide_eq_true_eq, and_assoc]
    rfl

/-- The least free id is taken. -/
theorem getNextPid_some (h : HasFreePid s) : ∃ i, (getNextPid s).2 = i ∧ 1 ≤ i ∧ i < ulimit ∧ s.pidArray i = 0 ∧
    (∀ j, 1 ≤ j → j < i → s.pidArray j ≠ 0) ∧ ∀ j, (getNextPid s).1.pidArray j = if j = i then 1 else s.pidArray j := by
  unfold getNextPid
  split
  · rename_i i hi
    obtain ⟨hzero, hmem, hmin⟩ := find?_range'_eq_some.1 hi
    obtain ⟨h1, h2⟩ := mem_range'_iff.1 hmem
    exact ⟨i, rfl, h1, h2, of_decide_eq_true hzero, fun j hj hji => by simpa using hmin j hj hji, fun j => rfl⟩
  · rename_i hnone
    obtain ⟨i, h1, h2, hi⟩ := h
    have := find?_eq_none.1 hnone i (mem_range'_iff.2 ⟨h1, h2⟩)
    simp [hi] at this

/-- Without one the result is `-1`. -/
theorem getNextPid_none (h : ¬ HasFreePid s) :
    (getNextPid s).2 = minusOne ∧ (getNextPid s).1.pidArray = s.pidArray := by
  unfold getNextPid
  split
  · rename_i i hi
    have hzero := find?_some hi
    obtain ⟨h1, h2⟩ := mem_range'_iff.1 (mem_of_find?_eq_some hi)
    exact absurd ⟨i, h1, h2, of_decide_eq_true hzero⟩ h
  · exact ⟨rfl, rfl⟩

/-- The ids of the tasks are different and in range, the table has their entries marked, and the memory behind the
table is as it was. -/
structure PidsValid (around : Nat → Int) (s : Sched) : Prop where
  range : ∀ {t n}, pidOf s t = some n → 1 ≤ n ∧ n < ulimit
  unique : ∀ {t u n}, pidOf s t = some n → pidOf s u = some n → t = u
  marked : ∀ i, i < ulimit → (s.pidArray i = 1 ↔ ∃ t, pidOf s t = some i)
  entry : ∀ i, i < ulimit → s.pidArray i = 0 ∨ s.pidArray i = 1
  outside : ∀ i, ulimit ≤ i → s.pidArray i = around i

theorem PidsValid.moves (h : PidsValid around s) (hm : Moves s s') : PidsValid around s' where
  range ht := h.range (hm.pidOf ▸ ht)
  unique ht hu := h.unique (hm.pidOf ▸ ht) (hm.pidOf ▸ hu)
  marked i hi := by simp only [hm.pidArray, hm.pidOf, h.marked i hi]
  entry i hi := hm.pidArray ▸ h.entry i hi
  outside i hi := hm.pidArray ▸ h.outside i hi

private theorem PidsValid.exit (h : PidsValid around s) (hx : Exited s s' t p) : PidsValid around s' := by
  have hpid : pidOf s t = some p.pid := by rw [pidOf, hx.pcb_eq]; rfl
  obtain ⟨hlo, hhi⟩ := h.range hpid
  have hback : ∀ {u n}, pidOf s' u = some n ↔ u ≠ t ∧ pidOf s u = some n := by
    intro u n
    rw [hx.pidOf]
    by_cases hu : u = t <;> simp [hu]
  exact
    { range := fun hu => h.range (hback.1 hu).2
      unique := fun hu hv => h.unique (hback.1 hu).2 (hback.1 hv).2
      marked := fun i hi => by
        rw [hx.pidArray i]
        simp only [hback]
        by_cases hip : i = p.pid
        · subst hip
          simp only [if_true, zero_ne_one, false_iff]
          rintro ⟨u, hut, hu⟩
          exact hut (h.unique hu hpid)
        · rw [if_neg hip, h.marked i hi]
          refine exists_congr fun u => ⟨fun hu => ⟨?_, hu⟩, fun hu => hu.2⟩
          rintro rfl
          rw [hpid] at hu
          exact hip (some.inj hu).symm
      entry := fun i hi => by
        rw [hx.pidArray i]
        split
        · exact Or.inl rfl
        · exact h.entry i hi
      outside := fun i hi => by
        rw [hx.pidArray i, if_neg (by omega)]
        exact h.outside i hi }

private theorem PidsValid.fork (h : PidsValid around s) (hs : Inv s) (hf : Forked s s' t p x) (hfree : HasFreePid s) :
    PidsValid around s' := by
  obtain ⟨i, hi, hlo, hhi, hzero, -, harr⟩ := getNextPid_some hfree
  have hxi : x.pid = i := hf.pid.trans hi
  -- the new id belongs to no task
  have hnew : ∀ u, pidOf s u ≠ some i := fun u hu => by
    have := (h.marked i hhi).2 ⟨u, hu⟩
    rw [hzero] at this
    cases this
  have hback : ∀ {u n}, pidOf s' u = some n → u = s.numTasks ∧ n = i ∨ u ≠ s.numTasks ∧ pidOf s u = some n := by
    intro u n hu
    rw [hf.pidOf] at hu
    split at hu
    · exact Or.inl ⟨‹_›, by rw [← some.inj hu, hxi]⟩
    · exact Or.inr ⟨‹_›, hu⟩
  exact
    { range := fun hu => by
        rcases hback hu with ⟨-, rfl⟩ | ⟨-, hu⟩
        · exact ⟨hlo, hhi⟩
        · exact h.range hu
      unique := fun {t' u n} ht hu => by
        rcases hback ht with ⟨rfl, rfl⟩ | ⟨-, ht⟩
        · rcases hback hu with ⟨rfl, -⟩ | ⟨-, hu⟩
          · rfl
          · exact absurd hu (hnew u)
        · rcases hback hu with ⟨-, rfl⟩ | ⟨-, hu⟩
          · exact absurd ht (hnew t')
          · exact h.unique ht hu
      marked := fun j hj => by
        rw [hf.pidArray, harr j]
        by_cases hji : j = i
        · subst hji
          simp only [if_true, true_iff]
          exact ⟨s.numTasks, by rw [hf.pidOf, if_pos rfl, hxi]⟩
        · rw [if_neg hji, h.marked j hj]
          constructor
          · rintro ⟨u, hu⟩
            refine ⟨u, ?_⟩
            rw [hf.pidOf, if_neg, hu]
            rintro rfl
            rw [pidOf, hs.pcb_numTasks] at hu
            cases hu
          · rintro ⟨u, hu⟩
            rcases hback hu with ⟨-, rfl⟩ | ⟨-, hu⟩
            · exact absurd rfl hji
            · exact ⟨u, hu⟩
      entry := fun j hj => by
        rw [hf.pidArray, harr j]
        split
        · exact Or.inr rfl
        · exact h.entry j hj
      outside := fun j hj => by
        rw [hf.pidArray, harr j, if_neg (by omega)]
        exact h.outside j hj }

def FindsPid (s : Sched) : Event → Prop
  | .fork _ => HasFreePid s
  | _ => True

instance (s : Sched) : ∀ e, Decidable (FindsPid s e)
  | .fork _ => inferInstanceAs (Decidable (HasFreePid s))
  | .yield | .exit | .sleep _ | .sleepTimer _ | .wakeup _ | .tick | .setrlimit _ => .isTrue trivial

/-- As long as every fork finds a free entry, the entries in use are the ids of the tasks. -/
theorem PidsValid.step (h : PidsValid around s) (hs : Inv s) (hfind : FindsPid s e) (he : Effect s e s') :
    PidsValid around s' := by
  cases he with
  | moves _ hm _ => exact h.moves hm
  | fork he hf =>
    subst he
    exact h.fork hs hf hfind
  | exit _ hx => exact h.exit hx

theorem Start.pidsValid (h : Start around s) : PidsValid around s := by
  have hpid : ∀ {u n}, pidOf s u = some n → u = 0 ∧ n = 1 ∨ u = 1 ∧ n = 2 := by
    intro u n hu
    obtain ⟨p, hp, rfl⟩ := map_eq_some_iff.1 hu
    exact h.pids hp
  exact
    { range := fun hu => by
        unfold ulimit
        rcases hpid hu with ⟨-, rfl⟩ | ⟨-, rfl⟩ <;> omega
      unique := fun ht hu => by
        rcases hpid ht with ⟨rfl, rfl⟩ | ⟨rfl, rfl⟩
        · rcases hpid hu with ⟨rfl, -⟩ | ⟨-, h⟩
          · rfl
          · cases h
        · rcases hpid hu with ⟨-, h⟩ | ⟨rfl, -⟩
          · cases h
          · rfl
      marked := fun i hi => by
        rw [h.pidArray i]
        constructor
        · intro hone
          by_cases h12 : i = 1 ∨ i = 2
          · rcases h12 with rfl | rfl
            · obtain ⟨p, hp, hpid⟩ := h.shell
              exact ⟨0, by rw [pidOf, hp, map_some, hpid]⟩
            · obtain ⟨p, hp, hpid⟩ := h.daemon
              exact ⟨1, by rw [pidOf, hp, map_some, hpid]⟩
          · rw [if_neg h12, if_pos hi] at hone
            cases hone
        · rintro ⟨u, hu⟩
          rw [if_pos]
          exact (hpid hu).imp And.right And.right
      entry := fun i hi => by
        rw [h.pidArray i, if_pos hi]
        split
        · exact Or.inr rfl
        · exact Or.inl rfl
      outside := fun i hi => by
        unfold ulimit at hi
        rw [h.pidArray i, if_neg (by omega), if_neg (by unfold ulimit; omega)] }

/-- In every run in which each fork finds a free process id, the ids of the tasks are valid. -/
theorem pids_valid (around : Nat → Int) (cr3 : Nat) (sh d : Uninit) :
    ∃ s₀, cooperativeSchedule (boot around) cr3 sh d = some s₀ ∧
      ∀ es, Permitted step (fun s e => Allowed s e ∧ FindsPid s e) s₀ es →
        ∃ s, run step s₀ es = some s ∧ PidsValid around s := by
  obtain ⟨s₀, hs0, hstart⟩ := cooperativeSchedule_start around cr3 sh d
  refine ⟨s₀, hs0, fun es hes => ?_⟩
  have hrun : ∃ s, run step s₀ es = some s ∧ Inv s ∧ PidsValid around s := by
    refine run_invariant (fun s e hs ha => ?_) ⟨hstart.inv, hstart.pidsValid⟩ hes
    obtain ⟨s', hs', hinv, heff⟩ := step_spec hs.1 ha.1
    exact ⟨s', hs', hinv, hs.2.step hs.1 ha.2 heff⟩
  obtain ⟨s, hs, -, hpids⟩ := hrun
  exact ⟨s, hs, hpids⟩

theorem pids_valid_reuse : ∃ s,
    run step plainStart [.yield, .fork plainFork, .yield, .yield, .fork plainFork, .yield, .exit, .fork plainFork] =
      some s ∧ PidsValid (fun _ => 0) s := by
  have hrun := at_plainStart (pids_valid (fun _ => 0) 0x1000 zeroed zeroed)
  exact hrun _ (by decide +kernel)

private structure Crowded (n : Nat) (s : Sched) : Prop where
  inv : Inv s
  noproc : s.noproc = n + 2
  limit : s.rlimitNproc = rlimitNprocMax
  wait : s.waitQueue = []
  free : ∀ i, 1 ≤ i → i < ulimit → (s.pidArray i = 0 ↔ n + 2 < i)
  outside : ∀ i, ulimit ≤ i → s.pidArray i = 7
  numTasks : s.numTasks = n + 2
  surplus : ∀ k, 997 ≤ k → k < n → pidOf s (k + 2) = some minusOne
  next : 0 < n → s.runQueue.head? = some (n + 1)

private theorem Crowded.allowed (h : Crowded n s) (hn : n + 3 ≤ rlimitNprocMax) : Allowed s (.fork plainFork) := by
  intro t _ p _
  refine ⟨⟨rfl, rfl, fun _ => rfl, rfl, rfl, rfl, rfl⟩, ?_⟩
  rw [h.noproc, h.limit]
  exact hn

private theorem Crowded.getNextPid (h : Crowded n s) :
    (∀ i, 1 ≤ i → i < ulimit → ((getNextPid s).1.pidArray i = 0 ↔ n + 1 + 2 < i)) ∧
      (∀ i, ulimit ≤ i → (getNextPid s).1.pidArray i = 7) ∧ (997 ≤ n → (getNextPid s).2 = minusOne) := by
  by_cases hfree : HasFreePid s
  · obtain ⟨i, -, hlo, hhi, hzero, hmin, harr⟩ := getNextPid_some hfree
    have hni : n + 2 < i := (h.free i hlo hhi).1 hzero
    have hin : i = n + 3 := by
      by_contra hne
      have := (h.free (n + 3) (by omega) (by omega)).2 (by omega)
      exact hmin (n + 3) (by omega) (by omega) this
    refine ⟨fun j hj hj' => ?_, fun j hj => ?_, fun hn => ?_⟩
    · rw [harr j]
      by_cases hji : j = i
      · rw [if_pos hji]
        omega
      · rw [if_neg hji, h.free j hj hj']
        omega
    · rw [harr j, if_neg (by omega)]
      exact h.outside j hj
    · unfold ulimit at hhi
      omega
  · obtain ⟨hnone, harr⟩ := getNextPid_none hfree
    refine ⟨fun j hj hj' => ?_, fun j hj => by rw [harr]; exact h.outside j hj, fun _ => hnone⟩
    have hj0 : s.pidArray j ≠ 0 := fun hzero => hfree ⟨j, hj, hj', hzero⟩
    rw [harr, h.free j hj hj']
    rw [ne_eq, h.free j hj hj'] at hj0
    omega

private theorem Crowded.fork (h : Crowded n s) (hn : n + 3 ≤ rlimitNprocMax) :
    ∃ s', step s (.fork plainFork) = some s' ∧ Crowded (n + 1) s' := by
  obtain ⟨t, p, ht, hp, -⟩ := h.inv.exists_current
  obtain ⟨henv, hlim⟩ := h.allowed hn t ht p hp
  obtain ⟨s', x, hs', hf⟩ := sysFork_spec h.inv ht hp henv hlim
  obtain ⟨hfree, hout, hpid⟩ := h.getNextPid
  refine ⟨s', by rw [step, hs']; rfl, ?_⟩
  exact
    { inv := hf.inv h.inv
      noproc := by rw [hf.noproc, h.noproc]
      limit := hf.limit.trans h.limit
      wait := hf.wait.trans h.wait
      free := by rw [hf.pidArray]; exact hfree
      outside := by rw [hf.pidArray]; exact hout
      numTasks := by rw [hf.numTasks, h.numTasks]
      surplus := fun k hk hkn => by
        rw [hf.pidOf, h.numTasks]
        by_cases hkn' : k = n
        · rw [if_pos (by rw [hkn']), hf.pid, hpid (by omega)]
        · rw [if_neg (fun h => hkn' (by simpa using h))]
          exact h.surplus k hk (by omega)
      next := fun _ => by rw [hf.run, h.numTasks]; rfl }

private theorem Crowded.forks (h : Crowded n s) (k : Nat) (hk : n + k + 2 ≤ rlimitNprocMax) :
    Permitted step Allowed s (List.replicate k (.fork plainFork)) ∧
      ∃ s', run step s (List.replicate k (.fork plainFork)) = some s' ∧ Crowded (n + k) s' := by
  induction k generalizing n s with
  | zero => exact ⟨trivial, s, rfl, h⟩
  | succ k ih =>
    obtain ⟨s1, hs1, h1⟩ := h.fork (by omega)
    obtain ⟨hperm, s', hs', h'⟩ := ih h1 (by omega)
    rw [List.replicate_succ]
    refine ⟨⟨h.allowed (by omega), fun s2 hs2 => ?_⟩, s', by rw [run, hs1]; exact hs', ?_⟩
    · cases hs1.symm.trans hs2
      exact hperm
    · rw [show n + (k + 1) = n + 1 + k by omega]
      exact h'

private theorem Start.crowded (h : Start (fun _ => 7) s) : Crowded 0 s where
  inv := h.inv
  noproc := h.noproc
  limit := h.limit
  wait := h.wait
  free i hi hi' := by
    rw [h.pidArray i, if_pos hi']
    by_cases h12 : i = 1 ∨ i = 2
    · rw [if_pos h12]
      omega
    · rw [if_neg h12]
      omega
  outside i hi := by
    unfold ulimit at hi
    rw [h.pidArray i, if_neg (by omega), if_neg (by unfold ulimit; omega)]
  numTasks := h.numTasks
  surplus k _ hk := absurd hk (Nat.not_lt_zero k)
  next h := absurd h (Nat.lt_irrefl 0)

private theorem Crowded.exit (h : Crowded (n + 1) s) (hn : 997 ≤ n) : Permitted step Allowed s [.yield, .exit] ∧
      ∃ s', run step s [.yield, .exit] = some s' ∧ s'.pidArray minusOne = 0 := by
  obtain ⟨s1, hs1, hy⟩ := h.inv.toCore.yields
  have hinv1 : Inv s1 := hy.inv h.inv.toCore (by rw [h.inv.terminated]; rfl) (by simp [h.inv.terminated])
  -- the task that runs is the one that was forked last
  have hcur : getCurrentTask s1 = some (n + 2) := by
    obtain ⟨x, l, hrun, -, hstack⟩ := hy.run
    have hx := h.next (Nat.succ_pos n)
    rw [hrun, head?_cons] at hx
    rw [hinv1.getCurrentTask, hstack, hx]
  obtain ⟨t, p, ht, hp, -⟩ := hinv1.exists_current
  obtain rfl : n + 2 = t := some.inj (hcur.symm.trans ht)
  have hpid : p.pid = minusOne := by
    have hsame := (hy.moves h.inv.terminated).pidOf (u := n + 2)
    rw [h.surplus n hn (Nat.lt_succ_self n), pidOf, hp] at hsame
    exact some.inj hsame
  have hwoken : wokenByExit s1 p = [] := eq_nil_iff_forall_not_mem.2 fun u hu => by
    have := wokenByExit_subset u hu
    rw [hy.wait, h.wait] at this
    cases this
  have hallowed : Allowed s1 .exit := by
    intro t ht' p' hp'
    cases ht.symm.trans ht'
    cases hp.symm.trans hp'
    refine ⟨fun hd => ?_, by rw [hwoken]; exact Nat.zero_le _⟩
    have : n + 2 = 1 := hd
    omega
  obtain ⟨hd, hm⟩ := hallowed _ ht _ hp
  obtain ⟨s', hs', -, hx⟩ := sysExit_spec hinv1 ht hp hd hm
  refine ⟨⟨trivial, fun s2 hs2 => ⟨?_, fun _ _ => trivial⟩⟩, s', ?_, ?_⟩
  · cases hs1.symm.trans hs2
    exact hallowed
  · show (sysYield s).bind _ = _
    rw [hs1, bind_some, run, step, hs']
    rfl
  · rw [hx.pidArray, if_pos hpid.symm]

/-- With `999` forks after the first two tasks, two tasks have the process id `-1`, and when the last one exits,
`cleanupTerminated` writes outside `pid_array`. -/
theorem pids_exhausted : ∃ s₀ es s s', cooperativeSchedule (boot fun _ => 7) 0x1000 zeroed zeroed = some s₀ ∧
    Permitted step Allowed s₀ (es ++ [.yield, .exit]) ∧ run step s₀ es = some s ∧ s.rlimitNproc ≤ 1024 ∧
    (∃ t u, t ≠ u ∧ Live s t ∧ Live s u ∧ pidOf s t = some minusOne ∧ pidOf s u = some minusOne) ∧
    run step s₀ (es ++ [.yield, .exit]) = some s' ∧ s.pidArray minusOne = 7 ∧ s'.pidArray minusOne = 0 := by
  obtain ⟨s₀, hs0, hstart⟩ := cooperativeSchedule_start (fun _ => 7) 0x1000 zeroed zeroed
  obtain ⟨hperm, s, hs, hc⟩ := hstart.crowded.forks 999 (by decide)
  obtain ⟨hperm', s', hs', hzero⟩ := Crowded.exit (n := 998) hc (by decide)
  have hpid : ∀ k : Nat, 997 ≤ k → k < 999 → Live s (k + 2) ∧ pidOf s (k + 2) = some minusOne := by
    intro k hk hk'
    have hk2 := hc.surplus k hk (by omega)
    refine ⟨hc.inv.live_iff.2 ?_, hk2⟩
    obtain ⟨p, hp, -⟩ := map_eq_some_iff.1 hk2
    rw [hp]
    rfl
  refine ⟨s₀, List.replicate 999 (.fork plainFork), s, s', hs0, hperm.append fun s1 hs1 => ?_, hs, ?_,
    ⟨997 + 2, 998 + 2, by decide, (hpid 997 (by omega) (by omega)).1, (hpid 998 (by omega) (by omega)).1,
      (hpid 997 (by omega) (by omega)).2, (hpid 998 (by omega) (by omega)).2⟩, ?_, ?_, hzero⟩
  · cases hs.symm.trans hs1
    exact hperm'
  · rw [hc.limit]
    exact Nat.le_refl _
  · rw [run_append, hs]
    exact hs'
  · exact hc.outside _ (by decide)

end Adix.Scheduler
