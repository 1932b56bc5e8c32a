import Adix.Scheduler.Pids

/-!
# Waiting for a process

`wait_pid(p)` is `sys_sleep(p)`. It does not look whether there is a process `p`, and `sys_exit` keeps nothing for a
parent that is not waiting yet. When nobody waits for an exiting process, `sys_exit` wakes whoever sleeps on the id of
its parent: the parent itself, or a task that waits for the parent to exit. `_sys_wakeup` first gathers the matching
tasks of a queue in an array of `MAX_WAIT_PROC` entries and then moves them, the last one first, to the front of the
run queue.
-/

namespace Adix.Scheduler

open List Option

variable {s s' : Sched} {t u c q : TaskId} {p x pq : Pcb} {e : Event} {es : List Event} {around : Nat → Int}
  {y y' : Traced} {n : Nat}

/-- A task that waits has waited before, or has gone to sleep. -/
theorem Effect.wait (h : Effect s e s') (hs : Inv s) (hu : u ∈ s'.waitQueue) :
      u ∈ s.waitQueue ∧ descOf s' u = descOf s u ∨
      ∃ d, e = .sleep d ∧ getCurrentTask s = some u ∧ descOf s' u = some d := by
  cases h with
  | moves _ _ hw => exact hw.now u hu
  | @fork _ t _ _ _ hf =>
    rw [hf.wait] at hu
    refine Or.inl ⟨hu, ?_⟩
    have hnew : u ≠ s.numTasks := by
      rintro rfl
      have := (hs.pcb_iff _).1 (mem_all_of_wait hu)
      rw [hs.pcb_numTasks] at this
      cases this
    rw [descOf, hf.pcb u, if_neg hnew, Option.map_map]
    rfl
  | @exit t _ _ hx =>
    rw [hx.wait] at hu
    obtain ⟨hu, hum⟩ := mem_filter.1 hu
    simp only [decide_eq_true_eq] at hum
    refine Or.inl ⟨hu, ?_⟩
    have hut : u ≠ t := fun h => hs.queued.run_wait (hs.mem_run_of_current hx.current) (h ▸ hu)
    rw [descOf, hx.pcb_other u hut, descOf, Option.map_map]
    congr 1
    funext x
    simp [afterExit, hum]

/-- A task waits until it is woken up, or an exit wakes it. -/
theorem Effect.still_waits (h : Effect s e s') (hu : u ∈ s.waitQueue) :
    u ∈ s'.waitQueue ∨ (∃ d, e = .wakeup d ∧ descOf s u = some d) ∨
      ∃ t p, e = .exit ∧ Exited s s' t p ∧ u ∈ wokenByExit s p := by
  by_cases hu' : u ∈ s'.waitQueue
  · exact Or.inl hu'
  · right
    cases h with
    | moves _ _ hw => exact Or.inl (hw.woken u hu hu')
    | fork _ hf => exact absurd (hf.wait ▸ hu) hu'
    | exit he hx =>
      refine Or.inr ⟨_, _, he, hx, ?_⟩
      by_contra hum
      exact hu' (hx.wait ▸ mem_filter.2 ⟨hu, by simpa using hum⟩)

private theorem Effect.still_there (h : Effect s e s') (hu : (s.pcb u).isSome) :
    (s'.pcb u).isSome ∨ ∃ p, e = .exit ∧ Exited s s' u p := by
  cases h with
  | moves _ hm _ => exact Or.inl (hm.isSome ▸ hu)
  | @fork _ t _ _ _ hf =>
    exact Or.inl (hf.isSome_iff.2 (Or.inr hu))
  | @exit t p he hx =>
    by_cases hut : u = t
    · exact Or.inr ⟨p, he, hut ▸ hx⟩
    · left
      rw [hx.pcb_other u hut, isSome_map]
      exact hu

/-- The scheduler with the forks so far: parent, child, and process id of the child. -/
structure Traced where
  sched : Sched
  forks : List (TaskId × TaskId × Nat)

def forkOf (s s' : Sched) : Event → List (TaskId × TaskId × Nat)
  | .fork _ => (getCurrentTask s).toList.map fun t => (t, s.numTasks, (pidOf s' s.numTasks).getD 0)
  | _ => []

private theorem forkOf_of_ne (h : ∀ env, e ≠ .fork env) : forkOf s s' e = [] := by
  cases e with
  | fork env => exact absurd rfl (h env)
  | yield | exit | sleep _ | sleepTimer _ | wakeup _ | tick | setrlimit _ => rfl

def Traced.step (y : Traced) (e : Event) : Option Traced :=
  (Scheduler.step y.sched e).map fun s' => ⟨s', forkOf y.sched s' e ++ y.forks⟩

/-- `t` has forked a child with the process id `n` that has not exited. -/
def Traced.HasChild (y : Traced) (t : TaskId) (n : Nat) : Prop := ∃ c, (t, c, n) ∈ y.forks ∧ Live y.sched c

instance (y : Traced) (t : TaskId) (n : Nat) : Decidable (y.HasChild t n) :=
  decidable_of_iff (∃ a ∈ y.forks, a.1 = t ∧ a.2.2 = n ∧ Live y.sched a.2.1)
    ⟨fun ⟨a, ha, h1, h2, h3⟩ => ⟨a.2.1, by rw [← h1, ← h2]; exact ha, h3⟩, fun ⟨c, hc, h⟩ => ⟨_, hc, rfl, rfl, h⟩⟩

/-- No task sleeps on a child that has exited. -/
def Notified (y : Traced) : Prop :=
  ∀ t ∈ y.sched.waitQueue, ∀ n, descOf y.sched t = some n → (∃ c, (t, c, n) ∈ y.forks) → y.HasChild t n

/-- A task that goes to sleep on the process id of a child that it has forked does so while it has such a child. -/
def InTime (y : Traced) : Event → Prop
  | .sleep n => ∀ t ∈ getCurrentTask y.sched, (∃ c, (t, c, n) ∈ y.forks) → y.HasChild t n
  | _ => True

private theorem exists_child_iff : (∃ a ∈ y.forks, a.1 = t ∧ a.2.2 = n) ↔ ∃ c, (t, c, n) ∈ y.forks :=
  ⟨fun ⟨a, ha, h1, h2⟩ => ⟨a.2.1, by rw [← h1, ← h2]; exact ha⟩, fun ⟨_, hc⟩ => ⟨_, hc, rfl, rfl⟩⟩

instance (y : Traced) : ∀ e, Decidable (InTime y e)
  | .sleep n =>
    have (t : TaskId) : Decidable (∃ c, (t, c, n) ∈ y.forks) := decidable_of_iff _ exists_child_iff
    inferInstanceAs (Decidable (∀ t ∈ getCurrentTask y.sched, _ → _))
  | .yield | .fork _ | .exit | .sleepTimer _ | .wakeup _ | .tick | .setrlimit _ => .isTrue trivial

structure Recorded (y : Traced) : Prop where
  old : ∀ {t c n}, (t, c, n) ∈ y.forks → t < y.sched.numTasks ∧ c < y.sched.numTasks
  child : ∀ {t c n p}, (t, c, n) ∈ y.forks → y.sched.pcb c = some p →
    p.pid = n ∧ (p.parent = some t ∨ y.sched.pcb t = none)

private theorem Recorded.step (h : Recorded y) (hs : Inv y.sched) (he : Effect y.sched e y'.sched)
    (hforks : y'.forks = forkOf y.sched y'.sched e ++ y.forks) : Recorded y' := by
  cases he with
  | moves hne hm _ =>
    have hsame : y'.forks = y.forks := by
      rw [hforks, forkOf_of_ne hne]
      rfl
    refine ⟨fun hmem => ?_, fun {t c n p'} hmem hp' => ?_⟩
    · rw [hm.numTasks]
      exact h.old (hsame ▸ hmem)
    · obtain ⟨p, hp, hpid, hpar, -⟩ := hm.pcb_some hp'
      obtain ⟨h1, h2⟩ := h.child (hsame ▸ hmem) hp
      refine ⟨hpid.trans h1, h2.imp hpar.trans fun hnone => ?_⟩
      rw [← isNone_iff_eq_none, ← not_isSome, hm.isSome, hnone]
      rfl
  | @fork env t p x he hf =>
    have hcons : y'.forks = (t, y.sched.numTasks, x.pid) :: y.forks := by
      rw [hforks, he]
      unfold forkOf
      rw [hf.current, hf.pidOf, if_pos rfl]
      rfl
    have htn := hs.fresh (show (y.sched.pcb t).isSome by rw [hf.pcb_eq]; rfl)
    refine ⟨fun {t' c n} hmem => ?_, fun {t' c n p'} hmem hp' => ?_⟩
    · rw [hf.numTasks]
      rw [hcons] at hmem
      rcases mem_cons.1 hmem with heq | hmem
      · obtain ⟨rfl, rfl, -⟩ := heq
        exact ⟨Nat.lt_succ_of_lt htn, Nat.lt_succ_self _⟩
      · exact ⟨Nat.lt_succ_of_lt (h.old hmem).1, Nat.lt_succ_of_lt (h.old hmem).2⟩
    · rw [hcons] at hmem
      rcases mem_cons.1 hmem with heq | hmem
      · obtain ⟨rfl, rfl, rfl⟩ := heq
        rw [hf.pcb_new] at hp'
        cases hp'
        exact ⟨rfl, Or.inl hf.parent⟩
      · obtain ⟨ht', hc⟩ := h.old hmem
        obtain ⟨hcn, -⟩ | ⟨-, p0, hp0, rfl⟩ := hf.pcb_some hp'
        · exact absurd hcn (Nat.ne_of_lt hc)
        · obtain ⟨h1, h2⟩ := h.child hmem hp0
          refine ⟨h1, h2.imp_right fun hnone => ?_⟩
          rw [hf.pcb t', if_neg (Nat.ne_of_lt ht'), hnone]
          rfl
  | @exit t p he hx =>
    have hsame : y'.forks = y.forks := by
      rw [hforks, he]
      rfl
    refine ⟨fun hmem => ?_, fun {t' c n p'} hmem hp' => ?_⟩
    · rw [hx.numTasks]
      exact h.old (hsame ▸ hmem)
    · have hct : c ≠ t := by
        rintro rfl
        rw [hx.pcb_self] at hp'
        cases hp'
      rw [hx.pcb_other c hct] at hp'
      obtain ⟨p0, hp0, rfl⟩ := map_eq_some_iff.1 hp'
      obtain ⟨h1, h2⟩ := h.child (hsame ▸ hmem) hp0
      refine ⟨h1, ?_⟩
      by_cases htt : t' = t
      · exact Or.inr (htt ▸ hx.pcb_self)
      · rcases h2 with hpar | hnone
        · left
          -- only the exit of its parent takes the link to the parent away
          have hcp : c ∉ p.children := fun hc => by
            have := hs.child (by simp [hs.terminated]) hx.pcb_eq hc hp0
            rw [hpar] at this
            exact htt (some.inj this)
          simpa [afterExit, hcp] using hpar
        · right
          rw [hx.pcb_other t' htt, hnone]
          rfl

private theorem mem_wokenByExit (hp : s.pcb c = some p) (hpar : p.parent = some t) (hs : Inv s)
    (hwait : t ∈ s.waitQueue) (hdesc : descOf s t = some p.pid) : t ∈ wokenByExit s p := by
  obtain ⟨pt, hpt, -⟩ := hs.parent (by simp [hs.terminated]) hp hpar
  have hmem : t ∈ waiting s p.pid := by
    rw [descOf, hpt] at hdesc
    exact mem_waiting.2 ⟨hwait, pt, hpt, some.inj hdesc⟩
  unfold wokenByExit
  rw [hpar, bind_some, hpt]
  dsimp only
  rw [if_neg (ne_nil_of_mem hmem)]
  exact hmem

/-- Each event that is in time keeps all sleepers notified. -/
private theorem Notified.step (h : Notified y) (hr : Recorded y) (hs : Inv y.sched)
    (hs' : Inv y'.sched) (ht : InTime y e) (he : Effect y.sched e y'.sched)
    (hforks : y'.forks = forkOf y.sched y'.sched e ++ y.forks) : Notified y' := by
  intro t hwait n hdesc hchild
  have hsub : ∀ {a}, a ∈ y.forks → a ∈ y'.forks := fun ha => hforks ▸ mem_append_right _ ha
  have hlive : ∀ {c}, Live y.sched c → (∀ p, e = .exit → ¬ Exited y.sched y'.sched c p) → Live y'.sched c := by
    intro c hc hne
    rcases he.still_there (hs.live_iff.1 hc) with hc | ⟨p, hexit, hx⟩
    · exact hs'.live_iff.2 hc
    · exact absurd hx (hne p hexit)
  rcases he.wait hs hwait with ⟨hold, hsame⟩ | ⟨d, rfl, hcur, hd⟩
  · have hchild' : ∃ c, (t, c, n) ∈ y.forks := by
      obtain ⟨c, hc⟩ := hchild
      rw [hforks] at hc
      rcases mem_append.1 hc with hc | hc
      · -- a task that forks is not asleep
        exfalso
        cases e with
        | fork env =>
          obtain ⟨a, ha, heq⟩ := List.mem_map.1 hc
          obtain rfl : a = t := congrArg Prod.fst heq
          exact hs.queued.run_wait (hs.mem_run_of_current (mem_toList.1 ha)) hold
        | yield | exit | sleep _ | sleepTimer _ | wakeup _ | tick | setrlimit _ => cases hc
      · exact ⟨c, hc⟩
    obtain ⟨c, hc, hclive⟩ := h t hold n (hsame ▸ hdesc) hchild'
    refine ⟨c, hsub hc, hlive hclive fun p _ hx => ?_⟩
    -- the child itself exits: then the parent has been woken up
    obtain ⟨hpid, hpar⟩ := hr.child hc hx.pcb_eq
    have htsome := (hs.pcb_iff t).1 (mem_all_of_wait hold)
    have hpar : p.parent = some t := hpar.resolve_right fun hnone => by
      rw [hnone] at htsome
      cases htsome
    have hwoken := mem_wokenByExit hx.pcb_eq hpar hs hold (by rw [← hsame, hdesc, hpid])
    rw [hx.wait] at hwait
    simpa [hwoken] using (mem_filter.1 hwait).2
  · obtain rfl : d = n := some.inj (hd.symm.trans hdesc)
    have hchild' : ∃ c, (t, c, d) ∈ y.forks := by
      obtain ⟨c, hc⟩ := hchild
      exact ⟨c, by rw [hforks] at hc; exact hc⟩
    obtain ⟨c, hc, hclive⟩ := ht t hcur hchild'
    exact ⟨c, hsub hc, hlive hclive nofun⟩

private theorem Traced.step_spec (hs : Inv y.sched) (ha : Allowed y.sched e) :
    ∃ y', y.step e = some y' ∧ Inv y'.sched ∧ Effect y.sched e y'.sched ∧
      y'.forks = forkOf y.sched y'.sched e ++ y.forks := by
  obtain ⟨s', hs', hinv, heff⟩ := Scheduler.step_spec hs ha
  exact ⟨⟨s', forkOf y.sched s' e ++ y.forks⟩, by rw [Traced.step, hs']; rfl, hinv, heff, rfl⟩

private theorem run_traced (h : run Traced.step y es = some y') : run step y.sched es = some y'.sched := by
  induction es generalizing y with
  | nil =>
    cases h
    rfl
  | cons e es ih =>
    obtain ⟨y1, h1, h2⟩ := bind_eq_some_iff.1 h
    obtain ⟨s1, hs1, rfl⟩ := map_eq_some_iff.1 h1
    rw [run, hs1]
    exact ih h2

/-- In every run in which each task that sleeps on the id of its child goes to sleep while it has such a child, no task
sleeps on a child that has exited. -/
theorem waits_for_live_child (around : Nat → Int) (cr3 : Nat) (sh d : Uninit) :
    ∃ s₀, cooperativeSchedule (boot around) cr3 sh d = some s₀ ∧
      ∀ es, Permitted Traced.step (fun y e => Allowed y.sched e ∧ InTime y e) ⟨s₀, []⟩ es →
        ∃ y, run Traced.step ⟨s₀, []⟩ es = some y ∧ run step s₀ es = some y.sched ∧ Notified y := by
  obtain ⟨s₀, hs0, hstart⟩ := cooperativeSchedule_start around cr3 sh d
  refine ⟨s₀, hs0, fun es hes => ?_⟩
  have hrun : ∃ y, run Traced.step ⟨s₀, []⟩ es = some y ∧ Inv y.sched ∧ Recorded y ∧ Notified y := by
    refine run_invariant (fun y e hy ha => ?_) ⟨hstart.inv, ⟨nofun, nofun⟩, ?_⟩ hes
    · obtain ⟨hs, hr, hn⟩ := hy
      obtain ⟨y', hy', hinv, heff, hforks⟩ := Traced.step_spec hs ha.1
      exact ⟨y', hy', hinv, hr.step hs heff hforks, hn.step hr hs hinv ha.2 heff hforks⟩
    · intro t ht
      rw [show Sched.waitQueue _ = [] from hstart.wait] at ht
      cases ht
  obtain ⟨y, hy, -, -, hn⟩ := hrun
  exact ⟨y, hy, run_traced hy, hn⟩

theorem waits_for_live_child_shell : ∃ y,
    run Traced.step ⟨plainStart, []⟩ [.yield, .fork plainFork, .sleep 3, .yield] = some y ∧ Notified y := by
  have hrun := at_plainStart (waits_for_live_child (fun _ => 0) 0x1000 zeroed zeroed)
  obtain ⟨y, hy, -, hn⟩ := hrun [.yield, .fork plainFork, .sleep 3, .yield] (by decide +kernel)
  exact ⟨y, hy, hn⟩

/-- The shell forks, its child runs and exits, and then the shell waits for it. -/
theorem exit_lost : ∃ es y, Permitted Traced.step (fun y e => Allowed y.sched e) ⟨plainStart, []⟩ es ∧
    run Traced.step ⟨plainStart, []⟩ es = some y ∧ ¬ Notified y := by
  obtain ⟨y, hy, hwait, hdesc, hforks, hdead⟩ :
      ∃ y ∈ run Traced.step ⟨plainStart, []⟩ [.yield, .fork plainFork, .yield, .exit, .yield, .sleep 3],
        0 ∈ y.sched.waitQueue ∧ descOf y.sched 0 = some 3 ∧ y.forks = [(0, 2, 3)] ∧ ¬ Live y.sched 2 := by
    decide +kernel
  refine ⟨_, y, by decide +kernel, hy, fun hn => ?_⟩
  obtain ⟨c, hmem, hlive⟩ := hn 0 hwait 3 hdesc ⟨2, by simp [hforks]⟩
  rw [hforks, mem_singleton] at hmem
  obtain rfl : c = 2 := congrArg (fun a => a.2.1) hmem
  exact hdead hlive

/-- Nothing but the exit of a process wakes up a process. -/
def NoWakeup : Event → Prop
  | .wakeup _ => False
  | _ => True

instance : ∀ e, Decidable (NoWakeup e)
  | .wakeup _ => inferInstanceAs (Decidable False)
  | .yield | .fork _ | .exit | .sleep _ | .sleepTimer _ | .tick | .setrlimit _ => .isTrue trivial

/-- When a process exits that nobody waits for, nobody but its parent sleeps on the id of the parent. -/
def OnlyParentWaits (s : Sched) : Event → Prop
  | .exit => ∀ c ∈ getCurrentTask s, ∀ p ∈ s.pcb c, ∀ q ∈ p.parent, ∀ pq ∈ s.pcb q, waiting s p.pid = [] →
      ∀ t ∈ waiting s pq.pid, t = q
  | _ => True

instance (s : Sched) : ∀ e, Decidable (OnlyParentWaits s e)
  | .exit => inferInstanceAs (Decidable (∀ c ∈ getCurrentTask s, ∀ p ∈ s.pcb c, ∀ q ∈ p.parent, ∀ pq ∈ s.pcb q, _ → _))
  | .yield | .fork _ | .sleep _ | .sleepTimer _ | .wakeup _ | .tick | .setrlimit _ => .isTrue trivial

structure Asleep (around : Nat → Int) (s : Sched) (t q : TaskId) (n : Nat) : Prop where
  inv : Inv s
  pids : PidsValid around s
  wait : t ∈ s.waitQueue
  desc : descOf s t = some n
  own : pidOf s t ≠ some n
  old : q < s.numTasks
  target : pidOf s q = some n ∨ pidOf s q = none

private theorem Effect.numTasks_le (h : Effect s e s') : s.numTasks ≤ s'.numTasks := by
  cases h with
  | moves _ hm _ => exact Nat.le_of_eq hm.numTasks.symm
  | fork _ hf => rw [hf.numTasks]; exact Nat.le_succ _
  | exit _ hx => exact Nat.le_of_eq hx.numTasks.symm

private theorem Effect.pidOf (h : Effect s e s') (hu : u < s.numTasks) :
    pidOf s' u = pidOf s u ∨ pidOf s' u = none := by
  cases h with
  | moves _ hm _ => exact Or.inl hm.pidOf
  | fork _ hf => exact Or.inl (by rw [hf.pidOf, if_neg (Nat.ne_of_lt hu)])
  | exit _ hx =>
    rw [hx.pidOf]
    split
    · exact Or.inr rfl
    · exact Or.inl rfl

private theorem Exited.mem_run (hx : Exited s s' c p) (hs : Inv s) (hs' : Inv s') (ht : t ∈ wokenByExit s p) :
    t ∈ s'.runQueue := by
  have hwait := wokenByExit_subset t ht
  have htc : t ≠ c := fun h => hs.queued.run_wait (hs.mem_run_of_current hx.current) (h ▸ hwait)
  have hsome : (s'.pcb t).isSome := by
    rw [hx.pcb_other t htc, isSome_map]
    exact (hs.pcb_iff t).1 (mem_all_of_wait hwait)
  have hall := (hs'.pcb_iff t).2 hsome
  have hnw : t ∉ s'.waitQueue := fun h => by
    rw [hx.wait] at h
    simpa [ht] using (mem_filter.1 h).2
  have hnt : t ∉ s'.waitTimerQueue := fun h => hs.queued.wait_timer hwait (hx.timer ▸ h)
  unfold Sched.all at hall
  simpa [hs'.terminated, hnw, hnt] using hall

private theorem desc_of_wokenByExit (hw : OnlyParentWaits s .exit) (hc : getCurrentTask s = some c)
    (hp : s.pcb c = some p) (ht : t ∈ wokenByExit s p) : descOf s t = some p.pid ∨ descOf s t = pidOf s t := by
  unfold wokenByExit at ht
  cases hpar : p.parent with
  | none =>
    rw [hpar] at ht
    cases ht
  | some q =>
    rw [hpar, bind_some] at ht
    cases hpq : s.pcb q with
    | none =>
      rw [hpq] at ht
      cases ht
    | some pq =>
      rw [hpq] at ht
      dsimp only at ht
      split at ht
      · rename_i hnone
        right
        obtain rfl := hw c hc p hp q hpar pq hpq hnone t ht
        obtain ⟨-, pt, hpt, hdesc⟩ := mem_waiting.1 ht
        rw [descOf, pidOf, hpq] at *
        cases hpt
        exact congrArg some hdesc
      · left
        obtain ⟨-, pt, hpt, hdesc⟩ := mem_waiting.1 ht
        rw [descOf, hpt]
        exact congrArg some hdesc

/-- A sleeper waits for a process that lives, until an exit with this id wakes it. -/
private theorem Asleep.step (h : Asleep around s t q n) (ha : Allowed s e) (hfind : FindsPid s e) (hno : NoWakeup e)
    (honly : OnlyParentWaits s e) (hs' : step s e = some s') : Asleep around s' t q n ∨ t ∈ s'.runQueue ∧ e = .exit ∧
      ∃ c, getCurrentTask s = some c ∧ pidOf s c = some n ∧ (Live s q → c = q) := by
  obtain ⟨s1, hs1, hinv, heff⟩ := step_spec h.inv ha
  cases hs1.symm.trans hs'
  have htnum : t < s.numTasks := h.inv.fresh ((h.inv.pcb_iff t).1 (mem_all_of_wait h.wait))
  rcases heff.still_waits h.wait with hwait | ⟨d, rfl, -⟩ | ⟨c, p, rfl, hx, hmem⟩
  · left
    refine ⟨hinv, h.pids.step h.inv hfind heff, hwait, ?_, ?_, Nat.lt_of_lt_of_le h.old heff.numTasks_le, ?_⟩
    · rcases heff.wait h.inv hwait with ⟨-, hsame⟩ | ⟨d, -, hcur, -⟩
      · rw [hsame, h.desc]
      · exact absurd h.wait (h.inv.queued.run_wait (h.inv.mem_run_of_current hcur))
    · rcases heff.pidOf htnum with hpid | hpid
      · rw [hpid]
        exact h.own
      · rw [hpid]
        exact nofun
    · rcases heff.pidOf h.old with hpid | hpid
      · rw [hpid]
        exact h.target
      · exact Or.inr hpid
  · exact absurd hno id
  · right
    have hpid : pidOf s c = some n := by
      rw [pidOf, hx.pcb_eq, map_some, ← h.desc]
      rcases desc_of_wokenByExit honly hx.current hx.pcb_eq hmem with hd | hd
      · exact hd.symm
      · exact absurd (hd.symm.trans h.desc) h.own
    refine ⟨hx.mem_run h.inv hinv hmem, rfl, c, hx.current, hpid, fun hlive => ?_⟩
    have hq : pidOf s q = some n := h.target.resolve_right fun hnone => by
      have hsome := h.inv.live_iff.1 hlive
      rw [pidOf, map_eq_none_iff] at hnone
      rw [hnone] at hsome
      cases hsome
    exact h.pids.unique hpid hq

/-- An event that can happen, with a process id for each fork, no wakeup from outside, and only the parent of an exiting
process sleeping on the id of the parent. -/
def WaitAllowed (s : Sched) (e : Event) : Prop := Allowed s e ∧ FindsPid s e ∧ NoWakeup e ∧ OnlyParentWaits s e

instance (s : Sched) (e : Event) : Decidable (WaitAllowed s e) := inferInstanceAs (Decidable (_ ∧ _))

private theorem Asleep.run (h : Asleep around s t q n) (hes : Permitted Scheduler.step WaitAllowed s es)
    (hsleep : ∀ es', es' <+: es → ∀ s₁, Adix.run Scheduler.step s es' = some s₁ → t ∉ s₁.runQueue)
    (hs' : Adix.run Scheduler.step s es = some s') : Asleep around s' t q n := by
  induction es generalizing s with
  | nil =>
    cases hs'
    exact h
  | cons e es ih =>
    obtain ⟨s₁, hs1, hrest⟩ := bind_eq_some_iff.1 hs'
    obtain ⟨⟨ha, hfind, hno, honly⟩, hperm⟩ := hes
    have hafter : ∀ es' s2, Adix.run Scheduler.step s₁ es' = some s2 →
        Adix.run Scheduler.step s (e :: es') = some s2 := by
      intro es' s2 h2
      rw [Adix.run, hs1]
      exact h2
    rcases h.step ha hfind hno honly hs1 with h1 | ⟨hrun, -⟩
    · refine ih h1 (hperm s₁ hs1) (fun es' hpre s2 h2 => ?_) hrest
      exact hsleep (e :: es') ((prefix_cons_inj e).2 hpre) s2 (hafter es' s2 h2)
    · exact absurd hrun (hsleep [e] ((prefix_cons_inj e).2 nil_prefix) s₁ (hafter [] s₁ rfl))

/-- A task that went to sleep on the id of another live process is woken up by a step in which a process with this id
exits, and if the process itself has not exited before, it is that process. -/
theorem woken_by_exit (around : Nat → Int) (cr3 : Nat) (sh d : Uninit) :
    ∃ s₀, cooperativeSchedule (boot around) cr3 sh d = some s₀ ∧
      ∀ es₁ n es₂ e s₁ s₂ s₃ s₄ t q, Permitted step WaitAllowed s₀ (es₁ ++ .sleep n :: (es₂ ++ [e])) →
        run step s₀ es₁ = some s₁ → step s₁ (.sleep n) = some s₂ → run step s₂ es₂ = some s₃ → step s₃ e = some s₄ →
        getCurrentTask s₁ = some t → q ≠ t → Live s₁ q → pidOf s₁ q = some n →
        (∀ es', es' <+: es₂ → ∀ s, run step s₂ es' = some s → t ∉ s.runQueue) → t ∈ s₄.runQueue →
        e = .exit ∧ ∃ c, getCurrentTask s₃ = some c ∧ pidOf s₃ c = some n ∧ (Live s₃ q → c = q) := by
  obtain ⟨s₀, hs0, hstart⟩ := cooperativeSchedule_start around cr3 sh d
  refine ⟨s₀, hs0, ?_⟩
  intro es₁ n es₂ e s₁ s₂ s₃ s₄ t q hes h1 h2 h3 h4 hcur hqt hlive hpid hsleep hwoken
  have hfirst : ∃ s, run step s₀ es₁ = some s ∧ Inv s ∧ PidsValid around s := by
    refine run_invariant (fun s e hs ha => ?_) ⟨hstart.inv, hstart.pidsValid⟩ hes.left
    obtain ⟨ha, hfind, -, -⟩ := ha
    obtain ⟨s', hs', hinv, heff⟩ := step_spec hs.1 ha
    exact ⟨s', hs', hinv, hs.2.step hs.1 hfind heff⟩
  obtain ⟨s, hs, hinv, hvalid⟩ := hfirst
  cases hs.symm.trans h1
  obtain ⟨⟨ha, -⟩, hperm⟩ := hes.right h1
  have htd : t ≠ daemon := fun h => ha (h ▸ hcur)
  obtain ⟨s', hs', hinv', hmoves, hwait, hself, -⟩ := sysSleep_spec hinv hcur htd n
  obtain rfl := some.inj (hs'.symm.trans h2)
  -- the task has just gone to sleep
  have hasleep : Asleep around s' t q n := by
    obtain ⟨t', pt, ht', hpt, -⟩ := hinv.exists_current
    obtain rfl := some.inj (hcur.symm.trans ht')
    refine ⟨hinv', hvalid.moves hmoves, hwait ▸ mem_cons_self, by rw [descOf, hself, hpt]; rfl, ?_, ?_, ?_⟩
    · rw [hmoves.pidOf]
      exact fun h => hqt (hvalid.unique hpid h)
    · rw [hmoves.numTasks]
      exact hinv.fresh (hinv.live_iff.1 hlive)
    · rw [hmoves.pidOf]
      exact Or.inl hpid
  have hrest := hperm s' h2
  have hlast : Asleep around s₃ t q n := hasleep.run hrest.left hsleep h3
  obtain ⟨⟨ha', hfind, hno, honly⟩, -⟩ := hrest.right h3
  rcases hlast.step ha' hfind hno honly h4 with hstill | ⟨-, hexit⟩
  · exact absurd hstill.wait (hstill.inv.queued.run_wait hwoken)
  · exact hexit

def after (es : List Event) : Sched := (run step plainStart es).getD plainStart

theorem woken_by_exit_child : 0 ∈ (after [.yield, .fork plainFork, .sleep 3, .exit]).runQueue ∧
    ∃ c, getCurrentTask (after [.yield, .fork plainFork, .sleep 3]) = some c ∧
      pidOf (after [.yield, .fork plainFork, .sleep 3]) c = some 3 := by
  have hrun := at_plainStart (woken_by_exit (fun _ => 0) 0x1000 zeroed zeroed)
  have h1 : run step plainStart [.yield, .fork plainFork] = some (after [.yield, .fork plainFork]) := rfl
  have h2 : step (after [.yield, .fork plainFork]) (.sleep 3) = some (after [.yield, .fork plainFork, .sleep 3]) := rfl
  have h4 : step (after [.yield, .fork plainFork, .sleep 3]) .exit =
      some (after [.yield, .fork plainFork, .sleep 3, .exit]) := rfl
  have hrunning : 0 ∈ (after [.yield, .fork plainFork, .sleep 3, .exit]).runQueue := by decide +kernel
  have hasleep : 0 ∉ (after [.yield, .fork plainFork, .sleep 3]).runQueue := by decide +kernel
  have hresult := hrun [.yield, .fork plainFork] 3 [] .exit _ _ _ _ 0 2 (by decide +kernel) h1 h2 rfl h4
    (by decide +kernel) (by decide) (by decide +kernel) (by decide +kernel)
    (fun es' hpre s hs => by
      obtain rfl := prefix_nil.1 hpre
      cases hs
      exact hasleep) hrunning
  obtain ⟨-, c, hc, hpid, -⟩ := hresult
  exact ⟨hrunning, c, hc, hpid⟩

/-- The shell waits for its child, and is woken up when a child of the child exits, while the child itself lives on. -/
theorem woken_by_grandchild : ∃ es₁ es₂ s₁ s₂ s₃ s₄,
    Permitted step (fun s e => Allowed s e ∧ FindsPid s e ∧ NoWakeup e) plainStart
      (es₁ ++ .sleep 3 :: (es₂ ++ [.exit])) ∧
      run step plainStart es₁ = some s₁ ∧ step s₁ (.sleep 3) = some s₂ ∧ run step s₂ es₂ = some s₃ ∧
      step s₃ .exit = some s₄ ∧ getCurrentTask s₁ = some 0 ∧ Live s₁ 2 ∧ pidOf s₁ 2 = some 3 ∧
      0 ∈ s₃.waitQueue ∧ descOf s₃ 0 = some 3 ∧ 0 ∈ s₄.runQueue ∧
      getCurrentTask s₃ = some 3 ∧ pidOf s₃ 3 = some 4 ∧ Live s₄ 2 ∧ pidOf s₄ 2 = some 3 := by
  refine ⟨[.yield, .fork plainFork], [.fork plainFork, .yield], after [.yield, .fork plainFork],
    after [.yield, .fork plainFork, .sleep 3], after [.yield, .fork plainFork, .sleep 3, .fork plainFork, .yield],
    after [.yield, .fork plainFork, .sleep 3, .fork plainFork, .yield, .exit], ?_, rfl, rfl, rfl, rfl, ?_⟩
  · decide +kernel
  · decide +kernel

variable {s : Sched} {d : Nat} {m : List TaskId} {t : TaskId}

/-- The queues that `_sys_wakeup` is called for: `pcb_wait_queue` by `sys_wakeup`, `wait_timer_queue` by
`sys_wakeup_timer`. -/
inductive WaitQueue where
  | wait
  | timer
  deriving DecidableEq

def WaitQueue.tasks (q : WaitQueue) (s : Sched) : List TaskId :=
  match q with
  | .wait => s.waitQueue
  | .timer => s.waitTimerQueue

def sleepers (q : WaitQueue) (s : Sched) (waitDesc : Nat) : List TaskId := (q.tasks s).filter (waitsFor s waitDesc)

/-- All sleepers come to the front of the run queue in their order and do not wait any more; all other tasks stay as
they are. -/
structure Wakes (q : WaitQueue) (waitDesc : Nat) (s s' : Sched) (n : Nat) : Prop where
  count : n = (sleepers q s waitDesc).length
  run : s'.runQueue = sleepers q s waitDesc ++ s.runQueue
  queue : q.tasks s' = (q.tasks s).filter fun t => !waitsFor s waitDesc t
  others : ∀ q', q' ≠ q → q'.tasks s' = q'.tasks s
  terminated : s'.terminatedQueue = s.terminatedQueue
  woken : ∀ t ∈ sleepers q s waitDesc, s'.pcb t = (s.pcb t).map fun p => { p with waitDesc := notWaiting }
  kept : ∀ t, t ∉ sleepers q s waitDesc → s'.pcb t = s.pcb t

private theorem sleepers_subset {q : WaitQueue} : ∀ t ∈ sleepers q s d, t ∈ q.tasks s := fun _ ht => (mem_filter.1 ht).1

namespace Queued

variable {q : WaitQueue}

private theorem tasks (h : Queued s) : (q.tasks s).Nodup := by
  cases q with
  | wait => exact h.wait
  | timer => exact h.timer

private theorem run_tasks (h : Queued s) (ht : t ∈ s.runQueue) : t ∉ q.tasks s := by
  cases q with
  | wait => exact h.run_wait ht
  | timer => exact h.run_timer ht

private theorem tasks_tasks (h : Queued s) {q' : WaitQueue} (hq : q' ≠ q) (ht : t ∈ q'.tasks s) : t ∉ q.tasks s := by
  cases q with
  | wait =>
    cases q' with
    | wait => exact absurd rfl hq
    | timer => exact fun hw => h.wait_timer hw ht
  | timer =>
    cases q' with
    | wait => exact h.wait_timer ht
    | timer => exact absurd rfl hq

private theorem terminated_tasks (h : Queued s) (ht : t ∈ s.terminatedQueue) : t ∉ q.tasks s := by
  intro hw
  refine h.not_terminated ?_ ht
  cases q with
  | wait => exact mem_append_left _ (mem_append_right _ hw)
  | timer => exact mem_append_right _ hw

end Queued

private theorem WaitQueue.tasks_woken (q : WaitQueue) : q.tasks (woken m s) = (q.tasks s).filter (· ∉ m) := by
  cases q with
  | wait => rfl
  | timer => rfl

private theorem wakes_woken (h : Queued s) (q : WaitQueue) (d : Nat) :
    Wakes q d s (woken (sleepers q s d) s) (sleepers q s d).length where
  count := rfl
  run := by
    show sleepers q s d ++ s.runQueue.filter (· ∉ sleepers q s d) = _
    rw [filter_not_mem_eq_self]
    exact fun t ht hm => h.run_tasks ht (sleepers_subset t hm)
  queue := by
    rw [WaitQueue.tasks_woken]
    refine filter_congr fun t ht => ?_
    -- a task of the queue is a sleeper when the test holds for it
    simp [sleepers, ht]
  others q' hq' := by
    rw [WaitQueue.tasks_woken]
    exact filter_not_mem_eq_self fun t ht hm => h.tasks_tasks hq' ht (sleepers_subset t hm)
  terminated := filter_not_mem_eq_self fun t ht hm => h.terminated_tasks ht (sleepers_subset t hm)
  woken t ht := if_pos ht
  kept t ht := if_neg ht

/-- `_sys_wakeup` wakes up the tasks that wait for a descriptor, and stores nothing outside its array, exactly when
there are no more than `MAX_WAIT_PROC` of them. -/
theorem sysWakeupQueue_wakes_iff (s : Sched) (hs : Queued s) (q : WaitQueue) (waitDesc : Nat) :
    (∃ s' n, sysWakeupQueue s (q.tasks s) waitDesc = some (s', n) ∧ Wakes q waitDesc s s' n) ↔
      (sleepers q s waitDesc).length ≤ maxWaitProc := by
  constructor
  · intro hex
    obtain ⟨s', n, hrun, -⟩ := hex
    exact length_le_of_sysWakeupQueue hrun
  · intro hle
    exact ⟨_, _, sysWakeupQueue_eq hs hs.tasks hle, wakes_woken hs q waitDesc⟩

def forkAndWait (waitDesc : Nat) : Nat → List Event
  | 0 => []
  | n + 1 => .fork plainFork :: .sleep waitDesc :: forkAndWait waitDesc n

private theorem exists_sleepers (es : List Event) (d k : Nat)
    (hcheck : (checkedRun step Allowed plainStart es).any (fun s => decide ((sleepers .wait s d).length = k)) = true) :
    ∃ s, run step plainStart es = some s ∧ Queued s ∧ (sleepers .wait s d).length = k := by
  obtain ⟨s, hcheck, hk⟩ := (Option.any_eq_true _ _).1 hcheck
  obtain ⟨hes, hrun⟩ := permitted_of_checkedRun hcheck
  have hstart := at_plainStart (cooperativeSchedule_start (fun _ => 0) 0x1000 zeroed zeroed)
  obtain ⟨s', hrun', hinv⟩ := run_inv hstart.inv hes
  obtain rfl : s = s' := Option.some.inj (hrun.symm.trans hrun')
  exact ⟨s, hrun, hinv.queued, of_decide_eq_true hk⟩

theorem sysWakeupQueue_wakes_two : ∃ s, run step plainStart (.yield :: forkAndWait 10000 2) = some s ∧
    (sleepers .wait s 10000).length = 2 ∧
    ∃ s' n, sysWakeupQueue s (WaitQueue.wait.tasks s) 10000 = some (s', n) ∧ Wakes .wait 10000 s s' n := by
  obtain ⟨s, hrun, hs, hlen⟩ := exists_sleepers (.yield :: forkAndWait 10000 2) 10000 2 (by decide +kernel)
  refine ⟨s, hrun, hlen, (sysWakeupQueue_wakes_iff s hs .wait 10000).2 ?_⟩
  rw [hlen]
  decide

/-- With 21 tasks that wait for the terminal, the wake-up writes behind its array. -/
theorem wakeup_behind_array : ¬ ∀ (s : Sched), Queued s → ∀ (q : WaitQueue) (waitDesc : Nat),
    ∃ s' n, sysWakeupQueue s (q.tasks s) waitDesc = some (s', n) ∧ Wakes q waitDesc s s' n := by
  intro hall
  obtain ⟨s, -, hs, hlen⟩ := exists_sleepers (.yield :: forkAndWait 10000 21) 10000 21 (by decide +kernel)
  obtain ⟨s', n, hrun, -⟩ := hall s hs .wait 10000
  have hle := length_waiting_le (s := s) (d := 10000) hrun
  have hlen' : (waiting s 10000).length = 21 := hlen
  rw [hlen'] at hle
  revert hle
  decide

end Adix.Scheduler
