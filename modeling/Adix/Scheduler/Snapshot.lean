import Adix.Scheduler.Run

/-!
# The list of processes (`sys_process_snapshot` of `sys/scheduler/scheduler.c`)

When `sys_malloc` fails it returns the `-1` of `mmap`, which the checks for `NULL` let pass. A copy that is `NULL` ends
the list, and the next copy becomes its beginning.
-/

namespace Adix.Scheduler

open List Option

inductive PsState where
  | running
  | waiting
  | waitingTimer

/-- `struct ps_t`, without the link. -/
structure Ps where
  pid : Nat
  name : Option String
  state : PsState

inductive Malloc where
  | block
  | null
  | minusOne

/-- What `sys_malloc` returns for the name and for the entry of a task. -/
structure PsEnv where
  name : TaskId → Malloc
  entry : TaskId → Malloc

variable {env : PsEnv} {s : Sched} {t : TaskId} {st : PsState} {c : Option Ps} {l : List Ps} {r r' : List Ps × Bool}
  {qs : List (TaskId × PsState)}

/-- `single_process_snapshot_copy`; the outcome `none` is a write through `-1`, and `some none` is `NULL`. -/
def singleProcessSnapshotCopy (env : PsEnv) (s : Sched) (t : TaskId) (st : PsState) : Option (Option Ps) := do
  let p ← s.pcb t
  match p.name.map fun _ => env.name t with
  | some .minusOne => none
  | some .null => some none
  | _ => match env.entry t with
    | .minusOne => none
    | .null => some none
    | .block => some (some ⟨p.pid, p.name, st⟩)

/-- The list after one more copy, and whether `last` is an entry. -/
def link : List Ps × Bool → Option Ps → List Ps × Bool
  | (l, true), some e => (l ++ [e], true)
  | (l, true), none => (l, false)
  | (_, false), c => (c.toList, c.isSome)

def listed (s : Sched) : List (TaskId × PsState) :=
  s.runQueue.map (·, .running) ++ s.waitQueue.map (·, .waiting) ++ s.waitTimerQueue.map (·, .waitingTimer)

def snapshotLoop (env : PsEnv) (s : Sched) (r : List Ps × Bool) (qs : List (TaskId × PsState)) :
    Option (List Ps × Bool) :=
  qs.foldlM (fun r q => (singleProcessSnapshotCopy env s q.1 q.2).map (link r)) r

/-- `sys_process_snapshot`, with what `*list` was before. -/
def sysProcessSnapshot (env : PsEnv) (s : Sched) (old : List Ps) : Option (List Ps) :=
  (snapshotLoop env s (old, false) (listed s)).map Prod.fst

def PsEnv.Copied (env : PsEnv) (s : Sched) (t : TaskId) : Prop :=
  ∃ p ∈ s.pcb t, (p.name.isSome → env.name t = .block) ∧ env.entry t = .block

def ps (s : Sched) (q : TaskId × PsState) : Option Ps := (s.pcb q.1).map fun p => ⟨p.pid, p.name, q.2⟩

/-- Every live task is in the list once, with the state of the queue that it is on. -/
def ListsLive (s : Sched) (l : List Ps) : Prop :=
  ∃ qs : List (TaskId × PsState), (qs.map Prod.fst).Nodup ∧ (∀ t, t ∈ qs.map Prod.fst ↔ Live s t) ∧
    (∀ q ∈ qs, q ∈ listed s) ∧ l.map some = qs.map (ps s)

private theorem copy_copied (st : PsState) (h : env.Copied s t) :
    ∃ e, ps s (t, st) = some e ∧ singleProcessSnapshotCopy env s t st = some (some e) := by
  obtain ⟨p, hp, hname, hentry⟩ := h
  refine ⟨⟨p.pid, p.name, st⟩, by rw [ps, hp]; rfl, ?_⟩
  rw [singleProcessSnapshotCopy, hp, hentry]
  cases hn : p.name with
  | none => simp [hn]
  | some n => simp [hn, hname (by rw [hn]; rfl)]

private theorem copied_of_copy {e : Ps} (h : singleProcessSnapshotCopy env s t st = some (some e)) :
    env.Copied s t := by
  obtain ⟨p, hp, h⟩ := bind_eq_some_iff.1 h
  refine ⟨p, hp, ?_⟩
  split at h
  · cases h
  · cases h
  · next hnull hminus =>
    split at h
    · cases h
    · cases h
    · next hentry =>
      refine ⟨fun hn => ?_, hentry⟩
      obtain ⟨n, hn⟩ := isSome_iff_exists.1 hn
      cases hb : env.name t with
      | block => rfl
      | null => exact absurd (by rw [hn, hb]; rfl) hminus
      | minusOne => exact absurd (by rw [hn, hb]; rfl) hnull

private theorem length_link : (link r c).1.length ≤ r.1.length + c.toList.length := by
  obtain ⟨l, b⟩ := r
  cases b <;> cases c <;> simp [link]

/-- The list gets no longer than the number of tasks, and is shorter if a copy is missing. -/
theorem snapshotLoop_length (h : snapshotLoop env s r qs = some r') : r'.1.length ≤ r.1.length + qs.length ∧
    (r'.1.length = r.1.length + qs.length → ∀ q ∈ qs, env.Copied s q.1) := by
  induction qs generalizing r with
  | nil =>
    cases h
    exact ⟨le_rfl, nofun⟩
  | cons q qs ih =>
    obtain ⟨r₁, hr, h⟩ := bind_eq_some_iff.1 h
    obtain ⟨c, hc, rfl⟩ := map_eq_some_iff.1 hr
    obtain ⟨hle, hall⟩ := ih h
    have hlink := length_link (r := r) (c := c)
    have hcl : c.toList.length ≤ 1 := by cases c <;> simp
    rw [length_cons]
    refine ⟨by omega, fun heq => ?_⟩
    cases c with
    | none =>
      rw [toList_none, length_nil] at hlink
      omega
    | some e =>
      rw [toList_some, length_singleton] at hlink
      exact forall_mem_cons.2 ⟨copied_of_copy hc, hall (by omega)⟩

private theorem snapshotLoop_copied (h : ∀ q ∈ qs, env.Copied s q.1) :
    ∃ l', l'.map some = qs.map (ps s) ∧ snapshotLoop env s (l, true) qs = some (l ++ l', true) := by
  induction qs generalizing l with
  | nil => exact ⟨[], rfl, by rw [append_nil]; rfl⟩
  | cons q qs ih =>
    obtain ⟨hq, hqs⟩ := forall_mem_cons.1 h
    obtain ⟨e, he, hcopy⟩ := copy_copied q.2 hq
    obtain ⟨l', hl, hloop⟩ := ih (l := l ++ [e]) hqs
    refine ⟨e :: l', by rw [map_cons, map_cons, hl, ← he], ?_⟩
    rw [snapshotLoop, foldlM_cons, hcopy, append_cons]
    exact hloop

private theorem map_fst_listed (hs : Inv s) : (listed s).map Prod.fst = s.all := by
  simp [listed, Sched.all, hs.terminated, Function.comp_def]

/-- In every state that a run reaches, the snapshot lists every live task once with the state of its queue, if and only
if all the allocations succeed. -/
theorem snapshot_complete_iff (around : Nat → Int) (cr3 : Nat) (sh d : Uninit) :
    ∃ s₀, cooperativeSchedule (boot around) cr3 sh d = some s₀ ∧ ∀ es, Permitted step Allowed s₀ es →
      ∃ s, run step s₀ es = some s ∧ ∀ env old, (∃ l, sysProcessSnapshot env s old = some l ∧ ListsLive s l) ↔
        ∀ t, Live s t → env.Copied s t := by
  obtain ⟨s₀, hs0, hstart⟩ := cooperativeSchedule_start around cr3 sh d
  refine ⟨s₀, hs0, fun es hes => ?_⟩
  obtain ⟨s, hs, hinv⟩ := run_inv hstart.inv hes
  refine ⟨s, hs, fun env old => ?_⟩
  have hlive : ∀ t, t ∈ s.all ↔ Live s t := fun t => (hinv.pcb_iff t).trans hinv.live_iff.symm
  have hfst := map_fst_listed hinv
  obtain ⟨q, qs, hq⟩ : ∃ q qs, listed s = q :: qs := by
    apply exists_cons_of_ne_nil
    simp [listed, hinv.run_ne_nil]
  -- the first copy replaces what the list was before
  have hold : snapshotLoop env s (old, false) (q :: qs) = snapshotLoop env s ([], false) (q :: qs) := rfl
  have hcopied : (∀ t, Live s t → env.Copied s t) ↔ ∀ q ∈ listed s, env.Copied s q.1 := by
    simp only [← hlive, ← hfst, List.forall_mem_map]
  rw [hcopied, sysProcessSnapshot, hq, hold]
  constructor
  · rintro ⟨l, hl, ts, hnodup, hmem, -, hts⟩
    obtain ⟨r, hr, rfl⟩ := map_eq_some_iff.1 hl
    have hperm := (perm_ext_iff_of_nodup hnodup hinv.queued).2 fun t => (hmem t).trans (hlive t).symm
    have hlen := (congrArg length hts).trans (length_map _)
    have hall := hperm.length_eq
    rw [← hfst, hq, length_map, length_map] at hall
    rw [length_map] at hlen
    exact (snapshotLoop_length hr).2 (by rw [hlen, hall, length_nil, Nat.zero_add])
  · intro h
    obtain ⟨e, -, he⟩ := copy_copied q.2 (h q mem_cons_self)
    obtain ⟨l, hl, hloop⟩ := snapshotLoop_copied (l := []) h
    refine ⟨l, ?_, q :: qs, hq ▸ hfst ▸ hinv.queued, fun t => ?_, fun _ h => hq ▸ h, hl⟩
    · rw [snapshotLoop, foldlM_cons, he] at hloop ⊢
      exact congrArg (Option.map Prod.fst) hloop
    · rw [← hq, hfst, hlive]

theorem snapshot_complete_iff_child : ∃ s, run step plainStart [.yield, .fork plainFork, .sleep 3] = some s ∧
    ∀ env old, (∃ l, sysProcessSnapshot env s old = some l ∧ ListsLive s l) ↔ ∀ t, Live s t → env.Copied s t := by
  have hrun := at_plainStart (snapshot_complete_iff (fun _ => 0) 0x1000 zeroed zeroed)
  exact hrun _ (by decide +kernel)

end Adix.Scheduler
