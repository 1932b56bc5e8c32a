import Adix.Lib.Linked
import Adix.Scheduler.Run

/-!
# The process tree

Who is the child of whom is stored twice: in the field `parent` of the child, and in the list `children` of the parent.
A child that exits takes itself off the list; a parent that exits first only resets the fields `parent`, and leaves its
children linked to a head that is then freed.
-/

namespace Adix.Scheduler

open List Option

variable {s s' : Sched} {t u c q : TaskId} {p pq x : Pcb} {e : Event} {es : List Event} {n : Node} {y : Family}

/-- The nodes of the lists: the head from `init_children_list`, and the field `child_lister`. -/
inductive Node where
  | head (t : TaskId)
  | childLister (t : TaskId)
  deriving DecidableEq

open Node (childLister head)

def Node.owner : Node → TaskId
  | head t => t
  | childLister t => t

/-- `deep_free_task` frees the head together with the PCB. -/
def there (s : Sched) (n : Node) : Bool := (s.pcb n.owner).isSome

/-- The links that `sys_fork` sets, with `init_children_list` and `add_child`. An allocation that fails before is the
end of the call. -/
def forkLinks (s : Sched) (env : ForkEnv) (L : Links Node) : Option (Links Node) := do
  let t ← getCurrentTask s
  let p ← s.pcb t
  let c := s.numTasks
  if env.pcbOk && env.stackOk && (p.name.isNone || env.nameOk) then
    (L.init (.head c)).addTail (fun n => n.owner == c || there s n) (.childLister c) (.head t)
  else some L

/-- The links that `remove_child` goes through, for a task with a parent. -/
def removeChildLinks (s : Sched) (t : TaskId) (p : Pcb) (L : Links Node) : Option (Links Node) :=
  if p.parent.isSome then L.del (there s) (.childLister t) else some L

/-- The links that `handle_wakeup_on_exit` goes through, in `remove_child` and `remove_parent_info_from_children`. -/
def exitLinks (s : Sched) (L : Links Node) : Option (Links Node) := do
  let t ← getCurrentTask s
  let p ← s.pcb t
  let L ← removeChildLinks s t p L
  let _ ← L.forEach (there s) (s.numTasks + 1) (.head t)
  return L

/-- The scheduler with the links of the lists of children. Operations fail when they go through the PCB or the head of a
task that has been freed. -/
structure Family where
  sched : Sched
  links : Links Node

def Family.step (y : Family) (e : Event) : Option Family := do
  let links ← match e with
    | .fork env => forkLinks y.sched env y.links
    | .exit => exitLinks y.sched y.links
    | _ => some y.links
  let sched ← Scheduler.step y.sched e
  return ⟨sched, links⟩

/-- The links after `createTask` for the first two tasks; `memory` is what was there before. -/
def firstLinks (memory : Links Node) : Links Node := (memory.init (.head 0)).init (.head daemon)

/-- The parent of a live task is live, and its list of children has exactly the live tasks whose parent it is. -/
structure Tree (s : Sched) : Prop where
  parent : ∀ t p, Live s t → s.pcb t = some p → ∀ q, p.parent = some q → Live s q
  nodup : ∀ t p, Live s t → s.pcb t = some p → p.children.Nodup
  children : ∀ t p, Live s t → s.pcb t = some p →
    ∀ c, c ∈ p.children ↔ Live s c ∧ ∃ pc, s.pcb c = some pc ∧ pc.parent = some t

/-- The lists hold each child once, and only tasks that are there. -/
structure Lists (s : Sched) : Prop where
  nodup : ∀ {q pq}, s.pcb q = some pq → pq.children.Nodup
  present : ∀ {q pq c}, s.pcb q = some pq → c ∈ pq.children → (s.pcb c).isSome

def Represents (L : Links Node) (s : Sched) : Prop :=
  ∀ q pq, s.pcb q = some pq → Linked L (.head q) (pq.children.map .childLister)

private theorem Inv.tree (hs : Inv s) (hl : Lists s) : Tree s where
  parent t p _ hp q hq := by
    obtain ⟨pq, hpq, -⟩ := hs.parent (by simp [hs.terminated]) hp hq
    exact hs.live_iff.2 (by rw [hpq]; rfl)
  nodup t p _ hp := hl.nodup hp
  children t p _ hp c := by
    constructor
    · intro hc
      obtain ⟨pc, hpc⟩ := isSome_iff_exists.1 (hl.present hp hc)
      exact ⟨hs.live_iff.2 (by rw [hpc]; rfl), pc, hpc, hs.child (by simp [hs.terminated]) hp hc hpc⟩
    · intro hc
      obtain ⟨-, pc, hpc, hpar⟩ := hc
      obtain ⟨pt, hpt, hmem⟩ := hs.parent (by simp [hs.terminated]) hpc hpar
      rw [hp] at hpt
      exact some.inj hpt ▸ hmem

private theorem Inv.child_unique (hs : Inv s) (hl : Lists s) (hp : s.pcb t = some p) (hpq : s.pcb q = some pq)
    (hc : c ∈ p.children) (hcq : c ∈ pq.children) : t = q := by
  obtain ⟨pc, hpc⟩ := isSome_iff_exists.1 (hl.present hp hc)
  have h1 := hs.child (by simp [hs.terminated]) hp hc hpc
  have h2 := hs.child (by simp [hs.terminated]) hpq hcq hpc
  exact some.inj (h1.symm.trans h2)

private theorem Lists.moves (hl : Lists s) (h : Moves s s') : Lists s' where
  nodup {q pq'} hpq' := by
    obtain ⟨pq, hpq, -, -, hch, -⟩ := h.pcb_some hpq'
    rw [hch]
    exact hl.nodup hpq
  present {q pq' c} hpq' hc := by
    obtain ⟨pq, hpq, -, -, hch, -⟩ := h.pcb_some hpq'
    rw [h.isSome]
    exact hl.present hpq (hch ▸ hc)

private theorem Forked.pcb_cases (hf : Forked s s' t p x) {pu : Pcb} (hu : s'.pcb u = some pu) :
    u = s.numTasks ∧ pu.children = [] ∨ u = t ∧ pu.children = p.children ++ [s.numTasks] ∨
      u ≠ s.numTasks ∧ u ≠ t ∧ s.pcb u = some pu := by
  by_cases hn : u = s.numTasks
  · rw [hn, hf.pcb_new] at hu
    exact Or.inl ⟨hn, by rw [← some.inj hu, hf.children]⟩
  · by_cases ht : u = t
    · rw [ht, hf.pcb_parent] at hu
      exact Or.inr (Or.inl ⟨ht, by rw [← some.inj hu]⟩)
    · rw [hf.pcb_other u hn ht] at hu
      exact Or.inr (Or.inr ⟨hn, ht, hu⟩)

private theorem Lists.fork (hl : Lists s) (hs : Inv s) (hf : Forked s s' t p x) : Lists s' where
  nodup {q pq} hpq := by
    rcases hf.pcb_cases hpq with ⟨-, hch⟩ | ⟨-, hch⟩ | ⟨-, -, hpq⟩
    · simp [hch]
    · rw [hch, nodup_append]
      refine ⟨hl.nodup hf.pcb_eq, by simp, fun a ha b hb hab => ?_⟩
      rw [hab, mem_singleton.1 hb] at ha
      exact Nat.lt_irrefl _ (hs.bound hf.pcb_eq ha)
    · exact hl.nodup hpq
  present {q pq c} hpq hc := by
    apply hf.isSome_iff.2
    obtain ⟨hnew, -⟩ | ⟨pq0, hpq0, hc⟩ := hf.children_cases hpq hc
    · exact Or.inl hnew
    · exact Or.inr (hl.present hpq0 hc)

private theorem Exited.pcb_cases (hx : Exited s s' t p) {pu' : Pcb} (hu : s'.pcb u = some pu') :
    u ≠ t ∧ ∃ pu, s.pcb u = some pu ∧
    pu'.children = if p.parent = some u then pu.children.erase t else pu.children := by
  have hut : u ≠ t := by
    intro hc
    rw [hc, hx.pcb_self] at hu
    cases hu
  rw [hx.pcb_other u hut] at hu
  obtain ⟨pu, hpu, rfl⟩ := map_eq_some_iff.1 hu
  exact ⟨hut, pu, hpu, rfl⟩

private theorem Lists.exit (hl : Lists s) (hs : Inv s) (hx : Exited s s' t p) : Lists s' where
  nodup {q pq'} hpq' := by
    obtain ⟨-, pq, hpq, hch⟩ := hx.pcb_cases hpq'
    rw [hch]
    split
    · exact (hl.nodup hpq).erase t
    · exact hl.nodup hpq
  present {q pq' c} hpq' hc := by
    obtain ⟨-, pq, hpq, hch⟩ := hx.pcb_cases hpq'
    rw [hch] at hc
    -- the exiting task was on the list of its parent only, and is not there any more
    have hmem : c ∈ pq.children ∧ c ≠ t := by
      split at hc
      · exact ⟨mem_of_mem_erase hc, fun h => (hl.nodup hpq).not_mem_erase (h ▸ hc)⟩
      · rename_i hpar
        refine ⟨hc, fun h => hpar ?_⟩
        exact hs.child (by simp [hs.terminated]) hpq (h ▸ hc) hx.pcb_eq
    rw [hx.pcb_other c hmem.2, isSome_map]
    exact hl.present hpq hmem.1

variable {L : Links Node}

private theorem Represents.moves (hr : Represents L s) (h : Moves s s') : Represents L s' := by
  intro q pq' hpq'
  obtain ⟨pq, hpq, -, -, hch, -⟩ := h.pcb_some hpq'
  rw [hch]
  exact hr q pq hpq

private theorem Lists.isSome_owner (hl : Lists s) (hpq : s.pcb q = some pq)
    (hn : n ∈ head q :: pq.children.map childLister) : (s.pcb n.owner).isSome := by
  rcases mem_cons.1 hn with rfl | hn
  · show (s.pcb q).isSome
    rw [hpq]
    rfl
  · obtain ⟨c, hc, rfl⟩ := List.mem_map.1 hn
    exact hl.present hpq hc

private theorem Lists.disjoint (hl : Lists s) (hs : Inv s) (hp : s.pcb t = some p) (hpq : s.pcb q = some pq)
    (htq : t ≠ q) (hn : n ∈ head t :: p.children.map childLister) : n ∉ head q :: pq.children.map childLister := by
  intro hnq
  cases n with
  | head u =>
    simp only [mem_cons, Node.head.injEq, List.mem_map, reduceCtorEq, and_false, exists_false, or_false] at hn hnq
    exact htq (hn.symm.trans hnq)
  | childLister u =>
    simp only [mem_cons, reduceCtorEq, List.mem_map, Node.childLister.injEq, exists_eq_right, false_or] at hn hnq
    exact htq (hs.child_unique hl hp hpq hn hnq)

/-- A fork links the new task to its parent. -/
private theorem forkLinks_spec {env : ForkEnv} (hr : Represents L s) (hl : Lists s) (hs : Inv s)
    (hf : Forked s s' t p x) (henv : env.Succeeds p) : ∃ L', forkLinks s env L = some L' ∧ Represents L' s' := by
  obtain ⟨hpcb, hstack, hname, -⟩ := henv
  have hreach : (env.pcbOk && env.stackOk && (p.name.isNone || env.nameOk)) = true := by
    rw [hpcb, hstack]
    cases hn : p.name with
    | none => rfl
    | some n => simp [hname (by rw [hn]; rfl)]
  -- no node of a list is one of the new task
  have hold : ∀ {q pq n}, s.pcb q = some pq → n ∈ head q :: pq.children.map childLister → n.owner ≠ s.numTasks := by
    intro q pq n hpq hn hc
    have hsome := hl.isSome_owner hpq hn
    rw [hc, hs.pcb_numTasks] at hsome
    cases hsome
  have hinit : ∀ y : Node, y.owner ≠ s.numTasks →
      (L.init (.head s.numTasks)).next y = L.next y ∧ (L.init (.head s.numTasks)).prev y = L.prev y := by
    intro y hy
    have hne : y ≠ .head s.numTasks := fun hc => hy (by rw [hc]; rfl)
    exact ⟨Function.update_of_ne hne _ _, Function.update_of_ne hne _ _⟩
  have hrt := (hr t p hf.pcb_eq).congr fun y hy => hinit y (hold hf.pcb_eq hy)
  have hnew : childLister s.numTasks ∉ head t :: p.children.map childLister := fun hc => hold hf.pcb_eq hc rfl
  obtain ⟨L', hL', hring, hframe⟩ := hrt.addTail (fun n => n.owner == s.numTasks || there s n) hnew (fun y hy => by
      rcases mem_cons.1 hy with rfl | hy
      · simp [Node.owner]
      · have hsome := hl.isSome_owner hf.pcb_eq hy
        simp [there, hsome])
  refine ⟨L', ?_, fun u pu hpu => ?_⟩
  · unfold forkLinks
    simp only [hf.current, hf.pcb_eq, bind_eq_bind, bind_some, hreach, if_true]
    exact hL'
  · rcases hf.pcb_cases hpu with ⟨rfl, hch⟩ | ⟨rfl, hch⟩ | ⟨hun, hut, hpu⟩
    · rw [hch]
      refine (Linked.init L (.head s.numTasks)).congr fun y hy => hframe y fun hc => ?_
      obtain rfl : y = .head s.numTasks := by simpa using hy
      rcases mem_cons.1 hc with hc | hc
      · cases hc
      · exact hold hf.pcb_eq hc rfl
    · rw [hch, map_append]
      exact hring
    · refine ((hr u pu hpu).congr fun y hy => hinit y (hold hpu hy)).congr fun y hy => hframe y fun hc => ?_
      rcases mem_cons.1 hc with rfl | hc
      · exact hold hpu hy rfl
      · exact hl.disjoint hs hpu hf.pcb_eq hut hy hc

private theorem Lists.length_le (hl : Lists s) (hs : Inv s) (hp : s.pcb t = some p) :
    p.children.length ≤ s.numTasks := by
  have hsub : p.children ⊆ List.range s.numTasks := fun c hc => mem_range.2 (hs.bound hp hc)
  simpa using (subperm_of_subset (hl.nodup hp) hsub).length_le

private theorem removeChild_links (hr : Represents L s) (hl : Lists s) (hs : Inv s) (hp : s.pcb t = some p)
    (hpar : p.parent = some q) (hpq : s.pcb q = some pq) : ∃ L', L.del (there s) (.childLister t) = some L' ∧
      Linked L' (.head q) ((pq.children.erase t).map .childLister) ∧
      ∀ u pu, u ≠ q → s.pcb u = some pu → Linked L' (.head u) (pu.children.map .childLister) := by
  have hmem : t ∈ pq.children := by
    obtain ⟨pq', hpq', hmem⟩ := hs.parent (by simp [hs.terminated]) hp hpar
    rw [hpq] at hpq'
    exact some.inj hpq' ▸ hmem
  obtain ⟨l1, l2, hsplit⟩ := append_of_mem hmem
  have hlist : pq.children.map childLister = l1.map .childLister ++ childLister t :: l2.map .childLister := by
    rw [hsplit, map_append, map_cons]
  have herase : pq.children.erase t = l1 ++ l2 := by
    have hnd := hl.nodup hpq
    rw [hsplit] at hnd ⊢
    have ht : t ∉ l1 := fun hc => (nodup_append.1 hnd).2.2 t hc t mem_cons_self rfl
    rw [erase_append_right _ ht, erase_cons_head]
  have hrq := hr q pq hpq
  rw [hlist] at hrq
  obtain ⟨L', hL', hring, hframe⟩ := hrq.del (there s) (fun y hy => hl.isSome_owner hpq (hlist ▸ hy))
  refine ⟨L', hL', ?_, fun u pu huq hpu => (hr u pu hpu).congr fun y hy => hframe y fun hc => ?_⟩
  · rw [herase, map_append]
    exact hring
  · exact hl.disjoint hs hpu hpq huq hy (hlist ▸ hc)

/-- An exit goes through no link of a freed task. -/
private theorem exitLinks_spec (hr : Represents L s) (hl : Lists s) (hs : Inv s) (hx : Exited s s' t p) :
    ∃ L', exitLinks s L = some L' ∧ Represents L' s' := by
  -- after `remove_child`
  obtain ⟨L', hL', hring⟩ : ∃ L', removeChildLinks s t p L = some L' ∧ ∀ u pu, s.pcb u = some pu → Linked L' (.head u)
        ((if p.parent = some u then pu.children.erase t else pu.children).map .childLister) := by
    unfold removeChildLinks
    cases hpar : p.parent with
    | none => exact ⟨L, rfl, fun u pu hpu => by simpa using hr u pu hpu⟩
    | some q =>
      obtain ⟨pq, hpq, -⟩ := hs.parent (by simp [hs.terminated]) hx.pcb_eq hpar
      obtain ⟨L', hL', hq, hother⟩ := removeChild_links hr hl hs hx.pcb_eq hpar hpq
      refine ⟨L', hL', fun u pu hpu => ?_⟩
      by_cases hu : u = q
      · subst hu
        rw [hpq] at hpu
        rw [if_pos rfl, ← some.inj hpu]
        exact hq
      · rw [if_neg fun hc => hu (some.inj hc).symm]
        exact hother u pu hu hpu
  refine ⟨L', ?_, fun u pu' hpu' => ?_⟩
  · have hsub : ∀ c ∈ (if p.parent = some t then p.children.erase t else p.children), c ∈ p.children := by
      intro c hc
      split at hc
      · exact mem_of_mem_erase hc
      · exact hc
    have hlen : (if p.parent = some t then p.children.erase t else p.children).length ≤ s.numTasks := by
      refine Nat.le_trans ?_ (hl.length_le hs hx.pcb_eq)
      split
      · exact length_erase_le
      · exact Nat.le_refl _
    have hloop := (hring t p hx.pcb_eq).forEach (there s) (fun y hy => hl.isSome_owner hx.pcb_eq (by
        rcases mem_cons.1 hy with rfl | hy
        · exact mem_cons_self
        · obtain ⟨c, hc, rfl⟩ := List.mem_map.1 hy
          exact mem_cons_of_mem _ (List.mem_map.2 ⟨c, hsub c hc, rfl⟩)))
      (by rw [length_map]; exact Nat.lt_succ_of_le hlen)
    unfold exitLinks
    simp only [hx.current, hx.pcb_eq, bind_eq_bind, bind_some]
    rw [hL', bind_some, hloop]
    rfl
  · obtain ⟨-, pu, hpu, hch⟩ := hx.pcb_cases hpu'
    rw [hch]
    exact hring u pu hpu

/-- Forks are successful, and the daemon, an endless loop, neither sleeps nor exits. -/
def Successful (s : Sched) : Event → Prop
  | .fork env => ∀ t ∈ getCurrentTask s, ∀ p ∈ s.pcb t, env.Succeeds p ∧ s.noproc + 1 ≤ s.rlimitNproc
  | .exit | .sleep _ | .sleepTimer _ => getCurrentTask s ≠ some daemon
  | .yield | .wakeup _ | .tick | .setrlimit _ => True

instance (s : Sched) : ∀ e, Decidable (Successful s e)
  | .fork _ => inferInstanceAs (Decidable (∀ t ∈ getCurrentTask s, ∀ p ∈ s.pcb t, _ ∧ _))
  | .exit | .sleep _ | .sleepTimer _ => inferInstanceAs (Decidable (_ ≠ _))
  | .yield | .wakeup _ | .tick | .setrlimit _ => .isTrue trivial

private theorem Successful.allowed (h : Successful s e) (hs : Inv s) (hstep : step s e = some s') : Allowed s e := by
  cases e with
  | yield => trivial
  | fork env => exact h
  | exit =>
    intro t ht p hp
    exact ⟨fun hc => h (hc ▸ ht), wokenByExit_of_sysExit hs ht hp hstep⟩
  | sleep d => exact h
  | sleepTimer k => exact fun _ => h
  | wakeup d =>
    obtain ⟨r, hr, -⟩ := map_eq_some_iff.1 hstep
    exact length_waiting_le hr
  | tick =>
    obtain ⟨r, hr, -⟩ := map_eq_some_iff.1 hstep
    unfold sysWakeupQueue at hr
    dsimp only at hr
    split at hr
    · cases hr
    · rename_i hle
      exact Nat.le_of_not_lt hle
  | setrlimit n => trivial

structure FamilyInv (y : Family) : Prop where
  inv : Inv y.sched
  lists : Lists y.sched
  links : Represents y.links y.sched

/-- Each event keeps the tree. -/
private theorem FamilyInv.step (hy : FamilyInv y) (h : Successful y.sched e)
    (hstep : Scheduler.step y.sched e = some s') : ∃ y', y.step e = some y' ∧ y'.sched = s' ∧ FamilyInv y' := by
  have ha := h.allowed hy.inv hstep
  obtain ⟨s1, hs1, hinv, heff⟩ := step_spec hy.inv ha
  obtain rfl := some.inj (hs1.symm.trans hstep)
  cases e with
  | fork env =>
    cases heff with
    | moves hne _ _ => exact absurd rfl (hne env)
    | fork he hf =>
      obtain ⟨henv, -⟩ := ha _ hf.current _ hf.pcb_eq
      obtain ⟨L', hL', hr⟩ := forkLinks_spec hy.links hy.lists hy.inv hf henv
      refine ⟨⟨s1, L'⟩, ?_, rfl, hinv, hy.lists.fork hy.inv hf, hr⟩
      simp [Family.step, hL', hs1]
    | exit he _ => cases he
  | exit =>
    obtain ⟨s2, t, p, hs2, -, hx⟩ := exit_spec hy.inv ha
    obtain rfl : s2 = s1 := some.inj (hs2.symm.trans hs1)
    obtain ⟨L', hL', hr⟩ := exitLinks_spec hy.links hy.lists hy.inv hx
    refine ⟨⟨s2, L'⟩, ?_, rfl, hinv, hy.lists.exit hy.inv hx, hr⟩
    simp [Family.step, hL', hs1]
  | yield | sleep d | sleepTimer k | wakeup d | tick | setrlimit n =>
    cases heff with
    | moves _ hm _ =>
      refine ⟨⟨s1, y.links⟩, ?_, rfl, hinv, hy.lists.moves hm, hy.links.moves hm⟩
      simp [Family.step, hs1]
    | fork he _ => cases he
    | exit he _ => cases he

/-- Every run keeps the tree. -/
private theorem FamilyInv.run (hy : FamilyInv y) (hes : Permitted Scheduler.step Successful y.sched es)
    (hrun : Adix.run Scheduler.step y.sched es = some s') :
    ∃ y', Adix.run Family.step y es = some y' ∧ y'.sched = s' ∧ FamilyInv y' := by
  induction es generalizing y with
  | nil =>
    cases hrun
    exact ⟨y, rfl, rfl, hy⟩
  | cons e es ih =>
    obtain ⟨s1, h1, h2⟩ := bind_eq_some_iff.1 hrun
    obtain ⟨y1, hy1, rfl, hinv⟩ := hy.step hes.1 h1
    obtain ⟨y', hy', hs', hinv'⟩ := ih hinv (hes.2 y1.sched h1) h2
    exact ⟨y', by rw [Adix.run, hy1]; exact hy', hs', hinv'⟩

private theorem familyInv_start {around : Nat → Int} (hs : Start around s)
    (hch : ∀ u p, s.pcb u = some p → p.children = []) (memory : Links Node) : FamilyInv ⟨s, firstLinks memory⟩ where
  inv := hs.inv
  lists := ⟨fun hp => by simp [hch _ _ hp], fun hp hc => by simp [hch _ _ hp] at hc⟩
  links := by
    intro q pq hpq
    rw [hch q pq hpq]
    rcases hs.pids hpq with ⟨rfl, -⟩ | ⟨rfl, -⟩
    · refine (Linked.init memory (.head 0)).congr fun y hy => ?_
      obtain rfl : y = .head 0 := by simpa using hy
      exact ⟨rfl, rfl⟩
    · exact Linked.init (memory.init (.head 0)) (.head daemon)

/-- In every run of successful forks, exits and other events, the parent fields and the lists of children describe one
tree, and no exit goes through a PCB or a list head that has been freed. -/
theorem process_tree (around : Nat → Int) (cr3 : Nat) (sh d : Uninit) (memory : Links Node) :
    ∃ s₀, cooperativeSchedule (boot around) cr3 sh d = some s₀ ∧
      ∀ es s, Permitted step Successful s₀ es → run step s₀ es = some s →
        ∃ y, run Family.step ⟨s₀, firstLinks memory⟩ es = some y ∧ y.sched = s ∧ Tree s ∧ Represents y.links s := by
  obtain ⟨s₀, hs0, hstart⟩ := cooperativeSchedule_start around cr3 sh d
  refine ⟨s₀, hs0, fun es s hes hrun => ?_⟩
  obtain ⟨y, hy, rfl, hinv⟩ :=
    (familyInv_start hstart (fun _ _ => cooperativeSchedule_children hs0) memory).run hes hrun
  exact ⟨y, hy, rfl, hinv.inv.tree hinv.lists, hinv.links⟩

def zeroedLinks : Links Node := ⟨fun _ => none, fun _ => none⟩

def threeGenerations : List Event := [.yield, .fork plainFork, .fork plainFork, .yield, .yield, .fork plainFork,
  .exit, .exit, .yield, .yield, .exit]

theorem process_tree_generations : ∃ y s, run step plainStart threeGenerations = some s ∧
    run Family.step ⟨plainStart, firstLinks zeroedLinks⟩ threeGenerations = some y ∧ y.sched = s ∧ Tree s ∧
    Represents y.links s := by
  have hrun := at_plainStart (process_tree (fun _ => 0) 0x1000 zeroed zeroed zeroedLinks)
  have hsome : (run step plainStart threeGenerations).isSome = true := by decide +kernel
  obtain ⟨s, hs⟩ := isSome_iff_exists.1 hsome
  obtain ⟨y, hy⟩ := hrun threeGenerations s (by decide +kernel) hs
  exact ⟨y, s, hs, hy⟩

end Adix.Scheduler
