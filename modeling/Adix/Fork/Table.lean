import Adix.Fork.Level
import Adix.PageTable.SelfRef

/-!
# The page table of a child

A successful `cow_fork_page_table` translates every user address that the parent maps as the parent does. Any other
address is translated by what the pages for the copy contained before, as the lower levels are not cleared.
-/

namespace Adix.Fork

open PageTable PhysPages Radix List Option

variable {s s' u u' v : Mach} {parent child q L src dest d : Nat} {virt w : Word} {σ ρ : List Index} {i : Index}
  {P T : Nat → Prop} {r : Int}

def UserTable (m : Memory) (pml4 q : Nat) : Prop := ∃ σ, Below 4 σ ∧ walk entryFormat m pml4 σ = some q

/-- The table of the current process: its PML4 refers to itself, and the objects for user addresses are in use. -/
structure Current (s : Mach) (pml4 : Nat) : Prop where
  self : SelfRef s pml4
  table : ∀ q, UserTable s.mem pml4 q → q ≠ 0 ∧ ¬ Free s q
  free : ∀ q, Free s q → PageAddr q
  listed : Listed s.pages

def selfEntry (pml4 : Nat) : Word :=
  pageTransNextLevelAddr (BitVec.ofNat 64 pml4) ||| pageTransPresent ||| pageTransReadWrite

/-- What the pages of the copy contain before they are filled: the PML4 is cleared, the others are as they were. -/
def startMem (m : Memory) (child : Nat) : Memory := fun q j =>
  if q = child then if j = selfRefEntry then selfEntry child else 0 else m q j

structure ForkedTable (s : Mach) (parent : Nat) (s' : Mach) (child : Nat) : Prop where
  page : child = 0 ∨ Taken s s' child
  listed : Listed s'.pages
  base_eq : s'.base = s.base
  free_sub : ∀ q, Free s' q → Free s q
  lowered : ∀ q, q ≠ child → (Free s q → Free s' q) → ∀ j, Lowered (s.mem q j) (s'.mem q j)
  kept : ∀ q, q ≠ child → ¬ UserTable s.mem parent q → (Free s q → Free s' q) → s'.mem q = s.mem q
  copy : CopyOf 4 (startMem s.mem child) s'.mem (fun q => q = child ∨ Taken s s' q) parent child
  self : s'.mem child selfRefEntry = selfEntry child
  kernel : if entryFormat.present (s.mem parent pml4KernelEntry) then
      Lowered (s.mem parent pml4KernelEntry) (s'.mem child pml4KernelEntry)
    else s'.mem child pml4KernelEntry = 0
  count : child ≠ 0 → Counted 4 s parent (fun _ => True) → Recount (Maps 4 s.mem parent (fun _ => True)) s s'

structure Made (s : Mach) (child : Nat) (u : Mach) : Prop where
  mem_eq : u.mem = startMem s.mem child
  base_eq : u.base = s.base
  listed : Listed u.pages
  free_iff : ∀ q, Free u q ↔ Free s q ∧ q ≠ child
  page : child = 0 ∨ Free s child ∧ Allocated s.pages 1 u.pages child

/-- The new PML4 is a page of the free list, cleared but for its self reference. -/
theorem getSelfrefPml4_spec (hl : Listed s.pages) (h : getSelfrefPml4 s = (u, some child)) : Made s child u := by
  have hz := getZeroed_spec hl
  unfold getSelfrefPml4 at h
  dsimp only at h
  split at h
  · cases (Prod.mk.inj h).2
  · obtain ⟨rfl, hchild⟩ := Prod.mk.inj h
    rw [some.inj hchild] at hz ⊢
    refine ⟨?_, hz.base_eq, hz.listed, hz.free_iff, ?_⟩
    · funext q j
      rw [Mach.store_mem, hz.mem_eq]
      unfold startMem
      by_cases hq : q = child
      · simp only [hq, true_and, if_true]
        rfl
      · simp only [hq, false_and, if_false]
    · obtain ⟨h0, -⟩ | ⟨-, hf, -, hal⟩ := hz.page
      · exact .inl h0
      · exact .inr ⟨hf, hal⟩

section Call

variable (hc : Current s parent) (hm : Made s child u)
include hc hm

private theorem Made.ne (hq : UserTable s.mem parent q) : q ≠ child := by
  rintro rfl
  rcases hm.page with h0 | ⟨hf, -⟩
  · exact (hc.table q hq).1 h0
  · exact (hc.table q hq).2 hf

omit hc in
private theorem Made.other (hq : q ≠ child) : u.mem q = s.mem q := by
  rw [hm.mem_eq]
  funext j
  exact if_neg hq

private theorem Made.walk_self : hardwareWalk u parent selfRefPml4 = some parent := by
  rw [show selfRefPml4 = selfRefPml4e 0 by decide]
  exact hardwareWalk_pml4e (hc.self.congr (congrFun (hm.other (hm.ne hc ⟨[], Below.nil, rfl⟩)) _)) 0

private theorem Made.low : Lowers (UserTable s.mem parent) s.mem u.mem := by
  intro q hq j
  rw [hm.other (hm.ne hc hq)]
  exact Lowered.refl _

omit hc hm in
private theorem tablesIn_userTable : TablesIn 4 s.mem parent (UserTable s.mem parent) := fun σ _ hσ hq => ⟨σ, hσ, hq⟩

private theorem Made.source : Source 3 (UserTable s.mem parent) parent child u where
  listed := hm.listed
  free q hq := hc.free q ((hm.free_iff q).1 hq).1
  source q hq := ⟨fun h => (hc.table q hq).2 ((hm.free_iff q).1 h).1, hm.ne hc hq⟩
  dest h := ((hm.free_iff child).1 h).2 rfl
  root := ⟨[], Below.nil, rfl⟩
  tables := tablesIn_userTable.lowered (hm.low hc)
  level := by decide

private theorem Made.forked (hf : Forked 3 (UserTable s.mem parent) parent child u s') :
    ForkedTable s parent s' child := by
  have hnot : ¬ Free s' child := fun h => (hm.source hc).dest (hf.frame.free_sub child h)
  have hsub : ∀ {q}, (Free s q → Free s' q) → Free u q → Free s' q := fun h hu => h ((hm.free_iff _).1 hu).1
  have hpne : parent ≠ child := hm.ne hc ⟨[], Below.nil, rfl⟩
  refine
    { page := hm.page.imp_right fun h => ⟨h.1, hnot⟩
      listed := hf.frame.listed
      base_eq := hf.frame.base_eq.trans hm.base_eq
      free_sub := fun q hq => ((hm.free_iff q).1 (hf.frame.free_sub q hq)).1
      lowered := ?_
      kept := ?_
      copy := ?_
      self := ?_
      kernel := ?_
      count := ?_ }
  · intro q hq hfree j
    rw [← hm.other hq]
    exact hf.frame.lowered q hq (hsub hfree) j
  · intro q hq hT hfree
    rw [hf.frame.kept q hq hT (hsub hfree), hm.other hq]
  · have htables := (hm.source hc).tables.lowered (hf.frame.source (hm.source hc).toReady)
    refine hf.copy.mono htables .refl (fun _ _ => rfl) (fun q _ => by rw [hm.mem_eq]) ?_
    rintro q (rfl | hq)
    · exact .inl rfl
    · exact .inr ⟨((hm.free_iff q).1 hq.1).1, hq.2⟩
  · rw [hf.self rfl, hm.mem_eq]
    unfold startMem
    rw [if_pos rfl, if_pos rfl]
  · rw [← hm.other hpne]
    split
    · rename_i hp
      exact hf.kernel rfl hp
    · rename_i hp
      rw [hf.absent _ (Bool.of_not_eq_true hp), hm.mem_eq]
      unfold startMem
      rw [if_pos rfl, if_neg (by decide)]
  · intro h0 hcount
    obtain ⟨-, hal⟩ := hm.page.resolve_left h0
    have hcu := hcount.lowered tablesIn_userTable (hm.low hc) (Recount.alloc hal hcount.inv) fun _ _ h => h
    have hmaps : ∀ f, Maps 4 u.mem parent (fun _ => True) f ↔ Maps 4 s.mem parent (fun _ => True) f :=
      fun f => maps_lowered tablesIn_userTable (hm.low hc)
    refine ((hf.count hcu).after hal hcount.inv hf.frame.free_sub fun f hf => ?_).congr fun f => (hmaps f).symm
    exact ⟨hf.aligned, hcount.not_free ((hmaps f).1 hf)⟩

end Call

/-- A call of `cow_fork_page_table` that succeeds makes a copy of the table of the parent. -/
theorem cowForkPageTable_spec (hc : Current s parent) (h : cowForkPageTable s parent = some (s', some child)) :
    ForkedTable s parent s' child := by
  unfold cowForkPageTable at h
  split at h
  · cases (Prod.mk.inj (some.inj h)).2
  · rename_i u pml4 hu
    have hm := getSelfrefPml4_spec hc.listed hu
    rw [hm.walk_self hc, map_some] at h
    rcases hlevel : cowForkLevel 4 u parent pml4 with ⟨u', r⟩
    rw [hlevel] at h
    dsimp only at h
    split at h
    · cases (Prod.mk.inj (some.inj h)).2
    · rename_i hr
      obtain ⟨rfl, hchild⟩ := Prod.mk.inj (some.inj h)
      cases hchild
      exact hm.forked hc (cowForkLevel_spec (hm.source hc) hlevel hr)

def pagePath (virt : Word) : List Index := tablePath virt ++ [indexPte virt]

/-- At the entry where the walk of the parent ends, the page of the child had a word which leads to no page. -/
def Quiet (s s' : Mach) (parent child : Nat) (virt : Word) : Prop :=
  ∀ σ i ρ t d, pagePath virt = σ ++ i :: ρ → walk entryFormat s'.mem parent σ = some t →
    entryFormat.present (s'.mem t i) = false → walk entryFormat s'.mem child σ = some d →
    read entryFormat s'.mem (startMem s.mem child d i) ρ = none

/-- The child translates the address as the parent does, for reading only. -/
structure Agrees (m : Memory) (parent child : Nat) (virt : Word) : Prop where
  leaf_eq : leaf m child virt = leaf m parent virt
  readOnly : ∀ e ∈ leaf m child virt, e &&& pageTransReadWrite = 0
  access : ∀ σ i ρ, pagePath virt = σ ++ i :: ρ → (leaf m parent virt).isSome →
    (word entryFormat m child σ i).map accessBits = (word entryFormat m parent σ i).map accessBits

theorem below_pagePath (hv : UserSlot (indexPml4e virt)) (h : pagePath virt = σ ++ i :: ρ) :
    Below 4 σ ∧ Slots 4 (σ ++ [i]) := by
  have hlen := congrArg List.length h
  have hslots : Slots 4 (σ ++ [i]) := by
    intro _ k hk
    have hhead : (pagePath virt).head? = some k := by
      rw [h]
      cases σ with
      | nil => exact hk
      | cons k' σ => exact hk
    obtain rfl : indexPml4e virt = k := some.inj hhead
    exact hv
  refine ⟨⟨?_, hslots.left⟩, hslots⟩
  simp only [pagePath, tablePath, length_append, length_cons, length_nil] at hlen
  omega

/-- Where the parent maps a page, the child maps it too. -/
theorem ForkedTable.agrees (h : ForkedTable s parent s' child) (hv : UserSlot (indexPml4e virt)) {e : Word}
    (he : leaf s'.mem parent virt = some e) : Agrees s'.mem parent child virt := by
  obtain ⟨hlast, hslots⟩ := below_pagePath (ρ := []) hv rfl
  obtain ⟨t, ht, rfl, hp⟩ := lookup_eq_some.1 (id he)
  obtain ⟨d, hd, -, hrow⟩ := h.copy.node _ t hlast ht
  obtain ⟨hpage, hro⟩ := hrow.page rfl _ hslots hp
  have hleaf : leaf s'.mem child virt = some (s'.mem t (indexPte virt)) := lookup_eq_some.2 ⟨d, hd, hpage, hp⟩
  refine ⟨hleaf.trans he.symm, ?_, ?_⟩
  · intro e' he'
    cases hleaf.symm.trans he'
    rw [← hro]
    exact clearRW_and_readWrite
  · intro σ i ρ hpath _
    obtain ⟨hσ, hslots'⟩ := below_pagePath hv hpath
    obtain ⟨t', ht', hp'⟩ := lookup_passes hpath he
    obtain ⟨d', hd', -, hrow'⟩ := h.copy.node σ t' hσ ht'
    unfold word
    rw [hd', ht', map_some, map_some, map_some, map_some, hrow'.access i hslots' hp']

/-- Where the walk of the parent ends, that of the child goes on with the word left over. -/
theorem ForkedTable.leaf_old (h : ForkedTable s parent s' child) (hv : UserSlot (indexPml4e virt))
    {t : Nat} (hpath : pagePath virt = σ ++ i :: ρ) (ht : walk entryFormat s'.mem parent σ = some t)
    (hp : entryFormat.present (s'.mem t i) = false) (hd : walk entryFormat s'.mem child σ = some d) :
    leaf s'.mem child virt = read entryFormat s'.mem (startMem s.mem child d i) ρ := by
  obtain ⟨hσ, hslots⟩ := below_pagePath hv hpath
  obtain ⟨d', hd', -, hrow⟩ := h.copy.node σ t hσ ht
  cases hd.symm.trans hd'
  rw [← hrow.old i hslots hp]
  exact lookup_split hpath hd

/-- The child translates an address as the parent does exactly when no word left over leads on. -/
theorem ForkedTable.agrees_iff (hf : ForkedTable s parent s' child) (hv : UserSlot (indexPml4e virt)) :
    Agrees s'.mem parent child virt ↔ Quiet s s' parent child virt := by
  cases he : leaf s'.mem parent virt with
  | some e =>
    refine ⟨fun _ σ i ρ t d hpath ht hp => ?_, fun _ => hf.agrees hv he⟩
    -- the walk of the parent passes the entry
    obtain ⟨t', ht', hp'⟩ := lookup_passes hpath he
    cases ht.symm.trans ht'
    rw [hp'] at hp
    cases hp
  | none =>
    constructor
    · intro ha σ i ρ t d hpath ht hp hd
      rw [← hf.leaf_old hv hpath ht hp hd, ha.leaf_eq, he]
    · intro hq
      obtain ⟨σ, j, ρ, t, hpath, ht, hp⟩ := lookup_eq_none he
      obtain ⟨d, hd, -⟩ := hf.copy.node σ t (below_pagePath hv hpath).1 ht
      have hnone : leaf s'.mem child virt = none := by
        rw [hf.leaf_old hv hpath ht hp hd]
        exact hq σ j ρ t d hpath ht hp hd
      refine ⟨hnone.trans he.symm, fun e he' => ?_, fun _ _ _ _ hsome => ?_⟩
      · rw [hnone] at he'
        cases he'
      · rw [he] at hsome
        cases hsome

/-- Two machines with the same allocator, which agree on the pages `P`. -/
structure AgreeOn (P : Nat → Prop) (s s' : Mach) : Prop where
  pages_eq : s'.pages = s.pages
  base_eq : s'.base = s.base
  mem_eq : ∀ q, P q → s'.mem q = s.mem q

namespace AgreeOn

variable (h : AgreeOn P s s')
include h

private theorem store (q : Nat) (i : Index) (w : Word) : AgreeOn P (s.store q i w) (s'.store q i w) := by
  refine ⟨h.pages_eq, h.base_eq, fun q' hq' => funext fun j => ?_⟩
  rw [Mach.store_mem, Mach.store_mem, h.mem_eq q' hq']

private theorem setPages (pages : Pages) : AgreeOn P { s with pages := pages } { s' with pages := pages } :=
  ⟨rfl, h.base_eq, h.mem_eq⟩

private theorem allocPage (ha : s.allocPage = (u, d)) : ∃ u', s'.allocPage = (u', d) ∧ AgreeOn P u u' := by
  unfold Mach.allocPage at ha ⊢
  cases ha
  rw [h.pages_eq]
  exact ⟨_, rfl, h.setPages _⟩

private theorem sharePage (hsrc : P src) (he : sharePage src dest i s = (u, r)) :
    ∃ u', Fork.sharePage src dest i s' = (u', r) ∧ AgreeOn P u u' := by
  have hstore := (h.store src i (clearRW (s.mem src i))).store dest i (clearRW (s.mem src i))
  unfold Fork.sharePage at he ⊢
  rw [h.mem_eq src hsrc]
  dsimp only at he ⊢
  rw [hstore.pages_eq]
  cases hd : getPhysPageDesc ((s.store src i (clearRW (s.mem src i))).store dest i (clearRW (s.mem src i))).pages
      (entryFormat.next (clearRW (s.mem src i))) with
  | none =>
    rw [hd] at he
    cases he
    exact ⟨_, rfl, hstore⟩
  | some _ =>
    rw [hd] at he
    cases he
    exact ⟨_, rfl, hstore.setPages _⟩

end AgreeOn

section Levels

variable (hT : ∀ q, T q → P q)
include hT

private theorem AgreeOn.forkEntry (ih : ∀ {K : Nat}, L = K + 1 → ∀ {u u' v : Mach} {src dest : Nat} {r : Int},
      Source K T src dest u → cowForkLevel (K + 1) u src dest = (v, r) → r ≠ -1 → AgreeOn P u u' →
      ∃ v', cowForkLevel (K + 1) u' src dest = (v', r) ∧ AgreeOn P v v')
    (hs : Source L T src dest u) (he : forkEntry (L + 1) (cowForkLevel L) src dest i u = (v, r)) (hr : r ≠ -1)
    (h : AgreeOn P u u') : ∃ v', Fork.forkEntry (L + 1) (cowForkLevel L) src dest i u' = (v', r) ∧ AgreeOn P v v' := by
  have hsrc := h.mem_eq src (hT src hs.root)
  unfold Fork.forkEntry at he ⊢
  rw [hsrc]
  by_cases hp : u.mem src i &&& pageTransPresent = 0
  · rw [if_pos hp] at he ⊢
    cases he
    exact ⟨u', rfl, h⟩
  rw [if_neg hp] at he ⊢
  have hpresent := Bool.of_not_eq_false (mt not_present_iff.2 hp)
  cases L with
  | zero => exact h.sharePage (hT src hs.root) he
  | succ L =>
    rw [if_neg (by omega)] at he ⊢
    unfold copyTable at he ⊢
    rw [hsrc]
    by_cases hk : L + 1 + 1 = 4 ∧ i = pml4KernelEntry
    · rw [if_pos hk] at he ⊢
      cases he
      exact ⟨_, rfl, h.store dest i _⟩
    rw [if_neg hk] at he ⊢
    by_cases hself : L + 1 + 1 = 4 ∧ i = selfRefEntry
    · rw [if_pos hself] at he ⊢
      cases he
      exact ⟨u', rfl, h⟩
    rw [if_neg hself] at he ⊢
    rcases allocPage_cases hs.listed with h0 | ⟨u1, d, hal, ht⟩
    · rw [h0] at he
      exact absurd (Prod.mk.inj he).2.symm hr
    obtain ⟨u1', hal', h1⟩ := h.allocPage hal
    rw [hal] at he
    rw [hal']
    dsimp only at he ⊢
    rw [if_neg ht.allocated.ne_zero] at he ⊢
    exact ih rfl (hs.below (slots_of_ne hk hself) hpresent ht _) he hr (h1.store _ _ _)

omit hT in
private theorem AgreeOn.forEach {l : List Index}
      (hround : ∀ {u u' v : Mach} {i : Index} {r : Int}, Source L T src dest u →
      Fork.forkEntry (L + 1) (cowForkLevel L) src dest i u = (v, r) → r ≠ -1 → AgreeOn P u u' →
      ∃ v', Fork.forkEntry (L + 1) (cowForkLevel L) src dest i u' = (v', r) ∧ AgreeOn P v v')
    (hs : Source L T src dest u)
    (he : Loop.forEach (-1) 0 (Fork.forkEntry (L + 1) (cowForkLevel L) src dest) l u = (v, r)) (hr : r ≠ -1)
    (h : AgreeOn P u u') :
    ∃ v', Loop.forEach (-1) 0 (Fork.forkEntry (L + 1) (cowForkLevel L) src dest) l u' = (v', r) ∧ AgreeOn P v v' := by
  induction l generalizing u u' with
  | nil =>
    cases he
    exact ⟨u', rfl, h⟩
  | cons i l ih =>
    unfold Loop.forEach at he ⊢
    rcases hbody : Fork.forkEntry (L + 1) (cowForkLevel L) src dest i u with ⟨u1, r1⟩
    rw [hbody] at he
    dsimp only at he
    by_cases hbad : r1 = -1
    · rw [if_pos hbad] at he
      exact absurd (Prod.mk.inj he).2.symm hr
    rw [if_neg hbad] at he
    obtain ⟨u1', hu1', h1⟩ := hround hs hbody hbad h
    rw [hu1']
    dsimp only
    rw [if_neg hbad]
    exact ih (hs.frame (forkEntry_round hs hbody hbad).frame) he h1

private theorem AgreeOn.cowForkLevel : ∀ {L : Nat} {u u' v : Mach} {src dest : Nat} {r : Int}, Source L T src dest u →
    cowForkLevel (L + 1) u src dest = (v, r) → r ≠ -1 → AgreeOn P u u' →
    ∃ v', Fork.cowForkLevel (L + 1) u' src dest = (v', r) ∧ AgreeOn P v v' := by
  intro L
  induction L with
  | zero =>
    intro u u' v src dest r hs he hr h
    exact AgreeOn.forEach (AgreeOn.forkEntry hT nofun) hs he hr h
  | succ L ih =>
    intro u u' v src dest r hs he hr h
    refine AgreeOn.forEach (AgreeOn.forkEntry hT fun hK => ?_) hs he hr h
    obtain rfl := Nat.succ.inj hK
    exact ih

end Levels

private theorem AgreeOn.getSelfrefPml4 (h : AgreeOn P s s') (he : getSelfrefPml4 s = (u, some child)) :
    ∃ u', Fork.getSelfrefPml4 s' = (u', some child) ∧ AgreeOn (fun q => P q ∨ q = child) u u' := by
  unfold Fork.getSelfrefPml4 getZeroedPageTransObj at he ⊢
  rcases hal : s.allocPage with ⟨s1, z⟩
  obtain ⟨s1', hal', h1⟩ := h.allocPage hal
  rw [hal] at he
  rw [hal']
  dsimp only at he ⊢
  have hbase : (s1'.zero z).virtualAddr z = (s1.zero z).virtualAddr z := by
    show _ + s1'.base = _ + s1.base
    rw [h1.base_eq]
  rw [hbase]
  split at he
  · cases (Prod.mk.inj he).2
  · rename_i hne
    obtain ⟨rfl, hz⟩ := Prod.mk.inj he
    obtain rfl := some.inj hz
    rw [if_neg hne]
    have hzero : AgreeOn (fun q => P q ∨ q = z) (s1.zero z) (s1'.zero z) := by
      refine ⟨h1.pages_eq, h1.base_eq, fun q hq => funext fun j => ?_⟩
      show (if q = z then 0 else s1'.mem q j) = if q = z then 0 else s1.mem q j
      by_cases hqz : q = z
      · rw [if_pos hqz, if_pos hqz]
      · rw [if_neg hqz, if_neg hqz, h1.mem_eq q (hq.resolve_right hqz)]
    exact ⟨_, rfl, hzero.store _ _ _⟩

/-- If two machines agree on the tables of the process, the fork does the same on both. -/
theorem AgreeOn.cowForkPageTable (h : AgreeOn P s s') (hc : Current s parent) (hc' : Current s' parent)
    (hP : ∀ q, UserTable s.mem parent q → P q) (hf : cowForkPageTable s parent = some (v, some child)) :
    ∃ v', Fork.cowForkPageTable s' parent = some (v', some child) ∧ AgreeOn (fun q => P q ∨ q = child) v v' := by
  unfold Fork.cowForkPageTable at hf ⊢
  rcases hu : Fork.getSelfrefPml4 s with ⟨u, _ | pml4⟩
  · rw [hu] at hf
    cases (Prod.mk.inj (some.inj hf)).2
  obtain ⟨u', hu', h1⟩ := h.getSelfrefPml4 hu
  have hm := getSelfrefPml4_spec hc.listed hu
  have hm' := getSelfrefPml4_spec hc'.listed hu'
  rw [hu] at hf
  rw [hu']
  dsimp only at hf ⊢
  rw [hm.walk_self hc, map_some] at hf
  rw [hm'.walk_self hc', map_some]
  rcases hlevel : Fork.cowForkLevel 4 u parent pml4 with ⟨u1, r⟩
  rw [hlevel] at hf
  split at hf
  · cases (Prod.mk.inj (some.inj hf)).2
  · rename_i hr
    obtain ⟨rfl, hchild⟩ := Prod.mk.inj (some.inj hf)
    cases hchild
    obtain ⟨v', hv', h'⟩ := AgreeOn.cowForkLevel (fun q hq => .inl (hP q hq)) (hm.source hc) hlevel hr h1
    rw [hv']
    rw [if_neg hr]
    exact ⟨v', rfl, h'⟩

end Adix.Fork
