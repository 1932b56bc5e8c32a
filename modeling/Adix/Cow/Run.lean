import Adix.Cow.Fault
import Adix.Cow.Fork

/-!
# Runs of processes that share memory

The processes read and write, fault and fork, in any order, and each event is a step of the machine that shares frames.
So along every run the count of a frame is the number of entries that map it, and the processes see what they would see
if each fork had copied all pages.
-/

namespace Adix.Cow

open PageTable PhysPages Fork List Option

/-- What a process does: it reads or writes a byte, has a page fault with an error code, or forks. -/
inductive Event where
  | read (p : Nat) (addr : Word)
  | write (p : Nat) (addr : Word) (b : BitVec 8)
  | fault (p : Nat) (addr errCode : Word) (env : Env)
  | fork (p : Nat)

def roots (y : Sys) : List Nat := y.procs.map (·.pml4)

def Sys.sharing (y : Sys) : Sharing.State Place Nat (Index → Word) := abs y.mach (roots y)

def step (y : Sys) : Event → Option Sys
  | .read p addr => y.procs[p]?.bind fun proc => (userRead y.mach proc.pml4 addr).map fun _ => y
  | .write p addr b => y.procs[p]?.bind fun proc =>
      (userWrite y.mach proc.pml4 addr b).map fun s => { y with mach := s }
  | .fault p addr errCode env => (pageFaultHandler y p env addr errCode).bind fun (y', ret) =>
      match ret with
      | .value _ => some y'
      | .exit => none
  | .fork p => forkProc y p

/-- The hardware raises a fault with the error code where it finds this entry: the page is not present, or it is written
and the entry does not allow that. -/
def Raised (errCode : Word) : Option Word → Prop
  | none => errCode &&& pfErrorCodeP = 0
  | some e => errCode &&& pfErrorCodeP ≠ 0 ∧ errCode &&& pfErrorCodeW ≠ 0 ∧
      (writeBit e = false ∨ errCode &&& pfErrorCodeU ≠ 0 ∧ userBit e = false)

instance (errCode : Word) : ∀ o, Decidable (Raised errCode o)
  | none => inferInstanceAs (Decidable (_ = _))
  | some _ => inferInstanceAs (Decidable (_ ∧ _))

/-- The events considered: accesses to user addresses as the hardware allows them, faults as it raises them while no
process ends and memory does not run out, and forks that succeed with pages which were zero. -/
def Allowed (y : Sys) : Event → Prop
  | .read p addr => UserSlot (indexPml4e addr) ∧ ∃ proc b, y.procs[p]? = some proc ∧
      userRead y.mach proc.pml4 addr = some b
  | .write p addr b => UserSlot (indexPml4e addr) ∧ ∃ proc s, y.procs[p]? = some proc ∧
      userWrite y.mach proc.pml4 addr b = some s
  | .fault p addr errCode env => UserSlot (indexPml4e addr) ∧ ∃ proc, y.procs[p]? = some proc ∧
      Raised errCode (hardwareLeaf y.mach.mem proc.pml4 addr) ∧
        (∀ y', pageFaultHandler y p env addr errCode ≠ some (y', .exit)) ∧
      (errCode &&& pfErrorCodeP = 0 → missing y.mach.mem proc.pml4 addr + 1 ≤ freeCount y.mach.pages)
  | .fork p => ∃ proc s' child, y.procs[p]? = some proc ∧ cowForkPageTable y.mach proc.pml4 = some (s', some child) ∧
      child ≠ 0 ∧ ∀ q, Taken y.mach s' q → q ≠ child → ∀ j, y.mach.mem q j = 0

def pageOf (y : Sys) (p : Nat) (addr : Word) : Option (Index → Word) :=
  y.procs[p]?.bind fun proc => (hardwareLeaf y.mach.mem proc.pml4 addr).map fun e => y.mach.mem (hardwareFormat.next e)

/-- What an event that leads to `y'` does to the memory of the processes: a fault for a page that is not present
provides a page, other faults do nothing. -/
def label (y' : Sys) : Event → Sharing.Label Place (Index → Word)
  | .read _ _ => .silent
  | .write p addr b => .write p (placeOf addr) (setPageByte addr b)
  | .fault p addr errCode _ =>
      if errCode &&& pfErrorCodeP = 0 then ((pageOf y' p addr).map fun c => .demand p (placeOf addr) c).getD .silent
      else .silent
  | .fork p => .fork p

/-- The same events on the machine that copies all pages of a process when it forks. -/
def eagerRun : Sys → List Event → Sharing.Eager Place (Index → Word) → Sharing.Eager Place (Index → Word)
  | _, [], m => m
  | y, e :: es, m =>
    match step y e with
    | none => m
    | some y' => eagerRun y' es (m.step (label y' e))

def eagerByte (m : Sharing.Eager Place (Index → Word)) (p : Nat) (addr : Word) : Option (BitVec 8) :=
  (m.mem p (placeOf addr)).map fun c => getByte (c (indexWord addr)) (addr.toNat % 8)

/-- The processes at the start: their tables are well-formed, and each frame that is mapped is mapped by one entry and
counted once. -/
structure Start (y : Sys) : Prop where
  pages : Inv y.mach.pages
  wf : WellFormed UserSlot y.mach (· ∈ roots y)
  nodup : (roots y).Nodup
  self : ∀ r ∈ roots y, SelfRef y.mach r
  described : ∀ r ∈ roots y, ∃ d, desc y.mach.pages r = some d
  frame : ∀ f, y.sharing.Uses f → f < 2 ^ 51 ∧ ¬ Table y.mach (roots y) f
  single : ∀ {p q x z f w w'}, y.sharing.map p x = some (f, w) → y.sharing.map q z = some (f, w') → p = q ∧ x = z
  counted : ∀ f, y.sharing.Uses f → refcount y.mach.pages f = some 1

variable {y y' y₀ : Sys} {p f q r : Nat} {proc : Proc} {addr err : Word} {e : Event} {es : List Event} {s : Mach}
  {b : BitVec 8} {env : Env}

/-- The start is a good state. -/
theorem Start.good (h : Start y) : Good y.mach (roots y) := by
  have hcount : ∀ f, y.sharing.Uses f → y.sharing.count f = 1 := by
    intro f hf
    obtain ⟨d, hd, h1⟩ := map_eq_some_iff.1 (h.counted f hf)
    refine (abs_count hd).trans ?_
    rw [h1]
    rfl
  refine ⟨h.pages, h.wf, h.nodup, h.self, h.described, h.frame, ⟨?_, fun h1 h2 => (h.single h1 h2).2, ?_, ?_⟩⟩
  · rintro p x ⟨f, w⟩ hx
    obtain ⟨r, -, hr, -⟩ := mapping_eq_some.1 hx
    exact (List.getElem?_eq_some_iff.1 hr).1
  · intro f hf
    rw [show (abs y.mach (roots y)).count f = 1 from hcount f hf]
    obtain ⟨p, x, w, hx⟩ := hf
    have hone : (abs y.mach (roots y)).owners f = {(p, x)} := by
      ext ⟨q, z⟩
      constructor
      · rintro ⟨w', hz⟩
        obtain ⟨rfl, rfl⟩ := h.single hx hz
        rfl
      · rintro ⟨⟩
        exact ⟨w, hx⟩
    rw [hone, Set.ncard_singleton]
  · intro f hf hlt
    rw [show (abs y.mach (roots y)).count f = 1 from hcount f hf] at hlt
    exact absurd hlt (Nat.lt_irrefl 1)

theorem roots_set (hp : y.procs[p]? = some proc) (l : List Vma.VmArea) :
    (y.procs.set p { proc with mmap := l }).map (·.pml4) = roots y := by
  unfold roots
  rw [map_set]
  refine ext_getElem? fun k => ?_
  rw [getElem?_set]
  split
  · rename_i hk
    subst hk
    rw [if_pos (by rw [length_map]; exact (List.getElem?_eq_some_iff.1 hp).1), getElem?_map, hp]
    rfl
  · rfl

theorem roots_getElem (hp : y.procs[p]? = some proc) : (roots y)[p]? = some proc.pml4 := by
  unfold roots
  rw [getElem?_map, hp]
  rfl

/-- The hardware finds the leaf entry that the kernel has written. -/
theorem hardwareLeaf_eq_leaf {K : Index → Prop} (hw : WellFormed K s (· = r))
    (hv : K (indexPml4e addr)) : hardwareLeaf s.mem r addr = leaf s.mem r addr := by
  unfold hardwareLeaf leaf Radix.lookup Radix.word
  rw [hardware_walk_eq hw (tablePath_ok hv)]
  rfl

theorem hardwareLeaf_eq {rs : List Nat} (h : Good s rs) (hr : r ∈ rs)
    (hv : UserSlot (indexPml4e addr)) : hardwareLeaf s.mem r addr = leaf s.mem r addr :=
  hardwareLeaf_eq_leaf (h.wf.mono fun _ he => he ▸ hr) hv

theorem hardware_next {w : Word} (h : entryFormat.next w < 2 ^ 51) : hardwareFormat.next w = entryFormat.next w := by
  show (pageTransNextLevelAddr w).toNat = (entryAddr w).toNat
  rw [entryAddr_eq (signBit_of_next_lt h)]

section Good

variable (h : Good y.mach (roots y)) (hv : UserSlot (indexPml4e addr))
include h hv

private theorem pageOf_eq : pageOf y p addr = y.sharing.view.mem p (placeOf addr) := by
  show _ = (mapping y.mach (roots y) p (placeOf addr)).map fun x => y.mach.mem x.1
  unfold pageOf
  cases hp : y.procs[p]? with
  | none =>
    have hr : (roots y)[p]? = none := by
      unfold roots
      rw [getElem?_map, hp]
      rfl
    unfold mapping
    rw [hr]
    rfl
  | some proc =>
    have hr := roots_getElem hp
    rw [bind_some, hardwareLeaf_eq h (mem_of_getElem? hr) hv, mapping_placeOf hr hv]
    cases he : leaf y.mach.mem proc.pml4 addr with
    | none => rfl
    | some e =>
      rw [map_some, map_some, map_some, hardware_next (h.frame _ (.of_map (map_of_leaf hr hv he))).1]

private theorem userRead_eq (hp : y.procs[p]? = some proc) : userRead y.mach proc.pml4 addr =
    (leaf y.mach.mem proc.pml4 addr).bind fun w =>
      if userBit w then (pageOf y p addr).map fun c => getByte (c (indexWord addr)) (addr.toNat % 8) else none := by
  unfold userRead pageOf
  rw [hp, bind_some, hardwareLeaf_eq h (mem_of_getElem? (roots_getElem hp)) hv]
  cases leaf y.mach.mem proc.pml4 addr with
  | none => rfl
  | some w => rfl

/-- A write that the hardware allows changes one page of one process. -/
theorem write_spec (hp : y.procs[p]? = some proc)
    (hs : userWrite y.mach proc.pml4 addr b = some s) : Kept (roots y) y.mach s ∧
      Sharing.Step y.sharing (abs s (roots y)) (.write p (placeOf addr) (setPageByte addr b)) := by
  have hr := roots_getElem hp
  unfold userWrite at hs
  rw [hardwareLeaf_eq h (mem_of_getElem? hr) hv] at hs
  obtain ⟨w, hw, hs⟩ := bind_eq_some_iff.1 hs
  split at hs
  · rename_i hbits
    rw [Bool.and_eq_true] at hbits
    have hmap : y.sharing.map p (placeOf addr) = some (entryFormat.next w, writeBit w) := map_of_leaf hr hv hw
    obtain ⟨hlt, hnot⟩ := h.frame _ (.of_map hmap)
    rw [hardware_next hlt] at hs
    have hmem : ∀ q, s.mem q = if q = entryFormat.next w then setPageByte addr b (y.mach.mem q) else y.mach.mem q := by
      intro q
      rw [← some.inj hs]
    have hpages : s.pages = y.mach.pages := by rw [← some.inj hs]
    have hk : Kept (roots y) y.mach s := by
      refine ⟨fun q hq => ?_, fun q _ => by rw [hpages], by rw [← some.inj hs], fun q hq => ?_, ?_⟩
      · rw [hmem, if_neg]
        rintro rfl
        exact hnot hq
      · unfold Free at hq
        rw [hpages] at hq
        exact hq
      · rw [hpages]
        exact h.pages
    rw [hbits.2] at hmap
    refine ⟨hk, .write hmap rfl (fun _ _ => hk.mapping_eq) (fun g _ => ?_) ?_ fun g _ hg => ?_⟩
    · show ((desc s.pages g).map _).getD 0 = _ ∧ ((∃ d ∈ desc s.pages g, _) ↔ _)
      rw [hpages]
      exact ⟨rfl, Iff.rfl⟩
    · exact (hmem _).trans (if_pos rfl)
    · exact (hmem g).trans (if_neg hg)
  · cases hs

end Good

private theorem write_unseen (h : Good y.mach (roots y)) (hv : UserSlot (indexPml4e addr))
    (hy' : step y (.write p addr b) = some y') {a : Word} (hq : q ≠ p) (ha : UserSlot (indexPml4e a))
    (hp : y.procs[q]? = some proc) : userRead y'.mach proc.pml4 a = userRead y.mach proc.pml4 a := by
  obtain ⟨writer, hw, hy'⟩ := bind_eq_some_iff.1 hy'
  obtain ⟨s, hs, rfl⟩ := map_eq_some_iff.1 hy'
  obtain ⟨hk, hstep⟩ := write_spec h hv hw hs
  have hgood : Good s (roots y) := hk.good h (hstep.inv h.sharing)
  have hleaf : leaf s.mem proc.pml4 a = leaf y.mach.mem proc.pml4 a :=
    hk.entryAt_eq (mem_of_getElem? (roots_getElem hp)) (x := placeOf a) ha
  have hpage : pageOf { y with mach := s } q a = pageOf y q a := by
    rw [pageOf_eq hgood ha, pageOf_eq h ha]
    show (abs s (roots y)).view.mem q (placeOf a) = _
    rw [hstep.view h.sharing]
    exact if_neg fun he => hq he.1
  have hread := userRead_eq (y := { y with mach := s }) hgood ha hp
  rw [hpage] at hread
  rw [userRead_eq h ha hp, ← hleaf]
  exact hread

structure Advances (y : Sys) (e : Event) (y' : Sys) : Prop where
  good : Good y'.mach (roots y')
  step : Sharing.Step y.sharing y'.sharing (label y' e)
  used : ∀ {p addr err env}, e = .fault p addr err env → ∀ q, Taken y.mach y'.mach q →
    Table y'.mach (roots y') q ∨ y'.sharing.Uses q

/-- What a fault at a page of the table `r` does to the entries, if the handler returns `v`: only that of the page
changes, and only if `v` is `0`. -/
structure OnlyPage (y : Sys) (r : Nat) (addr : Word) (v : Int) (y' : Sys) : Prop where
  roots_eq : roots y' = roots y
  elsewhere : ∀ r' x, r' ∈ roots y → UserSlot x.pml4e → ¬ (r' = r ∧ x = placeOf addr) →
    entryAt y'.mach.mem r' x = entryAt y.mach.mem r' x
  stored : v = 0 ∨ entryAt y'.mach.mem r (placeOf addr) = entryAt y.mach.mem r (placeOf addr)

/-- `page_fault_handler` returns for the faults considered, is a step, and changes no entry but that of the page. -/
theorem pageFaultHandler_spec (h : Good y.mach (roots y)) (hp : y.procs[p]? = some proc)
    (ha : Allowed y (.fault p addr err env)) :
    ∃ y' v, pageFaultHandler y p env addr err = some (y', .value v) ∧ Advances y (.fault p addr err env) y' ∧
      OnlyPage y proc.pml4 addr v y' := by
  obtain ⟨hv, proc', hp', hraised, hexit, hfree⟩ := ha
  cases hp.symm.trans hp'
  have hr := roots_getElem hp
  rw [hardwareLeaf_eq h (mem_of_getElem? hr) hv] at hraised
  unfold pageFaultHandler at hexit ⊢
  rw [hp] at hexit ⊢
  simp only [bind_some] at hexit ⊢
  cases hleaf : leaf y.mach.mem proc.pml4 addr with
  | none =>
    rw [hleaf] at hraised
    replace hraised : err &&& pfErrorCodeP = 0 := hraised
    have hP : ¬ (err &&& pfErrorCodeP ≠ 0) := fun hne => hne hraised
    rw [if_neg hP] at hexit ⊢
    rcases harea : areaFor env (if y.startKernel ≤ addr then y.kernelMmap else proc.mmap) addr with ⟨node, mmap⟩
    rw [harea] at hexit
    cases node with
    | none => exact absurd rfl (hexit _)
    | some node =>
      obtain ⟨s', w, hs', hw, hserved⟩ := pageNotPresent_spec h hr hv hleaf (hfree hraised) node
      rw [hs', map_some]
      -- the areas are not part of what is shared
      generalize hy' : (if y.startKernel ≤ addr then ({ y with mach := s', kernelMmap := mmap } : Sys)
        else { y with mach := s', procs := y.procs.set p { proc with mmap := mmap } }) = y'
      have hmach : y'.mach = s' := by
        rw [← hy']
        split <;> rfl
      have hroots : roots y' = roots y := by
        rw [← hy']
        split
        · rfl
        · exact roots_set hp mmap
      rw [← hmach] at hw hserved
      rw [← hroots] at hr
      have hgood : Good y'.mach (roots y') := by rw [hroots]; exact hserved.good
      have hpage : pageOf y' p addr = some (y'.mach.mem (entryFormat.next w)) := by
        rw [pageOf_eq hgood hv]
        show (mapping y'.mach (roots y') p (placeOf addr)).map _ = _
        rw [mapping_placeOf hr hv, hw]
        rfl
      refine ⟨y', 0, rfl, ⟨hgood, ?_, fun _ q hq => ?_⟩, hroots, hserved.elsewhere, .inl rfl⟩
      · unfold label
        dsimp only
        rw [if_pos hraised, hpage]
        show Sharing.Step _ (abs y'.mach (roots y')) _
        rw [hroots]
        exact hserved.step
      · unfold Sys.sharing
        rw [hroots]
        exact hserved.used q hq
  | some w =>
    rw [hleaf] at hraised
    obtain ⟨hP, hW, -⟩ := hraised
    rw [if_pos hP, if_pos hW] at hexit ⊢
    obtain ⟨s', ret, hs', hret⟩ := pagePresentWrite_spec h hr hv hleaf env
      ((searchVma addr (if y.startKernel ≤ addr then y.kernelMmap else proc.mmap) 0 none none).1.bind
        fun k => (if y.startKernel ≤ addr then y.kernelMmap else proc.mmap)[k]?) err
    rw [hs'] at hexit ⊢
    cases ret with
    | exit => exact absurd rfl (hexit _)
    | value v =>
      obtain ⟨hstored, hserved⟩ := hret.resolve_left (by simp)
      refine ⟨{ y with mach := s' }, v, rfl, ⟨hserved.good, ?_, fun _ => hserved.used⟩, rfl, hserved.elsewhere, ?_⟩
      · unfold label
        dsimp only
        rw [if_neg hP]
        exact hserved.step
      · exact hstored.imp Ret.value.inj fun h1 => h1.trans hleaf.symm

/-- A fault is served and keeps what the processes see. -/
theorem fault_spec (h : Good y.mach (roots y)) (ha : Allowed y (.fault p addr err env)) :
    ∃ y', step y (.fault p addr err env) = some y' ∧ Advances y (.fault p addr err env) y' := by
  obtain ⟨-, proc, hp, -⟩ := id ha
  obtain ⟨y', v, hy', hadv, -⟩ := pageFaultHandler_spec h hp ha
  refine ⟨y', ?_, hadv⟩
  unfold step
  dsimp only
  rw [hy', bind_some]

/-- A fork that succeeds is a step. -/
theorem fork_spec (h : Good y.mach (roots y)) (ha : Allowed y (.fork p)) :
    ∃ y', step y (.fork p) = some y' ∧ Advances y (.fork p) y' := by
  obtain ⟨proc, s', child, hp, hfork, h0, hzero⟩ := ha
  have hr := roots_getElem hp
  have hf := cowForkPageTable_spec (h.current hr) hfork
  refine ⟨{ y with mach := s', procs := y.procs ++ [⟨child, proc.mmap⟩] }, ?_, ?_⟩
  · show forkProc y p = _
    unfold forkProc
    rw [hp, bind_some, hfork]
    rfl
  · have hroots : roots { y with mach := s', procs := y.procs ++ [⟨child, proc.mmap⟩] } = roots y ++ [child] :=
      map_append
    refine ⟨?_, ?_, nofun⟩
    · rw [hroots]
      exact good_forked h hr hf h0 hzero
    · unfold Sys.sharing
      rw [hroots]
      exact step_forked h hr hf h0 hzero

/-- Each event is a step of the machine that shares frames. -/
theorem step_spec (h : Good y.mach (roots y)) (ha : Allowed y e) : ∃ y', step y e = some y' ∧ Advances y e y' := by
  cases e with
  | read p addr =>
    obtain ⟨-, proc, b, hp, hb⟩ := ha
    refine ⟨y, ?_, h, .idle rfl (fun _ _ => rfl) fun _ _ => ⟨rfl, Iff.rfl, rfl⟩, nofun⟩
    unfold step
    dsimp only
    rw [hp, bind_some, hb]
    rfl
  | write p addr b =>
    obtain ⟨hv, proc, s, hp, hs⟩ := ha
    obtain ⟨hk, hstep⟩ := write_spec h hv hp hs
    refine ⟨{ y with mach := s }, ?_, hk.good h (hstep.inv h.sharing), hstep, nofun⟩
    unfold step
    dsimp only
    rw [hp, bind_some, hs]
    rfl
  | fault p addr err env => exact fault_spec h ha
  | fork p => exact fork_spec h ha

/-- In every run the state stays good, and frames stay in use. -/
private theorem run_good (h : Good y.mach (roots y)) (hes : Permitted step Allowed y es) :
    ∃ y', run step y es = some y' ∧ Good y'.mach (roots y') ∧ ∀ f, y.sharing.Uses f → y'.sharing.Uses f := by
  have hstep : ∀ y1 e, (Good y1.mach (roots y1) ∧ ∀ f, y.sharing.Uses f → y1.sharing.Uses f) → Allowed y1 e →
      ∃ y2, step y1 e = some y2 ∧ Good y2.mach (roots y2) ∧ ∀ f, y.sharing.Uses f → y2.sharing.Uses f := by
    rintro y1 e ⟨h1, huses⟩ ha
    obtain ⟨y2, hy2, hadv⟩ := step_spec h1 ha
    exact ⟨y2, hy2, hadv.good, fun f hf => hadv.step.uses h1.sharing (huses f hf)⟩
  exact run_invariant hstep ⟨h, fun _ hf => hf⟩ hes

/-- In every run the processes see what they see on the eager machine. -/
private theorem run_view (h : Good y.mach (roots y)) (hes : Permitted step Allowed y es) :
    ∃ y', run step y es = some y' ∧ Good y'.mach (roots y') ∧ y'.sharing.view = eagerRun y es y.sharing.view := by
  induction es generalizing y with
  | nil => exact ⟨y, rfl, h, rfl⟩
  | cons e es ih =>
    obtain ⟨y1, hy1, hadv⟩ := step_spec h hes.1
    obtain ⟨y', hy', hgood, hview⟩ := ih hadv.good (hes.2 y1 hy1)
    refine ⟨y', ?_, hgood, ?_⟩
    · rw [run, hy1]
      exact hy'
    · rw [hview, hadv.step.view h.sharing, eagerRun, hy1]
      rfl

/-- The frame was handed out for user memory: it is mapped at the start, or the handler of a page fault took it off the
free list, and not for a page table. -/
def HandedOut (y₀ : Sys) (es : List Event) (f : Nat) : Prop :=
  y₀.sharing.Uses f ∨ ∃ es₁ p addr err env es₂ y y', es = es₁ ++ .fault p addr err env :: es₂ ∧
    run step y₀ es₁ = some y ∧ step y (.fault p addr err env) = some y' ∧ Taken y.mach y'.mach f ∧
    ¬ Table y'.mach (roots y') f

/-- The present user entries that map the frame, over the tables of all processes. -/
def userEntries (y : Sys) (f : Nat) : Set (Nat × Place) :=
  {x | ∃ proc e, y.procs[x.1]? = some proc ∧ UserSlot x.2.pml4e ∧ entryAt y.mach.mem proc.pml4 x.2 = some e ∧
    entryFormat.next e = f}

private theorem map_eq_some {x : Place} {w : Bool} :
    y.sharing.map p x = some (f, w) ↔ ∃ proc e, y.procs[p]? = some proc ∧
    UserSlot x.pml4e ∧ entryAt y.mach.mem proc.pml4 x = some e ∧ entryFormat.next e = f ∧ writeBit e = w := by
  refine mapping_eq_some.trans ⟨?_, ?_⟩
  · rintro ⟨r, e, hr, hx, he⟩
    unfold roots at hr
    rw [getElem?_map] at hr
    obtain ⟨proc, hp, rfl⟩ := map_eq_some_iff.1 hr
    exact ⟨proc, e, hp, hx, he⟩
  · rintro ⟨proc, e, hp, hx, he⟩
    exact ⟨proc.pml4, e, roots_getElem hp, hx, he⟩

private theorem owners_eq : y.sharing.owners f = userEntries y f := by
  ext ⟨p, x⟩
  constructor
  · rintro ⟨w, hx⟩
    obtain ⟨proc, e, hp, hslot, he, hf, -⟩ := map_eq_some.1 hx
    exact ⟨proc, e, hp, hslot, he, hf⟩
  · rintro ⟨proc, e, hp, hslot, he, hf⟩
    exact ⟨writeBit e, map_eq_some.2 ⟨proc, e, hp, hslot, he, hf, rfl⟩⟩

private theorem HandedOut.uses (h : HandedOut y₀ es f) (h₀ : Good y₀.mach (roots y₀))
    (hes : Permitted step Allowed y₀ es) (hy : run step y₀ es = some y) : y.sharing.Uses f := by
  rcases h with hf | ⟨es1, p, addr, err, env, es2, y1, y2, rfl, h1, h2, htaken, hnot⟩
  · obtain ⟨y', hy', -, huses⟩ := run_good h₀ hes
    cases hy.symm.trans hy'
    exact huses f hf
  · obtain ⟨y', hy', hgood, -⟩ := run_good h₀ hes.left
    cases h1.symm.trans hy'
    obtain ⟨hallowed, hrest⟩ := hes.right h1
    obtain ⟨y'', hy'', hadv⟩ := step_spec hgood hallowed
    cases h2.symm.trans hy''
    obtain ⟨z, hz, -, huses⟩ := run_good hadv.good (hrest _ h2)
    rw [run_append, h1, bind_some, run, h2] at hy
    cases hy.symm.trans hz
    exact huses f ((hadv.used rfl f htaken).resolve_left hnot)

def freeZero (s : Mach) : Bool :=
  s.pages.physFreeList.all fun r => (List.range r.count).all fun i => allIndices.all fun j =>
    decide (s.mem (r.addr + sizeofPage * i) j = 0)

def allowedNow (y : Sys) : Event → Bool
  | .read p addr => decide (UserSlot (indexPml4e addr)) &&
      y.procs[p]?.any fun proc => (userRead y.mach proc.pml4 addr).isSome
  | .write p addr b => decide (UserSlot (indexPml4e addr)) &&
      y.procs[p]?.any fun proc => (userWrite y.mach proc.pml4 addr b).isSome
  | .fault p addr errCode env => decide (UserSlot (indexPml4e addr)) && (step y (.fault p addr errCode env)).isSome &&
      y.procs[p]?.any fun proc => decide (Raised errCode (hardwareLeaf y.mach.mem proc.pml4 addr)) &&
        decide (missing y.mach.mem proc.pml4 addr + 1 ≤ freeCount y.mach.pages)
  | .fork p => freeZero y.mach && y.procs[p]?.any fun proc =>
      match cowForkPageTable y.mach proc.pml4 with
      | some (_, some child) => decide (child ≠ 0)
      | _ => false

def permittedNow : Sys → List Event → Bool
  | _, [] => true
  | y, e :: es => allowedNow y e &&
    match step y e with
    | none => true
    | some y' => permittedNow y' es

private theorem freeZero_spec (h : freeZero s = true) (hq : Free s q) (j : Index) : s.mem q j = 0 := by
  obtain ⟨r, hr, i, hi, rfl⟩ := hq
  have hrow := List.all_eq_true.1 h r hr
  have hpage := List.all_eq_true.1 hrow i (mem_range.2 hi)
  exact of_decide_eq_true (List.all_eq_true.1 hpage j (mem_allIndices j))

theorem allowed_of_now (h : allowedNow y e = true) : Allowed y e := by
  cases e with
  | read p addr =>
    obtain ⟨hv, hp⟩ := Bool.and_eq_true_iff.1 h
    obtain ⟨proc, hproc, hb⟩ := (Option.any_eq_true _ _).1 hp
    obtain ⟨b, hb⟩ := isSome_iff_exists.1 hb
    exact ⟨of_decide_eq_true hv, proc, b, hproc, hb⟩
  | write p addr b =>
    obtain ⟨hv, hp⟩ := Bool.and_eq_true_iff.1 h
    obtain ⟨proc, hproc, hs⟩ := (Option.any_eq_true _ _).1 hp
    obtain ⟨s, hs⟩ := isSome_iff_exists.1 hs
    exact ⟨of_decide_eq_true hv, proc, s, hproc, hs⟩
  | fault p addr errCode env =>
    obtain ⟨h, hp⟩ := Bool.and_eq_true_iff.1 h
    obtain ⟨hv, hs⟩ := Bool.and_eq_true_iff.1 h
    obtain ⟨proc, hproc, hr⟩ := (Option.any_eq_true _ _).1 hp
    obtain ⟨hr, hc⟩ := Bool.and_eq_true_iff.1 hr
    refine ⟨of_decide_eq_true hv, proc, hproc, of_decide_eq_true hr, fun y' hy' => ?_, fun _ => of_decide_eq_true hc⟩
    unfold step at hs
    dsimp only at hs
    rw [hy'] at hs
    cases hs
  | fork p =>
    obtain ⟨hz, hp⟩ := Bool.and_eq_true_iff.1 h
    obtain ⟨proc, hproc, hf⟩ := (Option.any_eq_true _ _).1 hp
    split at hf
    · rename_i s' child hfork
      exact ⟨proc, s', child, hproc, hfork, of_decide_eq_true hf, fun q hq _ j => freeZero_spec hz hq.1 j⟩
    · cases hf

private theorem permitted_of_now (h : permittedNow y es = true) : Permitted step Allowed y es := by
  induction es generalizing y with
  | nil => trivial
  | cons e es ih =>
    obtain ⟨ha, hrest⟩ := Bool.and_eq_true_iff.1 h
    refine ⟨allowed_of_now ha, fun y' hy' => ih ?_⟩
    rw [hy'] at hrest
    exact hrest

def sixteenPages : Chunk where
  physAddrStart := 0
  physAddrEnd := 0x10000
  physPagePointer := [⟨1, 0⟩, ⟨1, 0⟩, ⟨0, 0⟩, ⟨0, 0⟩, ⟨0, 0⟩, ⟨0, 0⟩, ⟨0, 0⟩, ⟨0, 0⟩, ⟨0, 0⟩, ⟨0, 0⟩, ⟨0, 0⟩, ⟨0, 0⟩,
    ⟨0, 0⟩, ⟨0, 0⟩, ⟨0, 0⟩, ⟨0, 0⟩]
  aligned := zero_aligned
  length := by simp [sizeofPage]
  nonempty := by decide
  fits := by simp [addrSpace]

def oneProcess : Sys where
  mach := ⟨fun q j => if q = 0x1000 ∧ j = selfRefEntry then 0x1003 else 0, boot [sixteenPages], 0⟩
  procs := [⟨0x1000, [⟨0x400000, 0x401000, 6, 0, 0⟩]⟩]
  kernelMmap := []
  startKernel := 0xffffffff80000000

private theorem free_oneProcess (h : Free oneProcess.mach q) : q % 4096 = 0 ∧ q < 0x10000 := by
  have hinv : Inv (boot [sixteenPages]) := boot_inv (pairwise_singleton _ _) (by decide) (by decide)
  obtain ⟨ha, hc⟩ := (hinv.covers q).1 h
  obtain ⟨c, hc, hcov⟩ := refcount_some hc
  have hc' : c = sixteenPages := mem_singleton.1 hc
  rw [hc', Chunk.covers_iff] at hcov
  exact ⟨ha, hcov.2⟩

theorem oneProcess_empty (i : Index) (hi : i ≠ selfRefEntry) : oneProcess.mach.mem 0x1000 i = 0 :=
  if_neg fun h => hi h.2

private theorem inv_oneProcess : Inv oneProcess.mach.pages := boot_inv (pairwise_singleton _ _) (by decide) (by decide)

theorem wellFormed_oneProcess : WellFormed (· ≠ selfRefEntry) oneProcess.mach (· = 0x1000) := by
  refine wellFormed_empty oneProcess_empty ⟨rfl, by decide⟩ (by decide) ?_ ?_ inv_oneProcess.listed ?_
  · intro q hq
    have := free_oneProcess hq
    exact ⟨this.1, by omega⟩
  · intro hq
    exact absurd ((inv_oneProcess.covers _).1 hq).2 (by decide +kernel)
  · intro q hq
    have := free_oneProcess hq
    show q + 0 < 2 ^ 64
    omega

theorem selfRef_oneProcess : SelfRef oneProcess.mach 0x1000 := by
  show hardwareFormat.link (oneProcess.mach.mem 0x1000 selfRefEntry) = some 0x1000
  decide +kernel

/-- Processes without any mapping are a start. -/
theorem start_empty (hpages : Inv y.mach.pages) (hwf : WellFormed (· ≠ selfRefEntry) y.mach (· ∈ roots y))
    (hnodup : (roots y).Nodup) (hself : ∀ r ∈ roots y, SelfRef y.mach r)
    (hdesc : ∀ r ∈ roots y, ∃ d, desc y.mach.pages r = some d)
    (hempty : ∀ r ∈ roots y, ∀ i, i ≠ selfRefEntry → y.mach.mem r i = 0) : Start y := by
  have hunused : ∀ p x f w, y.sharing.map p x ≠ some (f, w) := by
    intro p x f w hx
    obtain ⟨proc, e, hp, hslot, he, -⟩ := map_eq_some.1 hx
    unfold entryAt Place.path at he
    rw [Radix.lookup_cons, hempty _ (mem_of_getElem? (roots_getElem hp)) _ hslot.1] at he
    cases he
  exact
    { pages := hpages
      wf := hwf.restrict fun i hi => hi.1
      nodup := hnodup
      self := hself
      described := hdesc
      frame := fun f ⟨p, x, w, hx⟩ => absurd hx (hunused p x f w)
      single := fun {p _ x _ f w _} hx => absurd hx (hunused p x f w)
      counted := fun f ⟨p, x, w, hx⟩ => absurd hx (hunused p x f w) }

theorem start_oneProcess : Start oneProcess := by
  have hroot : ∀ r ∈ roots oneProcess, r = 0x1000 := fun r hr => mem_singleton.1 hr
  refine start_empty inv_oneProcess (wellFormed_oneProcess.mono hroot) (nodup_singleton _) ?_ ?_ ?_
  · intro r hr
    rw [hroot r hr]
    exact selfRef_oneProcess
  · intro r hr
    rw [hroot r hr]
    exact ⟨⟨1, 0⟩, by decide +kernel⟩
  · intro r hr
    rw [hroot r hr]
    exact oneProcess_empty

def quietEnv : Env := ⟨⟨true, ⟨0, 0, 0, 0, 0⟩⟩, 0⟩

def forkAndWrite : List Event :=
  [.fault 0 0x400010 6 quietEnv, .write 0 0x400010 7, .fork 0, .fault 1 0x400010 7 quietEnv, .write 1 0x400010 9,
    .read 0 0x400010]

private theorem permitted_forkAndWrite : Permitted step Allowed oneProcess forkAndWrite :=
  permitted_of_now (by decide +kernel)

/-- In every run the count of a frame of user memory is the number of entries that map it, and a frame with a count
above `1` is flagged and not writable through any of them. -/
theorem refcount_eq_entries (y₀ : Sys) (h₀ : Start y₀) (es : List Event) (hes : Permitted step Allowed y₀ es) :
    ∃ y, run step y₀ es = some y ∧ ∀ f, HandedOut y₀ es f →
      ∃ d, getPhysPageDesc y.mach.pages f = some d ∧ (userEntries y f).Finite ∧
        d.refcount.toNat = (userEntries y f).ncard ∧
        (1 < d.refcount.toNat → d.flag &&& pageCow ≠ 0 ∧ ∀ (p : Nat) (proc : Proc) (x : Place) (e : Word),
          y.procs[p]? = some proc → UserSlot x.pml4e → entryAt y.mach.mem proc.pml4 x = some e →
          entryFormat.next e = f → e &&& pageTransReadWrite = 0) := by
  obtain ⟨y, hy, hgood, -⟩ := run_good h₀.good hes
  refine ⟨y, hy, fun f hf => ?_⟩
  have hu := hf.uses h₀.good hes hy
  obtain ⟨d, hd, -, hn⟩ := hgood.desc_of_uses hu
  have howners : (abs y.mach (roots y)).owners f = userEntries y f := owners_eq
  refine ⟨d, (getPhysPageDesc_eq (uses_aligned hu)).trans hd, ?_, ?_, fun hlt => ?_⟩
  · rw [← howners]
    exact hgood.sharing.finite f
  · rw [hn, howners]
  · have hcount : (abs y.mach (roots y)).count f = d.refcount.toNat := abs_count hd
    obtain ⟨⟨d', hd', hflag⟩, hro⟩ := hgood.sharing.guard hu (by rw [hcount]; exact hlt)
    cases hd.symm.trans hd'
    refine ⟨hflag, fun p proc x e hp hx he hfe => ?_⟩
    have hw : writeBit e = false := hro p x _ (map_eq_some.2 ⟨proc, e, hp, hx, he, hfe, rfl⟩)
    exact Decidable.of_not_not (of_decide_eq_false hw)

theorem refcount_eq_entries_fork :
      ∃ y, run step oneProcess forkAndWrite = some y ∧ ∀ f, HandedOut oneProcess forkAndWrite f →
      ∃ d, getPhysPageDesc y.mach.pages f = some d ∧ d.refcount.toNat = (userEntries y f).ncard := by
  obtain ⟨y, hy, hf⟩ := refcount_eq_entries oneProcess start_oneProcess forkAndWrite permitted_forkAndWrite
  refine ⟨y, hy, fun f hout => ?_⟩
  obtain ⟨d, hd, -, hn, -⟩ := hf f hout
  exact ⟨d, hd, hn⟩

/-- In every run the pages of the processes and the bytes that they read are those on the machine that copies all pages
at a fork; a write is not seen by another process. -/
theorem cow_refines_eager (y₀ : Sys) (h₀ : Start y₀) (es : List Event) (hes : Permitted step Allowed y₀ es) :
    ∃ y, run step y₀ es = some y ∧ (∀ p addr, UserSlot (indexPml4e addr) →
        pageOf y p addr = (eagerRun y₀ es y₀.sharing.view).mem p (placeOf addr)) ∧
      (∀ (p : Nat) (proc : Proc) addr b, UserSlot (indexPml4e addr) → y.procs[p]? = some proc →
        userRead y.mach proc.pml4 addr = some b → eagerByte (eagerRun y₀ es y₀.sharing.view) p addr = some b) ∧
      ∀ p addr b y', UserSlot (indexPml4e addr) → step y (.write p addr b) = some y' →
        ∀ (q : Nat) (proc : Proc) addr', q ≠ p → UserSlot (indexPml4e addr') → y.procs[q]? = some proc →
          userRead y'.mach proc.pml4 addr' = userRead y.mach proc.pml4 addr' := by
  obtain ⟨y, hy, hgood, hview⟩ := run_view h₀.good hes
  have hpage : ∀ p addr, UserSlot (indexPml4e addr) →
      pageOf y p addr = (eagerRun y₀ es y₀.sharing.view).mem p (placeOf addr) := by
    intro p addr hv
    rw [pageOf_eq hgood hv, hview]
  refine ⟨y, hy, hpage, ?_, ?_⟩
  · intro p proc addr b hv hp hb
    unfold eagerByte
    rw [← hpage p addr hv]
    rw [userRead_eq hgood hv hp] at hb
    obtain ⟨w, -, hb⟩ := bind_eq_some_iff.1 hb
    split at hb
    · exact hb
    · cases hb
  · intro p addr b y' hv hy' q proc a hq ha hp
    exact write_unseen hgood hv hy' hq ha hp

theorem cow_refines_eager_fork :
      ∃ y, run step oneProcess forkAndWrite = some y ∧ (∀ p addr, UserSlot (indexPml4e addr) →
      pageOf y p addr = (eagerRun oneProcess forkAndWrite oneProcess.sharing.view).mem p (placeOf addr)) ∧
    eagerByte (eagerRun oneProcess forkAndWrite oneProcess.sharing.view) 0 0x400010 = some 7 ∧
    eagerByte (eagerRun oneProcess forkAndWrite oneProcess.sharing.view) 1 0x400010 = some 9 := by
  obtain ⟨y, hy, hpage, -⟩ := cow_refines_eager oneProcess start_oneProcess forkAndWrite permitted_forkAndWrite
  have hbytes : [0, 1].map (fun p => eagerByte (eagerRun oneProcess forkAndWrite oneProcess.sharing.view) p 0x400010) =
      [some 7, some 9] := by decide +kernel
  obtain ⟨hparent, hchild⟩ := cons.inj hbytes
  exact ⟨y, hy, hpage, hparent, (cons.inj hchild).1⟩

end Adix.Cow
