import Adix.PageTable.SelfRef
import Adix.Vma.Layout

/-!
# Unmapping an area (`munmap`)

`munmap` takes an area off the list, and then a loop is to unmap and free the pages that lie wholly inside the area. The
loop adds `PAGE_ALIGN`, which is `-4096`, to the address in each round.
-/

namespace Adix.Vma.Unmap

open PageTable PhysPages Option BitVec
open BitVec (ofNat)
open Radix (walk)

def pageAlignMask : Word := 0xfffffffffffff000

/-- The address of the first page wholly inside the area, if there is one. -/
def startAddr (vma : VmArea) : Word := (vma.vmStart + 0xfff) &&& pageAlignMask

def endAddr (vma : VmArea) : Word := vma.vmEnd &&& pageAlignMask

/-- The body of the loop: the page is unmapped, and the physical page freed. The flag says whether the `kmalloc` of
`free_phys_page` succeeds. -/
def unmapPage (kmallocOk : Bool) (cr3 : Nat) (page : Word) (s : Mach) : Option Mach :=
  (virt2physSelfref s cr3 page).bind fun (phys, _) =>
    (updateCurrPageTable s cr3 0 page 0).map fun (s, _) =>
      { s with pages := (freePhysPage kmallocOk s.pages phys.toNat).1 }

/-- The loop; `none` when it is not left after `fuel` tests of its condition. -/
def unmapLoop (kmallocOk : Word → Bool) (cr3 : Nat) (stop : Word) : Nat → Word → Mach → Option Mach
  | 0, _, _ => none
  | fuel + 1, page, s =>
    if page < stop then
      (unmapPage (kmallocOk page) cr3 page s).bind fun s =>
        unmapLoop kmallocOk cr3 stop fuel (page + pageAlignMask) s
    else some s

/-- `munmap`: the machine and the list of areas afterwards. The loop can see each page of the address space once. -/
def munmap (kmallocOk : Word → Bool) (s : Mach) (cr3 : Nat) (mmap : List VmArea) (addr : Word) :
    Option (Mach × List VmArea) :=
  (Vma.munmap mmap addr).bind fun (vma, mmap) =>
    (unmapLoop kmallocOk cr3 (endAddr vma) (2 ^ 52 + 1) (startAddr vma) s).map fun s => (s, mmap)

def Canonical (a : Word) : Prop := a.toNat < 2 ^ 47 ∨ 2 ^ 64 - 2 ^ 47 ≤ a.toNat

def Inside (vma : VmArea) (a : Word) : Prop :=
  vma.vmStart.toNat ≤ 4096 * (a.toNat / 4096) ∧ 4096 * (a.toNat / 4096) + 4096 ≤ vma.vmEnd.toNat

def drop (d : PhysPage) : PhysPage := { d with refcount := d.refcount - 1 }

/-- The pages wholly inside the area are unmapped and their frames counted down by one; all other pages and the frames
that only they have are as before. -/
structure RemovesOnly (s : Mach) (cr3 : Nat) (vma : VmArea) (s' : Mach) : Prop where
  inside : ∀ a e, Canonical a → Inside vma a → leaf s.mem cr3 a = some e → leaf s'.mem cr3 a = none ∧
    getPhysPageDesc s'.pages (entryFormat.next e) = (getPhysPageDesc s.pages (entryFormat.next e)).map drop
  outside : ∀ a, Canonical a → ¬ Inside vma a → leaf s'.mem cr3 a = leaf s.mem cr3 a
  frames : ∀ a e, Canonical a → ¬ Inside vma a → leaf s.mem cr3 a = some e →
    (∀ b e', Canonical b → Inside vma b → leaf s.mem cr3 b = some e' → entryFormat.next e' ≠ entryFormat.next e) →
    getPhysPageDesc s'.pages (entryFormat.next e) = getPhysPageDesc s.pages (entryFormat.next e)

/-- Of the pages below the end of the area, at most its first one is mapped. -/
def OnlyFirst (s : Mach) (cr3 : Nat) (vma : VmArea) : Prop :=
  ∀ a : Word, a < endAddr vma → leaf s.mem cr3 a ≠ none → a.toNat / 4096 = (startAddr vma).toNat / 4096

variable {s s' : Mach} {cr3 n fuel : Nat} {vma : VmArea} {a page stop e w b : Word} {ok : Bool}
  {kmallocOk : Word → Bool} {p : Pages}

theorem toNat_and_mask (x : Word) : (x &&& pageAlignMask).toNat = 4096 * (x.toNat / 4096) := by
  have hshift : x &&& pageAlignMask = (x >>> 12) <<< 12 := by
    apply eq_of_getLsbD_eq
    intro k hk
    rw [getLsbD_shiftLeft]
    unfold pageAlignMask
    interval_cases k <;> simp
  rw [hshift, toNat_shiftLeft, toNat_ushiftRight]
  omega

theorem toNat_endAddr (vma : VmArea) : (endAddr vma).toNat = 4096 * (vma.vmEnd.toNat / 4096) := toNat_and_mask _

/-- In the lower half, a page is given by the address. -/
theorem samePage_iff_div (ha : a.toNat < 2 ^ 47) (hb : b.toNat < 2 ^ 47) :
    SamePage a b ↔ a.toNat / 4096 = b.toNat / 4096 := by
  have hbit : ∀ (x : Word) k, (x.toNat / 2 ^ 12).testBit k = x.getLsbD (k + 12) := fun x k => by
    rw [Nat.testBit_div_two_pow]
    rfl
  constructor
  · intro h
    apply Nat.eq_of_testBit_eq
    intro k
    show (a.toNat / 2 ^ 12).testBit k = (b.toNat / 2 ^ 12).testBit k
    rw [hbit, hbit]
    by_cases hk : k + 12 ≤ 47
    · exact h (k + 12) (by omega) hk
    · have hhigh : ∀ x : Word, x.toNat < 2 ^ 47 → x.getLsbD (k + 12) = false := fun x hx =>
        Nat.testBit_lt_two_pow (Nat.lt_of_lt_of_le hx (Nat.pow_le_pow_right (by decide) (by omega)))
      rw [hhigh a ha, hhigh b hb]
  · intro h k h1 h2
    have hk := congrArg (fun n => n.testBit (k - 12)) h
    have hk' : (a.toNat / 2 ^ 12).testBit (k - 12) = (b.toNat / 2 ^ 12).testBit (k - 12) := hk
    rw [hbit, hbit, Nat.sub_add_cancel h1] at hk'
    exact hk'

theorem not_samePage_upper (ha : 2 ^ 64 - 2 ^ 47 ≤ a.toNat) (hb : b.toNat < 2 ^ 47) : ¬ SamePage a b := by
  intro h
  have h47 := h 47 (by decide) (by decide)
  have hb47 : b.getLsbD 47 = false := Nat.testBit_lt_two_pow hb
  have ha47 : a.getLsbD 47 = true := by
    show a.toNat.testBit 47 = true
    rw [Nat.testBit_eq_decide_div_mod_eq]
    rw [decide_eq_true_iff]
    omega
  rw [ha47, hb47] at h47
  cases h47

theorem lower_slot (ha : a.toNat < 2 ^ 47) : indexPml4e a ≠ selfRefEntry := by
  intro h
  have hbit : (indexPml4e a).getLsbD 8 = a.getLsbD 47 := by
    unfold indexPml4e
    simp
  have ha47 : a.getLsbD 47 = false := Nat.testBit_lt_two_pow ha
  rw [h, ha47] at hbit
  exact absurd hbit (by decide)

structure Tables (s : Mach) (cr3 : Nat) : Prop where
  wf : WellFormed (· ≠ selfRefEntry) { s with pages := ⟨[], []⟩ } (· = cr3)
  self : SelfRef s cr3

private theorem Tables.of_wellFormed (hw : WellFormed (· ≠ selfRefEntry) s (· = cr3)) (hself : SelfRef s cr3) :
    Tables s cr3 := by
  have hfree : ∀ q, ¬ Free { s with pages := ⟨[], []⟩ } q := fun q ⟨r, hr, _⟩ => by cases hr
  exact ⟨hw.congr (fun _ _ => rfl) ⟨Apart.nil, fun q hq => absurd hq (hfree q)⟩ rfl fun q hq => absurd hq (hfree q),
    hself⟩

private def withPages {α : Type} (p : Pages) (x : Mach × α) : Mach × α := ({ x.1 with pages := p }, x.2)

private theorem bind_withPages {α β : Type} {x x' : Option (Mach × α)} {k : Mach × α → Option (Mach × β)}
    (hx : x' = x.map (withPages p)) (hk : ∀ y, k (withPages p y) = (k y).map (withPages p)) :
    x'.bind k = (x.bind k).map (withPages p) := by
  subst hx
  cases x with
  | none => rfl
  | some y => exact hk y

private theorem nextEntry_pages (p : Pages) (s : Mach) (entry : Word) :
    nextEntry { s with pages := p } cr3 entry 0 = (nextEntry s cr3 entry 0).map (withPages p) := by
  unfold nextEntry
  rw [show load { s with pages := p } cr3 entry = load s cr3 entry from rfl]
  cases load s cr3 entry with
  | none => rfl
  | some e =>
    rw [bind_some, bind_some, if_pos rfl]
    split <;> rfl

private theorem lastEntry_pages (p : Pages) (s : Mach) (virt perm : Word) :
    lastEntry { s with pages := p } cr3 0 virt perm = (lastEntry s cr3 0 virt perm).map (withPages p) := by
  unfold lastEntry storeAt
  rw [show load { s with pages := p } cr3 (selfRefPte virt) = load s cr3 (selfRefPte virt) from rfl,
    show hardwareWalk { s with pages := p } cr3 (selfRefPte virt) = hardwareWalk s cr3 (selfRefPte virt) from rfl]
  cases load s cr3 (selfRefPte virt) with
  | none => rfl
  | some e =>
    rw [bind_some, bind_some, if_pos rfl]
    split
    · rfl
    · cases hardwareWalk s cr3 (selfRefPte virt) <;> rfl

private theorem updateCurrPageTable_pages (p : Pages) (s : Mach) (cr3 : Nat) (virt perm : Word) :
    updateCurrPageTable { s with pages := p } cr3 0 virt perm =
      (updateCurrPageTable s cr3 0 virt perm).map (withPages p) := by
  refine bind_withPages (nextEntry_pages p s _) fun (s, ok) => ?_
  cases ok with
  | false => rfl
  | true =>
    refine bind_withPages (nextEntry_pages p s _) fun (s, ok) => ?_
    cases ok with
    | false => rfl
    | true =>
      refine bind_withPages (nextEntry_pages p s _) fun (s, ok) => ?_
      cases ok with
      | false => rfl
      | true => exact lastEntry_pages p s virt perm

namespace Tables

variable (h : Tables s cr3)
include h

private theorem link : entryFormat.link (s.mem cr3 selfRefEntry) = some cr3 := by
  have hlt : cr3 < 2 ^ 51 := (h.wf.table cr3 ⟨cr3, [], rfl, TablePath.nil, rfl⟩).1.lt
  obtain ⟨hp, hn⟩ := Radix.Format.link_eq_some.1 h.self
  refine Radix.Format.link_eq_some.2 ⟨hp, ?_⟩
  have h51 : (s.mem cr3 selfRefEntry).getLsbD 51 = false := by
    have hb : (pageTransNextLevelAddr (s.mem cr3 selfRefEntry)).getLsbD 51 = false := by
      refine Nat.testBit_lt_two_pow ?_
      rw [show (pageTransNextLevelAddr (s.mem cr3 selfRefEntry)).toNat = cr3 from hn]
      exact hlt
    rw [getLsbD_nextLevelAddr] at hb
    simpa using hb
  show (entryAddr _).toNat = cr3
  rw [entryAddr_eq h51]
  exact hn

section Store

variable {pt : Nat} {i : Index} (hv : indexPml4e a ≠ selfRefEntry)
  (hpt : walk entryFormat s.mem cr3 (tablePath a) = some pt)
include hv hpt

private theorem ne_of_short {q : Nat} {τ : List Index} (hτ : TablePath (· ≠ selfRefEntry) τ) (hlen : τ.length ≤ 2)
    (hq : walk entryFormat s.mem cr3 τ = some q) : q ≠ pt := by
  rintro rfl
  have hpath := h.wf.forest.path_eq rfl rfl hτ (tablePath_ok hv) hq hpt
  rw [hpath] at hlen
  exact absurd hlen (by simp [tablePath])

private theorem store : Tables (s.store pt i w) cr3 := by
  refine ⟨h.wf.store (s := { s with pages := ⟨[], []⟩ }) rfl (tablePath_ok hv) rfl hpt, ?_⟩
  have hne := h.ne_of_short hv hpt TablePath.nil (by simp) rfl
  exact h.self.congr (if_neg fun hc => hne hc.1)

private theorem leaf_selfRef (hb : indexPml4e b = selfRefEntry) :
    leaf (s.store pt i w).mem cr3 b = leaf s.mem cr3 b := by
  obtain ⟨τ, hτ, hlen, hwalk⟩ : ∃ τ, TablePath (· ≠ selfRefEntry) τ ∧ τ.length ≤ 2 ∧
      ∀ m : Memory, entryFormat.link (m cr3 selfRefEntry) = some cr3 →
        walk entryFormat m cr3 (tablePath b) = walk entryFormat m cr3 τ := by
    have hpass : ∀ (m : Memory) σ, entryFormat.link (m cr3 selfRefEntry) = some cr3 →
        walk entryFormat m cr3 (selfRefEntry :: σ) = walk entryFormat m cr3 σ := by
      intro m σ hm
      rw [Radix.walk_cons, hm, bind_some]
    unfold tablePath
    rw [hb]
    by_cases h3 : indexPdpe b = selfRefEntry
    · by_cases h2 : indexPde b = selfRefEntry
      · refine ⟨[], TablePath.nil, by simp, fun m hm => ?_⟩
        rw [h3, h2, hpass m _ hm, hpass m _ hm, hpass m _ hm]
      · refine ⟨[indexPde b], ⟨by simp, fun _ hi => some.inj hi ▸ h2⟩, by simp, fun m hm => ?_⟩
        rw [h3, hpass m _ hm, hpass m _ hm]
    · exact ⟨[indexPdpe b, indexPde b], ⟨by simp, fun _ hi => some.inj hi ▸ h3⟩, by simp, fun m hm => hpass m _ hm⟩
  have h' : Tables (s.store pt i w) cr3 := h.store hv hpt
  have hsame : walk entryFormat (s.store pt i w).mem cr3 τ = walk entryFormat s.mem cr3 τ :=
    walk_store (s := { s with pages := ⟨[], []⟩ }) h.wf rfl (tablePath_ok hv) rfl hpt rfl hτ
  refine Radix.lookup_congr (by rw [hwalk _ h'.link, hwalk _ h.link, hsame]) fun q hq => ?_
  rw [hwalk _ h.link] at hq
  exact if_neg fun hc => h.ne_of_short hv hpt hτ hlen hq hc.1

private theorem leaf_store : leaf (s.store pt (indexPte a) w).mem cr3 a = (some w).filter entryFormat.present ∧
    ∀ b, ¬ SamePage b a → leaf (s.store pt (indexPte a) w).mem cr3 b = leaf s.mem cr3 b := by
  obtain ⟨h1, h2⟩ := leafWord_store (w := w) (Grows.refl h.wf) (r := cr3) rfl hv hpt
  refine ⟨?_, fun b hb => ?_⟩
  · exact congrArg _ h1
  · by_cases hslot : indexPml4e b = selfRefEntry
    · exact h.leaf_selfRef hv hpt hslot
    · exact leaf_eq_of_leafWord (h2 cr3 b rfl hslot fun hc => hb hc.2)

end Store

end Tables

private theorem desc_freePhysPage {f b : Nat} (hf : f % PhysPages.sizeofPage = 0) (hb : b % PhysPages.sizeofPage = 0) :
    desc (freePhysPage ok p f).1 b = if b = f then (desc p f).map drop else desc p b := by
  -- only the count changes the descriptors
  have hdec : desc (decRefCountPage p f).1 b = if b = f then (desc p f).map drop else desc p b := by
    unfold decRefCountPage
    rw [getPhysPageDesc_eq hf]
    cases hd : desc p f with
    | none =>
      dsimp only
      split
      · rename_i hbf
        rw [hbf, hd]
        rfl
      · rfl
    | some d =>
      rw [desc_updateDesc hf hb, hd]
      rfl
  rw [← hdec]
  unfold freePhysPage
  dsimp only
  split
  · rfl
  · split
    · rfl
    · split <;> rfl

theorem freePhysPage_minus_one (p : Pages) : (freePhysPage ok p (-1 : Word).toNat).1 = p := by
  have hnone : getPhysPageDesc p (-1 : Word).toNat = none := by
    rw [eq_none_iff_forall_ne_some]
    intro d hd
    obtain ⟨c, -, hc, -⟩ := findDesc_some hd
    have h1 := (Chunk.covers_iff.1 hc).2
    have h2 := c.fits
    have h3 := c.length
    have h4 := c.aligned
    rw [show pageAlign (-1 : Word).toNat = 2 ^ 64 - 4096 by decide] at h1
    unfold addrSpace at h2
    unfold PhysPages.sizeofPage at h3 h4
    omega
  unfold freePhysPage decRefCountPage
  rw [hnone]
  rfl

section Round

variable (h : Tables s cr3) (hv : indexPml4e page ≠ selfRefEntry)
include h hv

private theorem unmapPage_absent (hnone : leaf s.mem cr3 page = none) : unmapPage ok cr3 page s = some s := by
  have hphys := virt2physSelfref_eq h.wf h.self hv
  change virt2physSelfref s cr3 page = some (((leaf s.mem cr3 page).map _).getD _) at hphys
  rw [hnone] at hphys
  have hupd : updateCurrPageTable s cr3 0 page 0 = some (s, -1) := by
    have := updateCurrPageTable_pages s.pages { s with pages := ⟨[], []⟩ } cr3 page 0
    rw [updateCurrPageTable_absent h.wf h.self hv hnone] at this
    exact this
  unfold unmapPage
  rw [hphys, bind_some, hupd]
  simp only [map_none, getD_none, map_some, freePhysPage_minus_one]

private theorem unmapPage_present (ok : Bool) (he : leaf s.mem cr3 page = some e) :
    ∃ s1, unmapPage ok cr3 page s = some s1 ∧ Tables s1 cr3 ∧ leaf s1.mem cr3 page = none ∧
      (∀ b, ¬ SamePage b page → leaf s1.mem cr3 b = leaf s.mem cr3 b) ∧
      ∀ f, f % PhysPages.sizeofPage = 0 → desc s1.pages f =
        if f = entryFormat.next e then (desc s.pages f).map drop else desc s.pages f := by
  have hphys := virt2physSelfref_eq h.wf h.self hv
  change virt2physSelfref s cr3 page = some (((leaf s.mem cr3 page).map _).getD _) at hphys
  rw [he] at hphys
  obtain ⟨pt, hpt, -, hupd'⟩ := updateCurrPageTable_zero h.wf h.self hv he 0
  have habsent : entryFormat.present (pageTransNextLevelAddr e ||| pageTransNonAddrFields 0) = false := by
    rw [present_eq, getLsbD_or, getLsbD_nextLevelAddr, getLsbD_nonAddrFields]
    simp
  generalize pageTransNextLevelAddr e ||| pageTransNonAddrFields 0 = w at hupd' habsent
  have hupd : updateCurrPageTable s cr3 0 page 0 = some (s.store pt (indexPte page) w, 0) := by
    have := updateCurrPageTable_pages s.pages { s with pages := ⟨[], []⟩ } cr3 page 0
    rw [hupd'] at this
    exact this
  obtain ⟨h1, h2⟩ := h.leaf_store (w := w) hv hpt
  have hstore : Tables (s.store pt (indexPte page) w) cr3 := h.store hv hpt
  refine ⟨{ s.store pt (indexPte page) w with pages := (freePhysPage ok s.pages (entryAddr e).toNat).1 }, ?_,
    ⟨hstore.wf, hstore.self⟩, ?_, h2, fun f hf => ?_⟩
  · unfold unmapPage
    rw [hphys, hupd]
    rfl
  · refine h1.trans ?_
    rw [filter_some, habsent]
    rfl
  · refine (desc_freePhysPage (next_aligned e) hf).trans ?_
    split
    · rename_i hfe
      rw [hfe]
    · rfl

end Round

/-- The page `n` and all pages below, down to address `0`, are unmapped, and none above. -/
structure Swept (s : Mach) (cr3 n : Nat) (s' : Mach) : Prop where
  gone : ∀ a : Word, a.toNat / 4096 ≤ n → leaf s'.mem cr3 a = none
  kept : ∀ a, Canonical a → n < a.toNat / 4096 → leaf s'.mem cr3 a = leaf s.mem cr3 a

private theorem unmapLoop_page (hstop : stop.toNat ≤ 2 ^ 47) (hn : 4096 * n < stop.toNat) :
    unmapLoop kmallocOk cr3 stop (fuel + 1) (ofNat 64 (4096 * n)) s =
      (unmapPage (kmallocOk (ofNat 64 (4096 * n))) cr3 (ofNat 64 (4096 * n)) s).bind fun s =>
        unmapLoop kmallocOk cr3 stop fuel (ofNat 64 (4096 * n) + pageAlignMask) s := by
  rw [unmapLoop, if_pos]
  rw [lt_def, toNat_ofNat]
  omega

private theorem unmapLoop_last (hstop : stop.toNat ≤ 2 ^ 47) :
    unmapLoop kmallocOk cr3 stop (fuel + 1) (ofNat 64 (4096 * 0) + pageAlignMask) s = some s := by
  rw [unmapLoop, if_neg]
  intro hlt
  have hpage : (ofNat 64 (4096 * 0) + pageAlignMask).toNat = 2 ^ 64 - 4096 := by decide
  have hlt' := lt_def.1 hlt
  omega

private theorem next_page : ofNat 64 (4096 * (n + 1)) + pageAlignMask = ofNat 64 (4096 * n) := by
  apply eq_of_toNat_eq
  rw [BitVec.toNat_add, toNat_ofNat, toNat_ofNat, show pageAlignMask.toNat = 2 ^ 64 - 4096 by decide]
  omega

private theorem toNat_page (hn : 4096 * n < 2 ^ 47) : (ofNat 64 (4096 * n)).toNat = 4096 * n := by
  rw [toNat_ofNat]
  omega

/-- A round unmaps one page, and counts its frame down. -/
private theorem unmapPage_spec (ok : Bool) (h : Tables s cr3) (hn : 4096 * n < 2 ^ 47) :
    ∃ s1, unmapPage ok cr3 (ofNat 64 (4096 * n)) s = some s1 ∧ Tables s1 cr3 ∧
      (∀ a : Word, a.toNat / 4096 = n → leaf s1.mem cr3 a = none) ∧
      ∀ a, Canonical a → a.toNat / 4096 ≠ n → leaf s1.mem cr3 a = leaf s.mem cr3 a := by
  have hto := toNat_page hn
  have hlow : (ofNat 64 (4096 * n)).toNat < 2 ^ 47 := by omega
  have hsame : ∀ a : Word, a.toNat / 4096 = n → SamePage a (ofNat 64 (4096 * n)) :=
    fun a ha => (samePage_iff_div (by omega) hlow).2 (by omega)
  have hother : ∀ a, Canonical a → a.toNat / 4096 ≠ n → ¬ SamePage a (ofNat 64 (4096 * n)) := by
    intro a hc hne hs
    rcases hc with hc | hc
    · have := (samePage_iff_div hc hlow).1 hs
      omega
    · exact not_samePage_upper hc hlow hs
  cases he : leaf s.mem cr3 (ofNat 64 (4096 * n)) with
  | none =>
    refine ⟨s, unmapPage_absent h (lower_slot hlow) he, h, fun a ha => ?_, fun _ _ _ => rfl⟩
    rw [leaf_samePage (hsame a ha), he]
  | some e =>
    obtain ⟨s1, hs1, ht, hgone, hkept, -⟩ := unmapPage_present h (lower_slot hlow) ok he
    refine ⟨s1, hs1, ht, fun a ha => ?_, fun a hc hne => hkept a (hother a hc hne)⟩
    rw [leaf_samePage (hsame a ha), hgone]

private theorem unmapLoop_sweeps (h : Tables s cr3) (hstop : stop.toNat ≤ 2 ^ 47) (hn : 4096 * n < stop.toNat)
    (hfuel : n + 2 ≤ fuel) :
    ∃ s', unmapLoop kmallocOk cr3 stop fuel (ofNat 64 (4096 * n)) s = some s' ∧ Swept s cr3 n s' := by
  induction n generalizing fuel s with
  | zero =>
    obtain ⟨fuel, rfl⟩ : ∃ k, fuel = k + 1 + 1 := ⟨fuel - 2, by omega⟩
    obtain ⟨s1, hs1, -, hgone, hkept⟩ := unmapPage_spec (n := 0) (kmallocOk (ofNat 64 (4096 * 0))) h (by omega)
    refine ⟨s1, ?_, fun a ha => hgone a (by omega), fun a hc ha => hkept a hc (by omega)⟩
    rw [unmapLoop_page hstop hn, hs1, bind_some, unmapLoop_last hstop]
  | succ n ih =>
    obtain _ | fuel := fuel
    · omega
    obtain ⟨s1, hs1, ht, hgone, hkept⟩ :=
      unmapPage_spec (n := n + 1) (kmallocOk (ofNat 64 (4096 * (n + 1)))) h (by omega)
    obtain ⟨s', hs', hswept⟩ := ih ht (by omega) (show n + 2 ≤ fuel by omega)
    refine ⟨s', ?_, fun a ha => ?_, fun a hc ha => ?_⟩
    · rw [unmapLoop_page hstop hn, hs1, bind_some, next_page, hs']
    · rcases Nat.lt_or_ge n (a.toNat / 4096) with hlt | hle
      · have hc : Canonical a := .inl (by omega)
        rw [hswept.kept a hc hlt]
        exact hgone a (by omega)
      · exact hswept.gone a hle
    · rw [hswept.kept a hc (by omega)]
      exact hkept a hc (by omega)

private theorem unmapLoop_first (h : Tables s cr3) (hstop : stop.toNat ≤ 2 ^ 47) (hn : 4096 * n < stop.toNat)
    (hfuel : n + 2 ≤ fuel) (hnone : ∀ a : Word, a.toNat / 4096 < n → leaf s.mem cr3 a = none) :
    unmapLoop kmallocOk cr3 stop fuel (ofNat 64 (4096 * n)) s =
      unmapPage (kmallocOk (ofNat 64 (4096 * n))) cr3 (ofNat 64 (4096 * n)) s := by
  induction n generalizing fuel s with
  | zero =>
    obtain ⟨fuel, rfl⟩ : ∃ k, fuel = k + 1 + 1 := ⟨fuel - 2, by omega⟩
    obtain ⟨s1, hs1, -⟩ := unmapPage_spec (n := 0) (kmallocOk (ofNat 64 (4096 * 0))) h (by omega)
    rw [unmapLoop_page hstop hn, hs1]
    exact unmapLoop_last hstop
  | succ n ih =>
    obtain _ | fuel := fuel
    · omega
    obtain ⟨s1, hs1, ht, -, hkept⟩ := unmapPage_spec (n := n + 1) (kmallocOk (ofNat 64 (4096 * (n + 1)))) h (by omega)
    have hnone' : ∀ a : Word, a.toNat / 4096 ≤ n → leaf s1.mem cr3 a = none := by
      intro a ha
      rw [hkept a (.inl (by omega)) (by omega)]
      exact hnone a (by omega)
    have hto := toNat_page (n := n) (by omega)
    rw [unmapLoop_page hstop hn, hs1, bind_some, next_page, ih ht (by omega) (by omega) fun a ha => hnone' a (by omega)]
    exact unmapPage_absent ht (lower_slot (by omega)) (hnone' _ (by omega))

private def firstPage (vma : VmArea) : Nat := (vma.vmStart.toNat + 4095) / 4096

private theorem toNat_startAddr (h : vma.vmStart.toNat + 4095 < 2 ^ 64) :
    (startAddr vma).toNat = 4096 * firstPage vma := by
  unfold startAddr firstPage
  rw [toNat_and_mask, BitVec.toNat_add, show (0xfff : Word).toNat = 4095 from rfl, Nat.mod_eq_of_lt h]

private theorem startAddr_eq (h : vma.vmStart.toNat + 4095 < 2 ^ 64) :
    startAddr vma = ofNat 64 (4096 * firstPage vma) := by
  apply eq_of_toNat_eq
  have hlt := (startAddr vma).isLt
  rw [toNat_startAddr h] at hlt ⊢
  rw [toNat_ofNat, Nat.mod_eq_of_lt hlt]

/-- The pages inside an area are those from its first whole page on. -/
private theorem inside_iff :
    Inside vma a ↔ firstPage vma ≤ a.toNat / 4096 ∧ a.toNat / 4096 < vma.vmEnd.toNat / 4096 := by
  unfold Inside firstPage
  omega

private theorem not_inside (hproper : vma.vmStart < vma.vmEnd) (hle : ¬ startAddr vma < endAddr vma) :
    ¬ Inside vma a := by
  rw [lt_def] at hproper hle
  have hend := toNat_endAddr vma
  by_cases hwrap : vma.vmStart.toNat + 4095 < 2 ^ 64
  · have hstart := toNat_startAddr hwrap
    rw [inside_iff]
    omega
  · have hstart : (startAddr vma).toNat = 0 := by
      unfold startAddr
      rw [toNat_and_mask, BitVec.toNat_add, show (0xfff : Word).toNat = 4095 from rfl]
      omega
    omega

section Area

variable (h : Tables s cr3) (hproper : vma.vmStart < vma.vmEnd) (hlow : vma.vmEnd.toNat ≤ 2 ^ 47)
  (hlt : startAddr vma < endAddr vma)
include hproper hlow hlt

private theorem area_facts : startAddr vma = ofNat 64 (4096 * firstPage vma) ∧
    (endAddr vma).toNat = 4096 * (vma.vmEnd.toNat / 4096) ∧ firstPage vma < vma.vmEnd.toNat / 4096 ∧
    (startAddr vma).toNat / 4096 = firstPage vma := by
  rw [lt_def] at hproper hlt
  have hwrap : vma.vmStart.toNat + 4095 < 2 ^ 64 := by omega
  have hstart := toNat_startAddr hwrap
  have hend := toNat_endAddr vma
  exact ⟨startAddr_eq hwrap, hend, by omega, by omega⟩

include h

private theorem onlyFirst_of_removes (hfuel : 2 ^ 47 ≤ fuel)
    (hs : unmapLoop kmallocOk cr3 (endAddr vma) fuel (startAddr vma) s = some s') (hr : RemovesOnly s cr3 vma s') :
    OnlyFirst s cr3 vma := by
  obtain ⟨hstart, hend, hfirst, hnum⟩ := area_facts hproper hlow hlt
  rw [hstart] at hs
  obtain ⟨s'', hs'', hswept⟩ : ∃ s'', unmapLoop kmallocOk cr3 (endAddr vma) fuel
      (ofNat 64 (4096 * firstPage vma)) s = some s'' ∧ Swept s cr3 (firstPage vma) s'' :=
    unmapLoop_sweeps h (by omega) (by omega) (by omega)
  cases hs.symm.trans hs''
  intro a ha hmapped
  rw [lt_def] at ha
  have hc : Canonical a := .inl (by omega)
  rw [hnum]
  rcases Nat.lt_trichotomy (a.toNat / 4096) (firstPage vma) with hbelow | heq | habove
  · -- a page below the area is unmapped
    have hout : ¬ Inside vma a := by
      rw [inside_iff]
      omega
    rw [← hr.outside a hc hout] at hmapped
    exact absurd (hswept.gone a (by omega)) hmapped
  · exact heq
  · -- a page above the first one is not
    have hin : Inside vma a := inside_iff.2 ⟨by omega, by omega⟩
    obtain ⟨e, he⟩ := ne_none_iff_exists'.1 hmapped
    have hgone := (hr.inside a e hc hin he).1
    rw [hswept.kept a hc habove, he] at hgone
    cases hgone

private theorem removes_of_onlyFirst (hfuel : 2 ^ 47 ≤ fuel) (honly : OnlyFirst s cr3 vma) :
    ∃ s', unmapLoop kmallocOk cr3 (endAddr vma) fuel (startAddr vma) s = some s' ∧ RemovesOnly s cr3 vma s' := by
  obtain ⟨hstart, hend, hfirst, hnum⟩ := area_facts hproper hlow hlt
  have hto := toNat_page (n := firstPage vma) (by omega)
  have hnone : ∀ a : Word, a.toNat / 4096 < firstPage vma → leaf s.mem cr3 a = none := by
    intro a ha
    by_contra hmapped
    have := honly a (lt_def.2 (by omega)) hmapped
    omega
  -- the pages wholly inside that are mapped are the first one
  have hpage : ∀ a e, Inside vma a → leaf s.mem cr3 a = some e → SamePage a (ofNat 64 (4096 * firstPage vma)) := by
    intro a e hin he
    rw [inside_iff] at hin
    have heq := honly a (lt_def.2 (by omega)) (by rw [he]; exact some_ne_none e)
    exact (samePage_iff_div (by omega) (by omega)).2 (by omega)
  have hin : Inside vma (ofNat 64 (4096 * firstPage vma)) := inside_iff.2 ⟨by omega, by omega⟩
  have hslot : indexPml4e (ofNat 64 (4096 * firstPage vma)) ≠ selfRefEntry := lower_slot (by omega)
  rw [hstart, unmapLoop_first h (by omega) (by omega) (by omega) hnone]
  cases he : leaf s.mem cr3 (ofNat 64 (4096 * firstPage vma)) with
  | none =>
    refine ⟨s, unmapPage_absent h hslot he, fun a e _ hina hea => ?_, fun _ _ _ => rfl, fun _ _ _ _ _ _ => rfl⟩
    rw [leaf_samePage (hpage a e hina hea), he] at hea
    cases hea
  | some e =>
    obtain ⟨s1, hs1, -, hgone, hkept, hdesc⟩ :=
      unmapPage_present h hslot (kmallocOk (ofNat 64 (4096 * firstPage vma))) he
    refine ⟨s1, hs1, fun a e' _ hina hea => ?_, fun a hc hout => ?_, fun a e' _ _ _ hne => ?_⟩
    · have hsame := hpage a e' hina hea
      rw [leaf_samePage hsame, he] at hea
      cases hea
      rw [leaf_samePage hsame, getPhysPageDesc_eq (next_aligned e), getPhysPageDesc_eq (next_aligned e),
        hdesc _ (next_aligned e), if_pos rfl]
      exact ⟨hgone, rfl⟩
    · refine hkept a fun hsame => hout ?_
      rcases hc with hc | hc
      · have heq := (samePage_iff_div hc (by omega)).1 hsame
        exact inside_iff.2 ⟨by omega, by omega⟩
      · exact absurd hsame (not_samePage_upper hc (by omega))
    · have hframe := hne _ e (.inl (by omega)) hin he
      rw [getPhysPageDesc_eq (next_aligned e'), getPhysPageDesc_eq (next_aligned e'), hdesc _ (next_aligned e'),
        if_neg hframe.symm]

end Area

def onePage (virt : Word) : Mach := (updatePageTableIdmap (emptyMach [⟨0x2000, 3⟩] 0) 0x1000 0x7000 virt 7).1

private theorem onePage_spec (hv : indexPml4e a ≠ selfRefEntry)
    (hc : missing (emptyMach [⟨0x2000, 3⟩] 0).mem 0x1000 a ≤ freeCount (emptyMach [⟨0x2000, 3⟩] 0).pages) :
    WellFormed (· ≠ selfRefEntry) (onePage a) (· = 0x1000) ∧ SelfRef (onePage a) 0x1000 ∧
      ∀ b, indexPml4e b ≠ selfRefEntry → ¬ SamePage b a → leaf (onePage a).mem 0x1000 b = none := by
  obtain ⟨s', pt, hg, hpt, -, hs'⟩ := updatePageTableIdmap_spec (r := 0x1000) wellFormed_emptyMach rfl hv 0x7000 7 hc
  have hpage : onePage a = s'.store pt (indexPte a) (leafEntry 0x7000 7) := by
    unfold onePage
    rw [hs']
  have hself : SelfRef s' 0x1000 := (selfRef_emptyMach _ _).congr (hg.slots rfl fun hne => hne rfl)
  have ht := (Tables.of_wellFormed hg.wf hself).store (w := leafEntry 0x7000 7) (i := indexPte a) hv hpt
  rw [hpage]
  refine ⟨hg.wf.store rfl (tablePath_ok hv) rfl hpt, ht.self, fun b hb hne => ?_⟩
  rw [leaf_eq_of_leafWord ((leafWord_store hg rfl hv hpt).2 0x1000 b rfl hb fun hc => hne hc.2)]
  -- nothing is mapped in the empty table
  have hzero : (emptyMach [⟨0x2000, 3⟩] 0).mem 0x1000 (indexPml4e b) = 0 := if_neg fun hc => hb hc.2
  unfold leaf tablePath
  rw [Radix.lookup_cons, hzero]
  rfl

/-- For an area of the lower half, or one without a whole page: `munmap` removes the area and unmaps what lies wholly
inside it, and nothing else, exactly if no page below the end of the area but its first whole page is mapped. -/
theorem munmap_removes_iff (kmallocOk : Word → Bool) (s : Mach) (cr3 : Nat)
    (hw : WellFormed (· ≠ selfRefEntry) s (· = cr3)) (hself : SelfRef s cr3) (mmap : List VmArea) (hvalid : Valid mmap)
    (vma : VmArea) (hvma : vma ∈ mmap) (addr : Word) (h1 : vma.vmStart ≤ addr) (h2 : addr < vma.vmEnd)
    (hlow : startAddr vma < endAddr vma → vma.vmEnd.toNat ≤ 2 ^ 47) :
    (∃ s', munmap kmallocOk s cr3 mmap addr = some (s', mmap.erase vma) ∧ RemovesOnly s cr3 vma s') ↔
      (startAddr vma < endAddr vma → OnlyFirst s cr3 vma) := by
  have ht := Tables.of_wellFormed hw hself
  have hproper := hvalid.proper vma hvma
  have hcall : ∀ s', munmap kmallocOk s cr3 mmap addr = some (s', mmap.erase vma) ↔
      unmapLoop kmallocOk cr3 (endAddr vma) (2 ^ 52 + 1) (startAddr vma) s = some s' := by
    intro s'
    unfold munmap
    rw [munmap_spec hvalid hvma h1 h2, bind_some]
    simp
  simp only [hcall]
  constructor
  · intro ⟨s', hs', hr⟩ hlt
    exact onlyFirst_of_removes ht hproper (hlow hlt) hlt (by decide) hs' hr
  · intro honly
    by_cases hlt : startAddr vma < endAddr vma
    · exact removes_of_onlyFirst ht hproper (hlow hlt) hlt (by decide) (honly hlt)
    · refine ⟨s, ?_, fun a e _ hin _ => absurd hin (not_inside hproper hlt), fun _ _ _ => rfl, fun _ _ _ _ _ _ => rfl⟩
      rw [unmapLoop, if_neg hlt]

theorem munmap_removes_first : ∃ s', munmap (fun _ => true) (onePage 0x400000) 0x1000
    [⟨0x200000, 0x201000, 6, 0, 0⟩, ⟨0x400000, 0x402000, 6, 0, 0⟩] 0x400010 =
    some (s', [⟨0x200000, 0x201000, 6, 0, 0⟩]) ∧
    RemovesOnly (onePage 0x400000) 0x1000 ⟨0x400000, 0x402000, 6, 0, 0⟩ s' := by
  obtain ⟨hw, hself, hother⟩ := onePage_spec (a := 0x400000) (by decide) (by decide +kernel)
  refine (munmap_removes_iff (fun _ => true) (onePage 0x400000) 0x1000 hw hself
    [⟨0x200000, 0x201000, 6, 0, 0⟩, ⟨0x400000, 0x402000, 6, 0, 0⟩] ⟨by decide, by decide⟩ ⟨0x400000, 0x402000, 6, 0, 0⟩
    (by decide) 0x400010 (by decide) (by decide) fun _ => by decide).2 fun _ a ha hmapped => ?_
  have hlow : a.toNat < 2 ^ 47 := by
    have hlt := lt_def.1 ha
    have hend : (endAddr ⟨0x400000, 0x402000, 6, 0, 0⟩).toNat = 0x402000 := by decide
    omega
  by_contra hne
  refine hmapped (hother a (lower_slot hlow) fun hsame => hne ?_)
  exact (samePage_iff_div hlow (by decide)).1 hsame

/-- A page of another area, two pages below, is unmapped. -/
theorem munmap_unmaps_below : ¬ ∀ (kmallocOk : Word → Bool) (s : Mach) (cr3 : Nat),
    WellFormed (· ≠ selfRefEntry) s (· = cr3) → SelfRef s cr3 → ∀ (mmap : List VmArea), Valid mmap → ∀ vma ∈ mmap,
    ∀ addr, vma.vmStart ≤ addr → addr < vma.vmEnd →
      ∃ s', munmap kmallocOk s cr3 mmap addr = some (s', mmap.erase vma) ∧ RemovesOnly s cr3 vma s' := by
  intro h
  obtain ⟨hw, hself, -⟩ := onePage_spec (a := 0x1000) (by decide) (by decide +kernel)
  obtain ⟨s', hs', hr⟩ := h (fun _ => true) (onePage 0x1000) 0x1000 hw hself
    [⟨0x1000, 0x2000, 6, 0, 0⟩, ⟨0x3000, 0x5000, 6, 0, 0⟩] ⟨by decide, by decide⟩ ⟨0x3000, 0x5000, 6, 0, 0⟩
      (by decide) 0x3000
    (by decide) (by decide)
  have hgone : (munmap (fun _ => true) (onePage 0x1000) 0x1000
      [⟨0x1000, 0x2000, 6, 0, 0⟩, ⟨0x3000, 0x5000, 6, 0, 0⟩] 0x3000).all
        (fun x => decide (leaf x.1.mem 0x1000 0x1000 = none)) = true := by decide +kernel
  have hmapped : leaf (onePage 0x1000).mem 0x1000 0x1000 ≠ none := by decide +kernel
  rw [hs'] at hgone
  rw [← hr.outside 0x1000 (.inl (by decide)) fun hin => absurd hin.1 (by decide)] at hmapped
  exact hmapped (of_decide_eq_true hgone)

end Adix.Vma.Unmap
