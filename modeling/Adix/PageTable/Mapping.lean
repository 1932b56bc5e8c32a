import Adix.PageTable.Tables

/-!
# Mapping a page

`update_page_table_idmap` makes the objects that are missing on the way to the address, and writes one word of the last
level.
-/

namespace Adix.PageTable

open List Option BitVec
open PhysPages (freeCount)
open Radix (walk word)

def tablePath (virt : Word) : List Index := [indexPml4e virt, indexPdpe virt, indexPde virt]

/-- The word for a virtual address in its page table, if there is such a table. -/
def leafWord (m : Memory) (pml4 : Nat) (virt : Word) : Option Word :=
  word entryFormat m pml4 (tablePath virt) (indexPte virt)

/-- The entry for a virtual address, if it is mapped. -/
def leaf (m : Memory) (pml4 : Nat) (virt : Word) : Option Word :=
  Radix.lookup entryFormat m pml4 (tablePath virt) (indexPte virt)

def missing (m : Memory) (pml4 : Nat) (virt : Word) : Nat :=
  lack m pml4 [indexPml4e virt] + lack m pml4 [indexPml4e virt, indexPdpe virt] + lack m pml4 (tablePath virt)

/-- The two addresses are in the same page: they agree in bits 47 to 12. -/
def SamePage (v v' : Word) : Prop := ∀ k, 12 ≤ k → k ≤ 47 → v.getLsbD k = v'.getLsbD k

variable {s s' : Mach} {R : Nat → Prop} {r r' pml4 pt q : Nat} {virt virt' phys perm v v' w : Word} {k : Nat}
  {K : Index → Prop} {m : Memory}

private theorem getLsbD_indexPml4e (v : Word) (hk : k < 9) : (indexPml4e v).getLsbD k = v.getLsbD (39 + k) := by
  unfold indexPml4e
  interval_cases k <;> simp

theorem indexPml4e_top (hv : 2 ^ 64 - 2 ^ 39 ≤ v.toNat) : indexPml4e v = pml4KernelEntry := by
  apply eq_of_getLsbD_eq
  intro k hk
  have hone : v.getLsbD (39 + k) = true := by
    show v.toNat.testBit (39 + k) = true
    rw [Nat.testBit_eq_decide_div_mod_eq, decide_eq_true_eq]
    interval_cases k <;> omega
  rw [getLsbD_indexPml4e v hk, hone]
  interval_cases k <;> rfl

private theorem getLsbD_indexPdpe (v : Word) (hk : k < 9) : (indexPdpe v).getLsbD k = v.getLsbD (30 + k) := by
  unfold indexPdpe
  interval_cases k <;> simp

private theorem getLsbD_indexPde (v : Word) (hk : k < 9) : (indexPde v).getLsbD k = v.getLsbD (21 + k) := by
  unfold indexPde
  interval_cases k <;> simp

private theorem getLsbD_indexPte (v : Word) (hk : k < 9) : (indexPte v).getLsbD k = v.getLsbD (12 + k) := by
  unfold indexPte
  interval_cases k <;> simp

private theorem index_eq_iff {index : Word → Index} {n : Nat}
    (h : ∀ {k} v, k < 9 → (index v).getLsbD k = v.getLsbD (n + k)) :
    index v = index v' ↔ ∀ k, n ≤ k → k < n + 9 → v.getLsbD k = v'.getLsbD k := by
  constructor
  · intro he k hk hk'
    have hb := congrArg (fun x : Index => x.getLsbD (k - n)) he
    rwa [h v (by omega), h v' (by omega), Nat.add_sub_of_le hk] at hb
  · intro hb
    apply eq_of_getLsbD_eq
    intro k hk
    rw [h v hk, h v' hk, hb _ (by omega) (by omega)]

/-- Addresses of one page have the same indices. -/
theorem samePage_iff : SamePage v v' ↔ tablePath v = tablePath v' ∧ indexPte v = indexPte v' := by
  unfold tablePath
  simp only [cons.injEq, and_true]
  rw [index_eq_iff getLsbD_indexPml4e, index_eq_iff getLsbD_indexPdpe, index_eq_iff getLsbD_indexPde,
    index_eq_iff getLsbD_indexPte]
  constructor
  · intro h
    refine ⟨⟨?_, ?_, ?_⟩, ?_⟩ <;> exact fun k hk hk' => h k (by omega) (by omega)
  · rintro ⟨⟨h4, h3, h2⟩, h1⟩ k hk hk'
    -- the level to which the bit belongs
    have hlevel : 39 ≤ k ∨ 30 ≤ k ∧ k < 39 ∨ 21 ≤ k ∧ k < 30 ∨ k < 21 := by omega
    rcases hlevel with hl | ⟨hl, hu⟩ | ⟨hl, hu⟩ | hl
    · exact h4 k hl (by omega)
    · exact h3 k hl hu
    · exact h2 k hl hu
    · exact h1 k hk hl

theorem exists_virt (a b c d : Index) : ∃ v, tablePath v = [a, b, c] ∧ indexPte v = d := by
  refine ⟨a.setWidth 64 <<< 39 ||| b.setWidth 64 <<< 30 ||| c.setWidth 64 <<< 21 ||| d.setWidth 64 <<< 12, ?_⟩
  simp only [tablePath, cons.injEq, and_true]
  refine ⟨⟨?_, ?_, ?_⟩, ?_⟩ <;>
    (apply eq_of_getLsbD_eq
     intro k hk)
  · rw [getLsbD_indexPml4e _ hk]
    interval_cases k <;> simp
  · rw [getLsbD_indexPdpe _ hk]
    interval_cases k <;> simp
  · rw [getLsbD_indexPde _ hk]
    interval_cases k <;> simp
  · rw [getLsbD_indexPte _ hk]
    interval_cases k <;> simp

theorem tablePath_ok (hv : K (indexPml4e virt)) : TablePath K (tablePath virt) :=
  ⟨by simp [tablePath], fun _ hi => some.inj hi ▸ hv⟩

theorem missing_le (m : Memory) (pml4 : Nat) (virt : Word) : missing m pml4 virt ≤ 3 := by
  have hlack : ∀ σ, lack m pml4 σ ≤ 1 := by
    intro σ
    unfold lack
    cases walk entryFormat m pml4 σ with
    | none => exact Nat.le_refl 1
    | some q => exact Nat.zero_le 1
  have h1 := hlack [indexPml4e virt]
  have h2 := hlack [indexPml4e virt, indexPdpe virt]
  have h3 := hlack (tablePath virt)
  unfold missing
  omega

theorem virt2physIdmap_eq : virt2physIdmap s pml4 virt = ((leaf s.mem pml4 virt).map entryAddr).getD (-1) := by
  unfold virt2physIdmap leaf tablePath
  simp only [Radix.lookup_cons, Radix.Format.bind_link, Radix.lookup_nil, not_present_iff]
  split_ifs <;> simp_all

/-- With enough free pages, the missing objects are made, and one word is stored in the page table. -/
theorem updatePageTableIdmap_spec (hw : WellFormed K s R) (hr : R r) (hv : K (indexPml4e virt))
    (phys perm : Word) (hc : missing s.mem r virt ≤ freeCount s.pages) :
    ∃ s' pt, Grows K R s s' ∧ walk entryFormat s'.mem r (tablePath virt) = some pt ∧
      freeCount s.pages ≤ freeCount s'.pages + missing s.mem r virt ∧
      updatePageTableIdmap s r phys virt perm = (s'.store pt (indexPte virt) (leafEntry phys perm), 0) := by
  have hpath := tablePath_ok hv
  have hp2 : TablePath K ([indexPml4e virt] ++ [indexPdpe virt]) := TablePath.left _ [indexPde virt] hpath
  have hp1 : TablePath K ([] ++ [indexPml4e virt]) := TablePath.left _ [indexPdpe virt] hp2
  unfold missing at hc ⊢
  obtain ⟨s1, pdp, e1, g1, w1, c1⟩ := nextTable_spec (t := r) hw hr hp1 rfl (by rw [nil_append]; omega)
  rw [nil_append] at c1 w1
  have l2 : lack s1.mem r ([indexPml4e virt] ++ [indexPdpe virt]) ≤ _ := g1.lack_le hr hp2
  obtain ⟨s2, pd, e2, g2, w2, c2⟩ := nextTable_spec g1.wf hr hp2 w1 (by
    rw [singleton_append] at l2 ⊢
    omega)
  have g12 := g1.trans hw g2
  have l3 : lack s2.mem r (tablePath virt) ≤ _ := g12.lack_le hr hpath
  rw [singleton_append] at l2 c2
  obtain ⟨s3, pt, e3, g3, w3, c3⟩ := nextTable_spec (i := indexPde virt) g2.wf hr hpath w2 (by
    show lack s2.mem r (tablePath virt) ≤ _
    omega)
  change _ + lack s2.mem r (tablePath virt) = _ at c3
  refine ⟨s3, pt, g12.trans hw g3, w3, by omega, ?_⟩
  unfold updatePageTableIdmap
  rw [e1]
  dsimp only
  rw [e2]
  dsimp only
  rw [e3]

/-- The word of this page is the one stored, and those of all other pages are as before, or new and zero. -/
theorem leafWord_store (hg : Grows K R s s') (hr : R r) (hv : K (indexPml4e virt))
    (hpt : walk entryFormat s'.mem r (tablePath virt) = some pt) :
    leafWord (s'.store pt (indexPte virt) w).mem r virt = some w ∧
      ∀ r' v, R r' → K (indexPml4e v) → ¬ (r' = r ∧ SamePage v virt) →
        leafWord (s'.store pt (indexPte virt) w).mem r' v = leafWord s.mem r' v ∨
          leafWord s.mem r' v = none ∧ leafWord (s'.store pt (indexPte virt) w).mem r' v = some 0 := by
  have hpath := tablePath_ok hv
  have hwalk : ∀ r' v, R r' → K (indexPml4e v) → walk entryFormat (s'.store pt (indexPte virt) w).mem r' (tablePath v) =
        walk entryFormat s'.mem r' (tablePath v) :=
    fun r' v hr' hv' => walk_store hg.wf hr hpath rfl hpt hr' (tablePath_ok hv')
  unfold leafWord word
  constructor
  · rw [hwalk r virt hr hv, hpt, map_some, Mach.store_mem, if_pos ⟨rfl, rfl⟩]
  · intro r' v hr' hv' hne
    have hpath' := tablePath_ok hv'
    rw [hwalk r' v hr' hv']
    cases hq : walk entryFormat s'.mem r' (tablePath v) with
    | none =>
      left
      cases hs : walk entryFormat s.mem r' (tablePath v) with
      | none => rfl
      | some q => exact absurd (hq.symm.trans (hg.keeps hr' hpath' hs)) (by simp)
    | some q =>
      have hother : ¬ (q = pt ∧ indexPte v = indexPte virt) := by
        rintro ⟨rfl, hi⟩
        exact hne ⟨hg.wf.forest.root_eq hr' hr hpath' hpath hq hpt,
          samePage_iff.2 ⟨hg.wf.forest.path_eq hr' hr hpath' hpath hq hpt, hi⟩⟩
      rw [map_some, Mach.store_mem, if_neg hother]
      obtain hs | ⟨hs, -, hz⟩ := hg.adds hr' hpath' hq
      · left
        rw [hs, map_some, hg.words hr' hpath' rfl hs]
      · right
        rw [hs, hz rfl]
        exact ⟨rfl, rfl⟩

/-- The store keeps what is outside the tables, unless the page has been taken for one. -/
theorem Grows.store_outside (hg : Grows K R s s') (hr : R r) (hv : K (indexPml4e virt))
    (hpt : walk entryFormat s'.mem r (tablePath virt) = some pt) (hq : ¬ IsTable K s R q)
    (hf : Free s q → Free s' q) : (s'.store pt (indexPte virt) w).mem q = s.mem q := by
  funext j
  rw [Mach.store_mem, if_neg, hg.outside q hq hf]
  rintro ⟨rfl, -⟩
  rcases hg.isTable ⟨r, _, hr, tablePath_ok hv, hpt⟩ with h | h
  · exact hq h
  · exact h.2 (hf h.1)

theorem leaf_samePage (h : SamePage v v') : leaf m pml4 v = leaf m pml4 v' := by
  obtain ⟨hpath, hindex⟩ := samePage_iff.1 h
  unfold leaf
  rw [hpath, hindex]

theorem leaf_eq_filter : leaf m pml4 v = (leafWord m pml4 v).filter entryFormat.present := rfl

theorem leaf_eq_of_leafWord {m' : Memory}
    (h : leafWord m' pml4 v = leafWord m pml4 v ∨ leafWord m pml4 v = none ∧ leafWord m' pml4 v = some 0) :
    leaf m' pml4 v = leaf m pml4 v := by
  rw [leaf_eq_filter, leaf_eq_filter]
  obtain h | ⟨h, h'⟩ := h
  · rw [h]
  · rw [h, h']
    rfl

/-- After `update_page_table_idmap` the table is well-formed, the address is translated to the page with the flags asked
for, and the entry of every other page outside the self reference is as it was. -/
theorem map_lookup (s : Mach) (pml4 : Nat) (hw : WellFormed (· ≠ selfRefEntry) s (· = pml4)) (phys virt perm : Word)
    (hphys : PageAddr phys.toNat) (hv : indexPml4e virt ≠ selfRefEntry)
    (hc : missing s.mem pml4 virt ≤ freeCount s.pages) :
    ∃ s', updatePageTableIdmap s pml4 phys virt perm = (s', 0) ∧ WellFormed (· ≠ selfRefEntry) s' (· = pml4) ∧
      virt2physIdmap s' pml4 virt = phys ∧
      (∃ e, leaf s'.mem pml4 virt = some e ∧ pageTransNonAddrFields e = pageTransNonAddrFields
        perm ||| pageTransPresent) ∧
      ∀ virt', indexPml4e virt' ≠ selfRefEntry → ¬ SamePage virt' virt →
        virt2physIdmap s' pml4 virt' = virt2physIdmap s pml4 virt' ∧ leaf s'.mem pml4 virt' = leaf s.mem pml4 virt' ∧
        (leafWord s'.mem pml4 virt' = leafWord s.mem pml4 virt' ∨
          leafWord s.mem pml4 virt' = none ∧ leafWord s'.mem pml4 virt' = some 0) := by
  obtain ⟨s1, pt, hg, hpt, -, he⟩ := updatePageTableIdmap_spec hw rfl hv phys perm hc
  obtain ⟨h1, h2⟩ := leafWord_store (w := leafEntry phys perm) hg rfl hv hpt
  have hleaf : leaf (s1.store pt (indexPte virt) (leafEntry phys perm)).mem pml4 virt = some (leafEntry phys perm) := by
    rw [leaf_eq_filter, h1, filter_some, present_leafEntry]
    rfl
  refine ⟨_, he, hg.wf.store rfl (tablePath_ok hv) rfl hpt, ?_, ⟨_, hleaf, nonAddrFields_leafEntry hphys⟩, ?_⟩
  · rw [virt2physIdmap_eq, hleaf]
    exact entryAddr_leafEntry hphys
  · intro virt' hv' hne
    have hword := h2 pml4 virt' rfl hv' fun h => hne h.2
    have hsame := leaf_eq_of_leafWord hword
    exact ⟨by rw [virt2physIdmap_eq, virt2physIdmap_eq, hsame], hsame, hword⟩

/-- PML4s without entries are well-formed. -/
theorem wellFormed_empties (hempty : ∀ r, R r → ∀ i, i ≠ selfRefEntry → s.mem r i = 0)
    (hroots : ∀ r, R r → PageAddr r ∧ r ≠ 0 ∧ ¬ Free s r) (hfree : ∀ q, Free s q → PageAddr q)
    (hlisted : PhysPages.Listed s.pages) (hwin : ∀ q, Free s q → q + s.base.toNat < 2 ^ 64) :
    WellFormed (· ≠ selfRefEntry) s R := by
  -- only the PML4s themselves are reached
  have hroot : ∀ {r σ q}, R r → TablePath (· ≠ selfRefEntry) σ → walk entryFormat s.mem r σ = some q →
      σ = [] ∧ q = r := by
    intro r σ q hr hσ hwalk
    cases σ with
    | nil => exact ⟨rfl, (some.inj hwalk).symm⟩
    | cons i σ =>
      rw [Radix.walk_cons, hempty r hr i (hσ.2 i rfl), link_zero] at hwalk
      cases hwalk
  refine ⟨⟨?_, ?_⟩, ?_, hfree, hlisted, hwin⟩
  · intro r r' σ τ q hr hr' hσ hτ w1 w2
    exact (hroot hr hσ w1).2.symm.trans (hroot hr' hτ w2).2
  · intro r r' σ τ q hr hr' hσ hτ w1 w2
    rw [(hroot hr hσ w1).1, (hroot hr' hτ w2).1]
  · intro q ⟨r, σ, hr, hσ, hwalk⟩
    obtain ⟨-, rfl⟩ := hroot hr hσ hwalk
    exact hroots q hr

theorem wellFormed_empty (hempty : ∀ i, i ≠ selfRefEntry → s.mem pml4 i = 0) (hp : PageAddr pml4) (h0 : pml4 ≠ 0)
    (hfree : ∀ q, Free s q → PageAddr q) (hnot : ¬ Free s pml4) (hlisted : PhysPages.Listed s.pages)
    (hwin : ∀ q, Free s q → q + s.base.toNat < 2 ^ 64) : WellFormed (· ≠ selfRefEntry) s (· = pml4) :=
  wellFormed_empties (fun _ hr => hr ▸ hempty) (fun _ hr => hr ▸ ⟨hp, h0, hnot⟩) hfree hlisted hwin

theorem wellFormed_run {m : Memory} {cs : List PhysPages.Chunk} {b n : Nat}
    (hempty : ∀ i, i ≠ selfRefEntry → m 0x1000 i = 0)
    (hn : 0 < n) (hb : b % 4096 = 0) (h0 : 0x1000 < b) (hs : b + 4096 * n < 2 ^ 51) :
    WellFormed (· ≠ selfRefEntry) ⟨m, ⟨cs, [⟨b, n⟩]⟩, 0⟩ (· = 0x1000) := by
  have hrun : ∀ q, Free ⟨m, ⟨cs, [⟨b, n⟩]⟩, 0⟩ q → _ := fun q hq => PhysPages.covers_run hb hq
  refine wellFormed_empty hempty ⟨rfl, by decide⟩ (by decide) (fun q hq => ?_) (fun hq => ?_)
    (PhysPages.listed_run hn hb (by omega) (by omega)) fun q hq => ?_
  · have := hrun q hq
    exact ⟨this.1, by omega⟩
  · have := hrun _ hq
    omega
  · have := hrun q hq
    show q + 0 < 2 ^ 64
    omega

def emptyMach (runs : List PhysPages.PhysFree) (base : Word) : Mach where
  mem p i := if p = 0x1000 ∧ i = selfRefEntry then 0x1003 else 0
  pages := ⟨[{ physAddrStart := 0x1000, physAddrEnd := 0x5000,
               physPagePointer := [⟨1, 0⟩, ⟨0, 0⟩, ⟨0, 0⟩, ⟨0, 0⟩],
               aligned := rfl, length := by simp [PhysPages.sizeofPage], nonempty := by decide,
               fits := by simp [PhysPages.addrSpace] }], runs⟩
  base := base

theorem wellFormed_emptyMach : WellFormed (· ≠ selfRefEntry) (emptyMach [⟨0x2000, 3⟩] 0) (· = 0x1000) :=
  wellFormed_run (fun _ hi => if_neg fun h => hi h.2) (by decide) (by decide) (by decide) (by decide)

theorem map_lookup_first : missing (emptyMach [⟨0x2000, 3⟩] 0).mem 0x1000 0x400000 = 3 ∧
      ∃ s', updatePageTableIdmap (emptyMach [⟨0x2000, 3⟩] 0) 0x1000 0x7000 0x400000 6 = (s', 0) ∧
        WellFormed (· ≠ selfRefEntry) s' (· = 0x1000) ∧ virt2physIdmap s' 0x1000 0x400000 = 0x7000 := by
  obtain ⟨s', he, hwf, hphys, -⟩ := map_lookup (emptyMach [⟨0x2000, 3⟩] 0) 0x1000 wellFormed_emptyMach 0x7000 0x400000 6
    ⟨rfl, by decide⟩ (by decide) (by decide +kernel)
  exact ⟨by decide +kernel, s', he, hwf, hphys⟩

/-- Slot 256 leads through the tables themselves: mapping the page at `0` makes three objects, and `0xffff800000000000`,
which was not mapped, now leads to the last of them. -/
theorem selfref_translation_changes : WellFormed (· ≠ selfRefEntry) (emptyMach [⟨0x2000, 3⟩] 0) (· = 0x1000) ∧
      missing (emptyMach [⟨0x2000, 3⟩] 0).mem 0x1000 0 ≤ freeCount (emptyMach [⟨0x2000, 3⟩] 0).pages ∧
      ¬ SamePage 0xffff800000000000 0 ∧ virt2physIdmap (emptyMach [⟨0x2000, 3⟩] 0) 0x1000 0xffff800000000000 = -1 ∧
      virt2physIdmap (updatePageTableIdmap (emptyMach [⟨0x2000, 3⟩] 0) 0x1000 0x7000 0 6).1 0x1000
        0xffff800000000000 = 0x4000 := by
  refine ⟨wellFormed_emptyMach, by decide +kernel, fun h => ?_, by decide +kernel, by decide +kernel⟩
  have := h 47 (by decide) (by decide)
  revert this
  decide

end Adix.PageTable
