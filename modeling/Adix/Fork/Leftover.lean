import Adix.Fork.Table

/-!
# What is left over in the pages of a copy

Where the walk of the parent ends, a page of the copy has the word that it had before the fork, and the walk of the
child goes on from there.
-/

namespace Adix.Fork

open PageTable PhysPages Radix List Option

variable {s s' s₁ : Mach} {m m' : Memory} {parent child q t d k : Nat} {virt w left : Word} {σ ρ : List Index}
  {i : Index}

/-- No page that is free has an entry, as when the free pages are filled with zeros. -/
def FreeClean (s : Mach) : Prop := ∀ q, Free s q → ∀ j, entryFormat.present (s.mem q j) = false

private theorem tables_self : TablesIn 4 m parent (UserTable m parent) := fun σ _ hσ hq => ⟨σ, hσ, hq⟩

private theorem leaf_isSome_lowered (hlow : Lowers (UserTable m parent) m m') (hv : UserSlot (indexPml4e virt)) :
    (leaf m' parent virt).isSome = (leaf m parent virt).isSome := by
  obtain ⟨hlast, -⟩ := below_pagePath (ρ := []) hv rfl
  unfold leaf Radix.lookup word
  rw [walk_lowered tables_self hlow hlast]
  cases ht : walk entryFormat m parent (tablePath virt) with
  | none => rfl
  | some t =>
    have hp := (hlow t ⟨_, hlast, ht⟩ (indexPte virt)).present_eq
    simp only [map_some, filter_some, hp]
    split <;> rfl

private theorem read_absent (hp : entryFormat.present w = false) : read entryFormat m w ρ = none := by
  cases hr : read entryFormat m w ρ with
  | none => rfl
  | some e =>
    rw [read_eq_some hr] at hp
    cases hp

section OtherContents

variable (hc : Current s parent) (h : AgreeOn (fun q => ¬ Free s q) s s₁)
include hc h

private theorem AgreeOn.lowers : Lowers (UserTable s.mem parent) s.mem s₁.mem := by
  intro q hq j
  rw [h.mem_eq q (hc.table q hq).2]
  exact Lowered.refl _

/-- What the free pages contain does not matter for the table of the current process. -/
theorem AgreeOn.current : Current s₁ parent := by
  have hfree : ∀ q, Free s₁ q ↔ Free s q := fun q => by
    unfold Free
    rw [h.pages_eq]
  refine ⟨?_, ?_, fun q hq => hc.free q ((hfree q).1 hq), by rw [h.pages_eq]; exact hc.listed⟩
  · exact hc.self.congr (congrFun (h.mem_eq parent (hc.table parent ⟨[], Below.nil, rfl⟩).2) _)
  · rintro q ⟨σ, hσ, hq⟩
    rw [walk_lowered tables_self (h.lowers hc) hσ] at hq
    obtain ⟨h0, hnot⟩ := hc.table q ⟨σ, hσ, hq⟩
    exact ⟨h0, fun hf => hnot ((hfree q).1 hf)⟩

end OtherContents

section After

variable (hf : ForkedTable s parent s' child)
include hf

/-- The pages of the copy below its PML4 were free before. -/
theorem ForkedTable.taken (hσ : σ ≠ []) (hb : Below 4 σ) (ht : walk entryFormat s'.mem parent σ = some t)
    (hd : walk entryFormat s'.mem child σ = some d) : d ≠ child ∧ Free s d := by
  obtain ⟨d', hd', hown, -⟩ := hf.copy.node σ t hb ht
  cases hd.symm.trans hd'
  have hne : d ≠ child := by
    rintro rfl
    exact hσ (hf.copy.inj σ [] t parent d hb Below.nil ht rfl hd rfl)
  exact ⟨hne, (hown.resolve_left hne).1⟩

variable (hc : Current s parent) (hv : UserSlot (indexPml4e virt))

include hc in
private theorem ForkedTable.lowers : Lowers (UserTable s.mem parent) s.mem s'.mem := by
  intro q hq
  obtain ⟨h0, hnot⟩ := hc.table q hq
  refine hf.lowered q ?_ fun hfree => absurd hfree hnot
  rintro rfl
  rcases hf.page with hzero | hpage
  · exact h0 hzero
  · exact hnot hpage.1

include hv in
/-- If each word left over that the walk of the child comes to is no entry, the child translates the address as the
parent does. -/
private theorem ForkedTable.agrees_of_absent (h : ∀ k σ i ρ t d, pagePath virt = k :: σ ++ i :: ρ →
      walk entryFormat s'.mem parent (k :: σ) = some t → Free s d → entryFormat.present (s.mem d i) = false) :
    Agrees s'.mem parent child virt := by
  rw [hf.agrees_iff hv]
  intro σ i ρ t d hpath ht _ hd
  obtain ⟨hb, hslots⟩ := below_pagePath hv hpath
  apply read_absent
  unfold startMem
  cases σ with
  | nil =>
    -- the PML4 of the child has been cleared
    obtain rfl : child = d := some.inj hd
    rw [if_pos rfl, if_neg (hslots rfl i rfl).1]
    decide
  | cons k σ =>
    obtain ⟨hne, hfree⟩ := hf.taken (cons_ne_nil k σ) hb ht hd
    rw [if_neg hne]
    exact h k σ i ρ t d hpath ht hfree

include hc hv in
/-- The child translates each address that the parent maps, and each address without an entry in the PML4, as the parent
does. -/
theorem ForkedTable.agrees_of_mapped
    (h : (leaf s.mem parent virt).isSome ∨ entryFormat.present (s.mem parent (indexPml4e virt)) = false) :
    Agrees s'.mem parent child virt := by
  have hlow := hf.lowers hc
  rcases h with h | h
  · rw [← leaf_isSome_lowered hlow hv] at h
    obtain ⟨e, he⟩ := isSome_iff_exists.1 h
    exact hf.agrees hv he
  · refine hf.agrees_of_absent hv fun k σ i ρ t d hpath ht _ => ?_
    obtain ⟨rfl, -⟩ := cons.inj (show indexPml4e virt :: _ = k :: _ from hpath)
    have hp := present_of_walk ht
    rw [(hlow parent ⟨[], Below.nil, rfl⟩ _).present_eq, h] at hp
    cases hp

/-- When the words left over lead to their own page, the walk of the child goes on to the last level. -/
private theorem ForkedTable.read_isSome (hfill : ∀ q, Free s q → ∀ j, entryFormat.link (s.mem q j) = some q)
    (hσ : σ ≠ [])
    (hb : Below 4 σ) (ht : walk entryFormat s'.mem parent σ = some t) (hd : walk entryFormat s'.mem child σ = some d)
    (hw : entryFormat.link w = some d) (hlen : σ.length + ρ.length ≤ 3) : (read entryFormat s'.mem w ρ).isSome := by
  induction ρ generalizing σ t d w with
  | nil => simp [Radix.read, (Format.link_eq_some.1 hw).1]
  | cons k ρ ih =>
    rw [length_cons] at hlen
    have hslots : Slots 4 (σ ++ [k]) := by
      cases σ with
      | nil => exact absurd rfl hσ
      | cons i σ => exact hb.2
    have hb' : Below 4 (σ ++ [k]) := ⟨by rw [length_append, length_singleton]; omega, hslots⟩
    rw [Radix.read, hw, bind_some]
    cases hp : entryFormat.present (s'.mem t k) with
    | true =>
      -- the entry has been copied
      have ht' : walk entryFormat s'.mem parent (σ ++ [k]) = some (entryFormat.next (s'.mem t k)) := by
        rw [walk_snoc, ht, bind_some]
        exact Format.link_eq_some.2 ⟨hp, rfl⟩
      obtain ⟨d', hd', -⟩ := hf.copy.node _ _ hb' ht'
      have hlink : entryFormat.link (s'.mem d k) = some d' := by
        rw [walk_snoc, hd, bind_some] at hd'
        exact hd'
      exact ih (by simp) hb' ht' hd' hlink (by rw [length_append, length_singleton]; omega)
    | false =>
      obtain ⟨hne, hfree⟩ := hf.taken hσ hb ht hd
      obtain ⟨d', hd', -, hrow⟩ := hf.copy.node σ t hb ht
      cases hd.symm.trans hd'
      rw [hrow.old k hslots hp, startMem, if_neg hne]
      exact ih hσ hb ht hd (hfill d hfree k) (by omega)

include hc hv in
private theorem ForkedTable.child_maps (hfill : ∀ q, Free s q → ∀ j, entryFormat.link (s.mem q j) = some q)
    (hp : entryFormat.present (s.mem parent (indexPml4e virt)) = true) : (leaf s'.mem child virt).isSome := by
  cases he : leaf s'.mem parent virt with
  | some e =>
    rw [(hf.agrees hv he).leaf_eq, he]
    rfl
  | none =>
    obtain ⟨σ, j, ρ, t, (hpath : pagePath virt = σ ++ j :: ρ), ht, habsent⟩ := lookup_eq_none he
    obtain ⟨hb, -⟩ := below_pagePath hv hpath
    obtain ⟨d, hd, -⟩ := hf.copy.node σ t hb ht
    have hσ : σ ≠ [] := by
      rintro rfl
      obtain ⟨rfl, -⟩ := cons.inj (show indexPml4e virt :: _ = j :: ρ from hpath)
      obtain rfl : parent = t := some.inj ht
      rw [(hf.lowers hc parent ⟨[], Below.nil, rfl⟩ _).present_eq, hp] at habsent
      cases habsent
    obtain ⟨hne, hfree⟩ := hf.taken hσ hb ht hd
    rw [hf.leaf_old hv hpath ht habsent hd, startMem, if_neg hne]
    have hlen := congrArg List.length hpath
    simp only [pagePath, tablePath, length_append, length_cons, length_nil] at hlen
    exact hf.read_isSome hfill hσ hb ht hd (hfill d hfree j) (by omega)

end After

/-- An entry that leads to the page it is in. -/
private def ownEntry (q : Nat) : Word :=
  pageTransNonAddrFields pageTransPresent ||| pageTransNextLevelAddr (BitVec.ofNat 64 q)

/-- The free pages may be full of entries, each of which leads to its own page. -/
private theorem exists_filled (hc : Current s parent) : ∃ s₁, AgreeOn (fun q => ¬ Free s q) s s₁ ∧
    ∀ q, Free s₁ q → ∀ j, entryFormat.link (s₁.mem q j) = some q := by
  classical
  refine ⟨{ s with mem := fun q j => if Free s q then ownEntry q else s.mem q j }, ⟨rfl, rfl, fun q hq => ?_⟩,
    fun q hq j => ?_⟩
  · funext j
    exact if_neg hq
  · have hq' : Free s q := hq
    dsimp only
    rw [if_pos hq']
    exact link_copyEntry (hc.free q hq') (by decide)

/-- If no free page had an entry before a fork, the child translates a user address as the parent does, without write
permission. Whatever the free pages contain, this is so exactly when the parent maps the address or has no entry for it
in its PML4. -/
theorem fork_translates (s : Mach) (parent : Nat) (hc : Current s parent) (s' : Mach) (child : Nat)
    (h : cowForkPageTable s parent = some (s', some child)) (virt : Word) (hv : UserSlot (indexPml4e virt)) :
    (FreeClean s → Agrees s'.mem parent child virt) ∧
    ((∀ s₁ s₁' child₁, AgreeOn (fun q => ¬ Free s q) s s₁ → cowForkPageTable s₁ parent = some (s₁', some child₁) →
        Agrees s₁'.mem parent child₁ virt) ↔
      (leaf s.mem parent virt).isSome ∨ entryFormat.present (s.mem parent (indexPml4e virt)) = false) := by
  refine ⟨fun hclean => ?_, fun hall => ?_, fun hmapped s₁ s₁' child₁ hagree h₁ => ?_⟩
  · exact (cowForkPageTable_spec hc h).agrees_of_absent hv fun _ _ i _ _ d _ _ hfree => hclean d hfree i
  · cases hp : entryFormat.present (s.mem parent (indexPml4e virt)) with
    | false => exact .inr rfl
    | true =>
      left
      -- the fork does the same when the free pages are full of entries
      obtain ⟨s₁, hagree, hfill⟩ := exists_filled hc
      have hc₁ := hagree.current hc
      obtain ⟨s₁', h₁, -⟩ := hagree.cowForkPageTable hc hc₁ (fun q hq => (hc.table q hq).2) h
      have hf₁ := cowForkPageTable_spec hc₁ h₁
      have hp₁ : entryFormat.present (s₁.mem parent (indexPml4e virt)) = true := by
        rw [(hagree.lowers hc parent ⟨[], Below.nil, rfl⟩ _).present_eq, hp]
      rw [← leaf_isSome_lowered (hagree.lowers hc) hv, ← leaf_isSome_lowered (hf₁.lowers hc₁) hv,
        ← (hall s₁ s₁' child hagree h₁).leaf_eq]
      exact hf₁.child_maps hc₁ hv hfill hp₁
  · have hc₁ := hagree.current hc
    refine (cowForkPageTable_spec hc₁ h₁).agrees_of_mapped hc₁ hv ?_
    rw [leaf_isSome_lowered (hagree.lowers hc) hv, (hagree.lowers hc parent ⟨[], Below.nil, rfl⟩ _).present_eq]
    exact hmapped

def oneMapping (left : Word) : Mach where
  mem q i :=
    if i = 0 then
      if q = 0x1000 then 0x2007 else if q = 0x2000 then 0x3007 else if q = 0x3000 then 0x4007
      else if q = 0x4000 then 0x5007 else 0
    else if q = 0x1000 ∧ i = selfRefEntry then 0x1003
    else if q = 0x9000 ∧ i = 1 then left else 0
  pages := ⟨[{ physAddrStart := 0, physAddrEnd := 0xa000,
               physPagePointer := [⟨1, 0⟩, ⟨1, 0⟩, ⟨1, 0⟩, ⟨1, 0⟩, ⟨1, 0⟩, ⟨1, 0⟩, ⟨0, 0⟩, ⟨0, 0⟩, ⟨0, 0⟩, ⟨0, 0⟩],
               aligned := zero_aligned, length := by simp [sizeofPage], nonempty := by decide,
                 fits := by simp [addrSpace] }],
             [⟨0x6000, 4⟩]⟩
  base := 0

private theorem free_oneMapping (h : Free (oneMapping left) q) : q % 4096 = 0 ∧ 0x6000 ≤ q ∧ q < 0xa000 := by
  have := covers_run (by decide) h
  omega

private theorem link_oneMapping {p : Nat} (hk : 1 ≤ k) (hk' : k ≤ 3) (hi : k = 1 → i ≠ selfRefEntry)
    (h : entryFormat.link ((oneMapping left).mem (0x1000 * k) i) = some p) : p = 0x1000 * (k + 1) := by
  have hmem : (oneMapping left).mem (0x1000 * k) i = if i = 0 then BitVec.ofNat 64 (0x1000 * (k + 1) + 7) else 0 := by
    unfold oneMapping
    dsimp only
    by_cases h0 : i = 0
    · rw [if_pos h0, if_pos h0]
      interval_cases k <;> rfl
    · rw [if_neg h0, if_neg h0, if_neg fun h => hi (by omega) h.2, if_neg fun h => absurd h.1 (by omega)]
  rw [hmem] at h
  split at h
  · interval_cases k <;> (obtain rfl := some.inj h; decide)
  · rw [link_zero] at h
    cases h

private theorem walk_oneMapping (hk : 1 ≤ k) (hlen : k + σ.length ≤ 4) (hhead : k = 1 → σ.head? ≠ some selfRefEntry)
    (hw : walk entryFormat (oneMapping left).mem (0x1000 * k) σ = some q) : 0x1000 ≤ q ∧ q ≤ 0x4000 := by
  induction σ generalizing k with
  | nil =>
    obtain rfl : 0x1000 * k = q := some.inj hw
    rw [length_nil] at hlen
    omega
  | cons i σ ih =>
    rw [length_cons] at hlen
    rw [walk_cons] at hw
    obtain ⟨p, hp, hw⟩ := bind_eq_some_iff.1 hw
    obtain rfl := link_oneMapping hk (by omega) (fun h1 he => hhead h1 (by rw [he]; rfl)) hp
    exact ih (by omega) (by omega) (fun h1 => absurd h1 (by omega)) hw

private theorem current_oneMapping (left : Word) : Current (oneMapping left) 0x1000 := by
  refine ⟨?_, ?_, ?_, listed_run (by decide) (by decide) (by decide) (by decide)⟩
  · show hardwareFormat.link 0x1003 = some 0x1000
    decide
  · rintro q ⟨σ, hσ, hw⟩
    have hq := walk_oneMapping (k := 1) (by decide) (by have := hσ.1; omega) (fun _ h => (hσ.2 rfl _ h).1 rfl) hw
    refine ⟨by omega, fun hf => ?_⟩
    have := free_oneMapping hf
    omega
  · intro q hq
    have := free_oneMapping hq
    exact ⟨this.1, by omega⟩

private theorem fork_outcome {α : Type} {f : Mach → α} {a : α}
    (h : ((cowForkPageTable s parent).bind fun r => r.2.map fun c => (c, f r.1)) = some (child, a)) :
    ∃ s', cowForkPageTable s parent = some (s', some child) ∧ f s' = a := by
  obtain ⟨⟨s', c⟩, hr, hc⟩ := bind_eq_some_iff.1 h
  obtain ⟨c', rfl, hpair⟩ := map_eq_some_iff.1 hc
  cases hpair
  exact ⟨s', hr, rfl⟩

private theorem freeClean_oneMapping : FreeClean (oneMapping 0) := by
  intro q hq j
  have hbd := free_oneMapping hq
  have hmem : (oneMapping 0).mem q j = 0 := by
    unfold oneMapping
    dsimp only
    rw [if_neg (show q ≠ 0x1000 by omega), if_neg (show q ≠ 0x2000 by omega), if_neg (show q ≠ 0x3000 by omega),
      if_neg (show q ≠ 0x4000 by omega), if_neg (show ¬ (q = 0x1000 ∧ j = selfRefEntry) by omega)]
    simp
  rw [hmem]
  decide

/-- With zeros in the free pages, the child does not map an address that the parent does not map. -/
theorem fork_translates_clean : ∃ s', cowForkPageTable (oneMapping 0) 0x1000 = some (s', some 0x6000) ∧
    leaf s'.mem 0x1000 0x1000 = none ∧ Agrees s'.mem 0x1000 0x6000 0x1000 := by
  obtain ⟨s', hs, hleaf⟩ : ∃ s', cowForkPageTable (oneMapping 0) 0x1000 = some (s', some 0x6000) ∧
      leaf s'.mem 0x1000 0x1000 = none := fork_outcome (by decide +kernel)
  exact ⟨s', hs, hleaf, (fork_translates _ _ (current_oneMapping 0) s' _ hs 0x1000 ⟨by decide, by decide⟩).1
    freeClean_oneMapping⟩

/-- The child maps a page at an address that the parent does not map, because the page for its page table contained an
entry there. -/
theorem fork_maps_leftover : Current (oneMapping 0x5007) 0x1000 ∧ UserSlot (indexPml4e 0x1000) ∧
    ∃ s', cowForkPageTable (oneMapping 0x5007) 0x1000 = some (s', some 0x6000) ∧
      leaf s'.mem 0x1000 0x1000 = none ∧ leaf s'.mem 0x6000 0x1000 = some 0x5007 := by
  refine ⟨current_oneMapping _, ⟨by decide, by decide⟩, ?_⟩
  obtain ⟨s', hs, hpair⟩ : ∃ s', cowForkPageTable (oneMapping 0x5007) 0x1000 = some (s', some 0x6000) ∧
      (leaf s'.mem 0x1000 0x1000, leaf s'.mem 0x6000 0x1000) = (none, some 0x5007) :=
    fork_outcome (f := fun s => (leaf s.mem 0x1000 0x1000, leaf s.mem 0x6000 0x1000)) (by decide +kernel)
  exact ⟨s', hs, Prod.mk.inj hpair⟩

end Adix.Fork
