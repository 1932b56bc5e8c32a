import Adix.Cow.State

/-!
# A fork as a step of the machine that shares frames

The tables of the child are pages taken off the free list. When these were zero, the child has exactly the entries of
its parent, both without write permission, and the tables of all processes are still a forest.
-/

namespace Adix.Cow

open PageTable PhysPages Fork List Option
open Radix (walk)

variable {s s' : Mach} {roots : List Nat} {p f parent child q r t d : Nat} {σ : List Index} {i : Index} {x : Place}
  {a e : Word} {K : Index → Prop} {m : Memory}

private theorem below_iff_tablePath : Below 4 σ ↔ TablePath UserSlot σ := by
  unfold Below Slots TablePath
  rw [Nat.lt_succ_iff]
  simp

private theorem place_of_leaf (hl : Leaf 4 m parent K σ i e) :
    ∃ x : Place, x.path = σ ∧ x.pte = i ∧ UserSlot x.pml4e ∧ entryAt m parent x = some e := by
  obtain ⟨hlen, hslots, -, he⟩ := hl
  match σ, hlen with
  | [i4, i3, i2], _ => exact ⟨⟨i4, i3, i2, i⟩, rfl, rfl, hslots rfl i4 rfl, he⟩

private theorem leaf_of_place (hx : UserSlot x.pml4e) (he : entryAt m parent x = some e) :
    Leaf 4 m parent (fun _ => True) x.path x.pte e :=
  ⟨rfl, fun _ _ hi => some.inj hi ▸ hx, fun _ _ => trivial, he⟩

section Before

variable (h : Good s roots) (hr : roots[p]? = some parent)
include h hr

omit h in
theorem table_of_userTable (hq : UserTable s.mem parent q) : Table s roots q := by
  obtain ⟨σ, hσ, hq⟩ := hq
  exact ⟨parent, σ, mem_of_getElem? hr, below_iff_tablePath.1 hσ, hq⟩

/-- The tables of a process in a good state are as a fork needs them. -/
theorem Good.current : Current s parent where
  self := h.self parent (mem_of_getElem? hr)
  table q hq := (h.wf.table q (table_of_userTable hr hq)).2
  free := h.wf.free
  listed := h.wf.listed

omit h in
private theorem maps_iff : Maps 4 s.mem parent (fun _ => True) f ↔ ∃ x w, (abs s roots).map p x = some (f, w) := by
  constructor
  · rintro ⟨σ, i, e, hl, rfl⟩
    obtain ⟨x, -, -, hx, he⟩ := place_of_leaf hl
    exact ⟨x, writeBit e, mapping_eq_some.2 ⟨parent, e, hr, hx, he, rfl, rfl⟩⟩
  · rintro ⟨x, w, hx⟩
    obtain ⟨r, e, hr', hslot, he, rfl, -⟩ := mapping_eq_some.1 hx
    cases hr.symm.trans hr'
    exact ⟨x.path, x.pte, e, leaf_of_place hslot he, rfl⟩

private theorem Good.counted : Counted 4 s parent (fun _ => True) where
  inv := h.pages
  unique := by
    intro σ τ i j e e' hl hl' he
    obtain ⟨x, rfl, rfl, hx, hex⟩ := place_of_leaf hl
    obtain ⟨z, rfl, rfl, hz, hez⟩ := place_of_leaf hl'
    have h1 : (abs s roots).map p x = some (entryFormat.next e, writeBit e) :=
      mapping_eq_some.2 ⟨parent, e, hr, hx, hex, rfl, rfl⟩
    have h2 : (abs s roots).map p z = some (entryFormat.next e, writeBit e') :=
      mapping_eq_some.2 ⟨parent, e', hr, hz, hez, he.symm, rfl⟩
    obtain rfl := h.sharing.place h1 h2
    exact ⟨rfl, rfl⟩
  owned := by
    intro f hf
    obtain ⟨x, w, hx⟩ := (maps_iff hr).1 hf
    have huses : (abs s roots).Uses f := .of_map hx
    obtain ⟨d, hd, hpos, hcount⟩ := h.desc_of_uses huses
    have hlt := h.owners_lt huses
    refine ⟨d, hd, fun h0 => ?_, fun h0 => ?_⟩
    · rw [h0] at hpos
      exact absurd hpos (Nat.lt_irrefl 0)
    · have hn := congrArg BitVec.toNat h0
      rw [BitVec.toNat_add] at hn
      have hn' : (d.refcount.toNat + 1) % 2 ^ 32 = 0 := hn
      omega

end Before

section After

variable (h : Good s roots) (hr : roots[p]? = some parent) (hf : ForkedTable s parent s' child) (h0 : child ≠ 0)
  (hzero : ∀ q, Taken s s' q → q ≠ child → ∀ j, s.mem q j = 0)

include hf h0 in
private theorem child_taken : Taken s s' child := hf.page.resolve_left h0

include hf h0 in
private theorem not_child (hq : ¬ Free s q) : q ≠ child ∧ (Free s q → Free s' q) := by
  refine ⟨?_, fun hfree => absurd hfree hq⟩
  rintro rfl
  exact hq (child_taken hf h0).1

include h hf h0 in
private theorem table_lowered (hq : Table s roots q) (j : Index) : Lowered (s.mem q j) (s'.mem q j) := by
  obtain ⟨h1, h2⟩ := not_child hf h0 (h.wf.table q hq).2.2
  exact hf.lowered q h1 h2 j

include h hf h0 in
private theorem walk_forked (hroot : r ∈ roots) (hσ : TablePath UserSlot σ) :
    walk entryFormat s'.mem r σ = walk entryFormat s.mem r σ := by
  apply Radix.walk_congr
  intro τ j ρ q hτ hq
  subst hτ
  exact (table_lowered h hf h0 ⟨r, τ, hroot, TablePath.left _ _ hσ, hq⟩ j).link_eq

include hf h0 hzero in
private theorem start_zero (hσ : Below 4 σ) (hi : Slots 4 (σ ++ [i])) (ht : walk entryFormat s'.mem parent σ = some t)
    (hd : walk entryFormat s'.mem child σ = some d) : startMem s.mem child d i = 0 := by
  unfold startMem
  split
  · rename_i hdc
    -- the PML4 of the child is at the end of the empty path only
    subst hdc
    obtain rfl := hf.copy.inj σ [] t parent d hσ Below.nil ht rfl hd rfl
    exact if_neg (hi rfl i rfl).1
  · rename_i hdc
    obtain ⟨d', hd', hown, -⟩ := hf.copy.node σ t hσ ht
    cases hd.symm.trans hd'
    exact hzero d (hown.resolve_left hdc) hdc i

include hf h0 hzero in
private theorem child_walk (hσ : Below 4 σ) (hd : walk entryFormat s'.mem child σ = some d) :
    ∃ t, walk entryFormat s'.mem parent σ = some t := by
  induction σ using List.reverseRecOn generalizing d with
  | nil => exact ⟨parent, rfl⟩
  | append_singleton σ i ih =>
    rw [Radix.walk_snoc] at hd
    obtain ⟨d0, hd0, hlink⟩ := bind_eq_some_iff.1 hd
    obtain ⟨t, ht⟩ := ih hσ.left hd0
    rw [Radix.walk_snoc, ht, bind_some]
    cases hp : entryFormat.present (s'.mem t i) with
    | true => exact ⟨_, Radix.Format.link_eq_some.2 ⟨hp, rfl⟩⟩
    | false =>
      obtain ⟨d', hd', -, hrow⟩ := hf.copy.node σ t hσ.left ht
      cases hd0.symm.trans hd'
      rw [hrow.old i hσ.2 hp, start_zero hf h0 hzero hσ.left hσ.2 ht hd0, link_zero] at hlink
      cases hlink

include hf h0 hzero in
private theorem child_object (hσ : Below 4 σ) (hd : walk entryFormat s'.mem child σ = some d) : Taken s s' d := by
  obtain ⟨t, ht⟩ := child_walk hf h0 hzero hσ hd
  obtain ⟨d', hd', hown, -⟩ := hf.copy.node σ t hσ ht
  cases hd.symm.trans hd'
  rcases hown with rfl | hown
  · exact child_taken hf h0
  · exact hown

include h hf h0 hzero in
/-- The tables after a fork are the old ones and pages that were free. -/
theorem table_cases (hq : Table s' (roots ++ [child]) q) : Table s roots q ∨ Taken s s' q := by
  obtain ⟨r, σ, hmem, hσ, hq⟩ := hq
  rcases mem_append.1 hmem with hroot | hc
  · rw [walk_forked h hf h0 hroot hσ] at hq
    exact .inl ⟨r, σ, hroot, hσ, hq⟩
  · obtain rfl := mem_singleton.1 hc
    exact .inr (child_object hf h0 hzero (below_iff_tablePath.2 hσ) hq)

include h hf h0 hzero in
private theorem forest_forked : Radix.Forest entryFormat s'.mem (· ∈ roots ++ [child]) (TablePath UserSlot) := by
  -- an object of the child was free, an object of another process was not
  have hapart : ∀ {r σ τ q}, r ∈ roots → TablePath UserSlot σ → TablePath UserSlot τ →
      walk entryFormat s'.mem r σ = some q → walk entryFormat s'.mem child τ = some q → False := by
    intro r σ τ q hroot hσ hτ h1 h2
    rw [walk_forked h hf h0 hroot hσ] at h1
    exact (h.wf.table q ⟨r, σ, hroot, hσ, h1⟩).2.2 (child_object hf h0 hzero (below_iff_tablePath.2 hτ) h2).1
  have hsame : ∀ {r r' σ τ q}, r ∈ roots ++ [child] → r' ∈ roots ++ [child] → TablePath UserSlot σ →
      TablePath UserSlot τ → walk entryFormat s'.mem r σ = some q → walk entryFormat s'.mem r' τ = some q →
      r = r' ∧ σ = τ := by
    intro r r' σ τ q hmem hmem' hσ hτ h1 h2
    rcases mem_append.1 hmem with hroot | hc <;> rcases mem_append.1 hmem' with hroot' | hc'
    · rw [walk_forked h hf h0 hroot hσ] at h1
      rw [walk_forked h hf h0 hroot' hτ] at h2
      exact ⟨h.wf.forest.root_eq hroot hroot' hσ hτ h1 h2, h.wf.forest.path_eq hroot hroot' hσ hτ h1 h2⟩
    · obtain rfl := mem_singleton.1 hc'
      exact (hapart hroot hσ hτ h1 h2).elim
    · obtain rfl := mem_singleton.1 hc
      exact (hapart hroot' hτ hσ h2 h1).elim
    · obtain rfl := mem_singleton.1 hc
      obtain rfl := mem_singleton.1 hc'
      have hσ' := below_iff_tablePath.2 hσ
      have hτ' := below_iff_tablePath.2 hτ
      obtain ⟨t, ht⟩ := child_walk hf h0 hzero hσ' h1
      obtain ⟨t', ht'⟩ := child_walk hf h0 hzero hτ' h2
      exact ⟨rfl, hf.copy.inj σ τ t t' q hσ' hτ' ht ht' h1 h2⟩
  exact ⟨fun m m' hσ hτ h1 h2 => (hsame m m' hσ hτ h1 h2).1, fun m m' hσ hτ h1 h2 => (hsame m m' hσ hτ h1 h2).2⟩

include h hf h0 hzero in
private theorem wellFormed_forked : WellFormed UserSlot s' (· ∈ roots ++ [child]) where
  forest := forest_forked h hf h0 hzero
  table := by
    intro q hq
    rcases table_cases h hf h0 hzero hq with ht | ht
    · obtain ⟨h1, h2, h3⟩ := h.wf.table q ht
      exact ⟨h1, h2, fun hfree => h3 (hf.free_sub q hfree)⟩
    · exact ⟨h.wf.free q ht.1, (h.wf.listed.page q ht.1).2.1, ht.2⟩
  free q hq := h.wf.free q (hf.free_sub q hq)
  listed := hf.listed
  window q hq := by
    rw [hf.base_eq]
    exact h.wf.window q (hf.free_sub q hq)

include h hr hf h0 in
private theorem entryAt_other (hroot : r ∈ roots) (hne : r ≠ parent) (hx : UserSlot x.pml4e) :
    entryAt s'.mem r x = entryAt s.mem r x := by
  have hpath : TablePath UserSlot x.path := ⟨by simp [Place.path], fun _ hi => some.inj hi ▸ hx⟩
  refine Radix.lookup_congr (walk_forked h hf h0 hroot hpath) fun q hq => ?_
  obtain ⟨h1, h2⟩ := not_child hf h0 (h.wf.table q ⟨r, _, hroot, hpath, hq⟩).2.2
  have hnot : ¬ UserTable s.mem parent q := by
    rintro ⟨τ, hτ, hq'⟩
    exact hne (h.wf.forest.root_eq hroot (mem_of_getElem? hr) hpath (below_iff_tablePath.1 hτ) hq hq')
  rw [hf.kept q h1 hnot h2]

include h hr hf h0 in
/-- The parent keeps its entries, without the write permission. -/
theorem entryAt_parent (hx : UserSlot x.pml4e) : entryAt s'.mem parent x = (entryAt s.mem parent x).map clearRW := by
  have hpath : TablePath UserSlot x.path := ⟨by simp [Place.path], fun _ hi => some.inj hi ▸ hx⟩
  have hwalk := walk_forked h hf h0 (mem_of_getElem? hr) hpath
  cases he : entryAt s.mem parent x with
  | some e =>
    obtain ⟨q, hq, rfl, hp⟩ := Radix.lookup_eq_some.1 he
    have hlow := table_lowered h hf h0 ⟨parent, _, mem_of_getElem? hr, hpath, hq⟩ x.pte
    rw [hq] at hwalk
    obtain ⟨d, -, -, hrow⟩ := hf.copy.node _ q (below_iff_tablePath.2 hpath) hwalk
    have hp' : entryFormat.present (s'.mem q x.pte) = true := hlow.present_eq.trans hp
    have hro := (hrow.page rfl x.pte (fun _ _ hi => some.inj hi ▸ hx) hp').2
    refine Radix.lookup_eq_some.2 ⟨q, hwalk, ?_, by rw [present_clearRW]; exact hp⟩
    rw [← hro, hlow.clearRW_eq]
  | none =>
    cases he' : entryAt s'.mem parent x with
    | none => rfl
    | some e' =>
      obtain ⟨q, hq, rfl, hp⟩ := Radix.lookup_eq_some.1 he'
      rw [hwalk] at hq
      have hlow := table_lowered h hf h0 ⟨parent, _, mem_of_getElem? hr, hpath, hq⟩ x.pte
      have hsome : entryAt s.mem parent x = some (s.mem q x.pte) :=
        Radix.lookup_eq_some.2 ⟨q, hq, rfl, hlow.present_eq.symm.trans hp⟩
      rw [he] at hsome
      cases hsome

include hf h0 hzero in
private theorem entryAt_child (hx : UserSlot x.pml4e) : entryAt s'.mem child x = entryAt s'.mem parent x := by
  obtain ⟨a, rfl⟩ := exists_placeOf x
  have hv : UserSlot (indexPml4e a) := hx
  refine ((hf.agrees_iff hv).2 ?_).leaf_eq
  intro σ i ρ t d hpath ht hp hd
  obtain ⟨hσ, hslots⟩ := below_pagePath hv hpath
  rw [start_zero hf h0 hzero hσ hslots ht hd]
  cases hread : Radix.read entryFormat s'.mem 0 ρ with
  | none => rfl
  | some e => exact absurd (Radix.read_eq_some hread) (by decide)

private theorem writeBit_clearRW : writeBit (clearRW e) = false := by
  unfold writeBit
  rw [clearRW_and_readWrite]
  rfl

theorem clearRW_of_not_writable (h : writeBit e = false) : clearRW e = e := by
  have h0 : e &&& pageTransReadWrite = 0 := Decidable.of_not_not (of_decide_eq_false h)
  have hsplit : clearRW e = e ^^^ (e &&& pageTransReadWrite) := by
    unfold clearRW
    ext k
    simp only [BitVec.getElem_and, BitVec.getElem_not, BitVec.getElem_xor]
    cases e[k] <;> simp
  rw [hsplit, h0]
  exact BitVec.xor_zero

include h hr hf h0 hzero in
private theorem mapping_forked (k : Nat) (x : Place) : mapping s' (roots ++ [child]) k x =
    if k = p ∨ k = roots.length then (mapping s roots p x).map Sharing.lower else mapping s roots k x := by
  have hp : p < roots.length := (List.getElem?_eq_some_iff.1 hr).1
  -- parent and child have the entries of the parent without write permission
  have hlower : ∀ r, (UserSlot x.pml4e → entryAt s'.mem r x = (entryAt s.mem parent x).map clearRW) →
      (if UserSlot x.pml4e then (entryAt s'.mem r x).map fun e => (entryFormat.next e, writeBit e) else none) =
        (mapping s roots p x).map Sharing.lower := by
    intro r he
    unfold mapping
    rw [hr, bind_some]
    split
    · rename_i hx
      rw [he hx]
      cases entryAt s.mem parent x with
      | none => rfl
      | some e =>
        rw [map_some, map_some, map_some, map_some, next_clearRW, writeBit_clearRW]
        rfl
    · rfl
  by_cases hk : k = p ∨ k = roots.length
  · rw [if_pos hk]
    rcases hk with rfl | rfl
    · conv => lhs; unfold mapping
      rw [getElem?_append_left hp, hr, bind_some]
      exact hlower parent fun hx => entryAt_parent h hr hf h0 hx
    · conv => lhs; unfold mapping
      rw [getElem?_concat_length, bind_some]
      refine hlower child fun hx => ?_
      rw [entryAt_child hf h0 hzero hx]
      exact entryAt_parent h hr hf h0 hx
  · rw [if_neg hk]
    rw [not_or] at hk
    unfold mapping
    by_cases hlt : k < roots.length
    · rw [getElem?_append_left hlt]
      cases hk' : roots[k]? with
      | none => rfl
      | some r =>
        have hne : r ≠ parent := by
          rintro rfl
          exact hk.1 ((getElem?_inj hlt h.nodup).1 (hk'.trans hr.symm))
        rw [bind_some, bind_some]
        split
        · rename_i hx
          rw [entryAt_other h hr hf h0 (mem_of_getElem? hk') hne hx]
        · rfl
    · rw [List.getElem?_eq_none (by rw [length_append, length_singleton]; omega), List.getElem?_eq_none (by omega)]
      rfl

include h hr hf h0 in
private theorem mem_forked (hu : (abs s roots).Uses f) : s'.mem f = s.mem f := by
  obtain ⟨h1, h2⟩ := not_child hf h0 (h.not_free hu)
  exact hf.kept f h1 (fun ht => (h.frame f hu).2 (table_of_userTable hr ht)) h2

include h hr hf h0 hzero in
/-- A fork is a step of the machine that shares frames. -/
theorem step_forked : Sharing.Step (abs s roots) (abs s' (roots ++ [child])) (.fork p) := by
  have hcount := hf.count h0 (h.counted hr)
  refine .fork (List.getElem?_eq_some_iff.1 hr).1 ?_ (mapping_forked h hr hf h0 hzero) ?_ ?_
  · show (roots ++ [child]).length = roots.length + 1
    rw [length_append, length_singleton]
  · intro x f w hx
    have hu : (abs s roots).Uses f := .of_map hx
    obtain ⟨d, hd, -, hn⟩ := h.desc_of_uses hu
    have hlt := h.owners_lt hu
    have hshared := hcount.shared f ((maps_iff hr).2 ⟨x, w, hx⟩)
    rw [hd] at hshared
    refine ⟨?_, ?_, mem_forked h hr hf h0 hu⟩
    · rw [abs_count hshared, abs_count hd]
      show (d.refcount + 1).toNat = _
      rw [BitVec.toNat_add]
      show (d.refcount.toNat + 1) % 2 ^ 32 = _
      omega
    · exact ⟨shareDesc d, hshared, by show pageCow &&& pageCow ≠ 0; decide⟩
  · intro f hu hnot
    refine abs_kept ?_ (mem_forked h hr hf h0 hu)
    refine hcount.kept f (uses_aligned hu) (fun hm => ?_) fun hfree => absurd hfree (h.not_free hu)
    obtain ⟨x, w, hx⟩ := (maps_iff hr).1 hm
    exact hnot x w hx

private theorem selfRef_selfEntry (hc : PageAddr child) : hardwareFormat.link (selfEntry child) = some child := by
  have hlink : entryFormat.link (selfEntry child) = some child := by
    unfold selfEntry
    rw [hc.nextLevelAddr, BitVec.or_assoc, Radix.Format.link_eq_some]
    constructor
    · rw [present_eq, BitVec.getLsbD_or]
      simp [pageTransPresent]
    · show (entryAddr _).toNat = child
      rw [entryAddr_or_flags hc, hc.toNat]
      intro k h1 h2
      interval_cases k <;> rfl
  rw [hardware_link, hlink]
  intro q hq
  cases hlink.symm.trans hq
  exact hc.lt

include h hr hf h0 hzero in
/-- A good state is good after a fork. -/
theorem good_forked : Good s' (roots ++ [child]) := by
  have hcount := hf.count h0 (h.counted hr)
  have htaken := child_taken hf h0
  have hstep := step_forked h hr hf h0 hzero
  refine
    { pages := hcount.inv
      wf := wellFormed_forked h hf h0 hzero
      nodup := ?_
      self := ?_
      described := ?_
      frame := ?_
      sharing := hstep.inv h.sharing }
  · refine nodup_append.2 ⟨h.nodup, nodup_singleton _, ?_⟩
    intro r hroot c hc
    obtain rfl := mem_singleton.1 hc
    rintro rfl
    exact (h.wf.table r (table_root hroot)).2.2 htaken.1
  · intro r hmem
    unfold SelfRef
    rcases mem_append.1 hmem with hroot | hc
    · rw [(table_lowered h hf h0 (table_root hroot) selfRefEntry).hardware_link_eq]
      exact h.self r hroot
    · obtain rfl := mem_singleton.1 hc
      rw [hf.self]
      exact selfRef_selfEntry (h.wf.free r htaken.1)
  · intro r hmem
    rcases mem_append.1 hmem with hroot | hc
    · obtain ⟨haddr, -, hnf⟩ := h.wf.table r (table_root hroot)
      rw [hcount.kept r haddr.aligned ?_ fun hfree => absurd hfree hnf]
      · exact h.described r hroot
      · intro hm
        obtain ⟨x, w, hx⟩ := (maps_iff hr).1 hm
        exact (h.frame r (.of_map hx)).2 (table_root hroot)
    · obtain rfl := mem_singleton.1 hc
      obtain ⟨d, hd, -⟩ := map_eq_some_iff.1 ((h.pages.covers r).1 htaken.1).2
      exact ⟨d.bump, by rw [hcount.taken r htaken, hd]; rfl⟩
  · rintro f ⟨k, x, w, hx⟩
    -- the frame was mapped before
    have hu : (abs s roots).Uses f := by
      have hx' : mapping s' (roots ++ [child]) k x = some (f, w) := hx
      rw [mapping_forked h hr hf h0 hzero] at hx'
      split at hx'
      · obtain ⟨⟨f', w'⟩, hy, hlow⟩ := map_eq_some_iff.1 hx'
        cases hlow
        exact .of_map hy
      · exact .of_map hx'
    obtain ⟨h1, h2⟩ := h.frame f hu
    refine ⟨h1, fun ht => ?_⟩
    rcases table_cases h hf h0 hzero ht with ht | ht
    · exact h2 ht
    · exact h.not_free hu ht.1

end After

end Adix.Cow
