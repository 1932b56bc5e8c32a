import Adix.Mmap.Extent

/-!
# Reading into two pages

When `v_addr` is not at the start of a page, `sys_read` runs into the page behind.
-/

namespace Adix.Mmap

open PageTable PhysPages Cow Space Tarfs Option BitVec
open BitVec (ofNat)
open Kernel (byteOf store withMach_mach load_eq)
open Vma.Unmap (samePage_iff_div lower_slot)

variable {s s' u : Mach} {n z fd i j : Nat} {a b v e x prot offset bytes : Word} {c : BitVec 8} {k : Kernel}
  {proc : Proc} {files : Files} {t : Tape}

def Served (k : Kernel) (proc : Proc) (a : Word) : Prop :=
  ∃ w, areaOf proc.mmap a = some w ∧ w.vmPageProt.getLsbD 1 = true ∧ ¬ k.sys.startKernel ≤ a

def Touched (v : Word) (n : Nat) (a : Word) : Prop := SamePage a v ∨ ∃ j < n, SamePage a (v + ofNat 64 j)

structure Filling (k : Kernel) (proc : Proc) (v : Word) (n z : Nat) (s : Mach) : Prop where
  remaps : Remaps proc.pml4 k.sys.mach s (Touched v n)
  here : ∃ e, leaf s.mem proc.pml4 v = some e ∧ hardwareFormat.next e = z
  frame : ∀ a e, Touched v n a → leaf s.mem proc.pml4 a = some e → writeBit e = true ∧
    ¬ TableOf proc.pml4 s (hardwareFormat.next e) ∧ ¬ Free s (hardwareFormat.next e) ∧
      Free k.sys.mach (hardwareFormat.next e)
  apart : ∀ a b e e', Touched v n a → Touched v n b → leaf s.mem proc.pml4 a = some e →
    leaf s.mem proc.pml4 b = some e' → hardwareFormat.next e = hardwareFormat.next e' → SamePage a b
  count : freeCount k.sys.mach.pages ≤ freeCount s.pages + 8
  room : ∀ a, Touched v n a → leaf s.mem proc.pml4 a = none → freeCount k.sys.mach.pages ≤ freeCount s.pages + 4
  low : ∀ x, SamePage x v → x.toNat % 4096 < v.toNat % 4096 → byteOf (s.mem z) x = byteOf (k.sys.mach.mem z) x

private theorem samePage_symm (h : SamePage a b) : SamePage b a := fun i h1 h2 => (h i h1 h2).symm

private theorem samePage_trans (h : SamePage a b) (h' : SamePage b x) : SamePage a x :=
  fun i h1 h2 => (h i h1 h2).trans (h' i h1 h2)

private theorem Touched.first : Touched v n v := .inl (samePage_of_div rfl)

private theorem Touched.byte (hj : j < n) : Touched v n (v + ofNat 64 j) := .inr ⟨j, hj, samePage_of_div rfl⟩

section Two

variable (hv : v.toNat + 8192 ≤ 2 ^ 47) (hn : n ≤ 4096)
include hv hn

private theorem toNat_byte (hj : j < n) : (v + ofNat 64 j).toNat = v.toNat + j := toNat_add_of_lt (by omega)

private theorem samePage_byte_iff (hi : i < n) (hj : j < n) :
    SamePage (v + ofNat 64 i) (v + ofNat 64 j) ↔ (v.toNat + i) / 4096 = (v.toNat + j) / 4096 := by
  have h1 := toNat_byte hv hn hi
  have h2 := toNat_byte hv hn hj
  rw [samePage_iff_div (by omega) (by omega), h1, h2]

private theorem samePage_first_iff (hj : j < n) :
    SamePage (v + ofNat 64 j) v ↔ (v.toNat + j) / 4096 = v.toNat / 4096 := by
  have h1 := toNat_byte hv hn hj
  rw [samePage_iff_div (by omega) (by omega), h1]

private theorem Touched.near (ha : Touched v n a) :
    ∃ b, SamePage a b ∧ v.toNat ≤ b.toNat ∧ b.toNat < v.toNat + 4096 := by
  rcases ha with h | ⟨j, hj, h⟩
  · exact ⟨v, h, by omega, by omega⟩
  · have := toNat_byte hv hn hj
    exact ⟨_, h, by omega, by omega⟩

private theorem Touched.slot (ha : Touched v n a) : indexPml4e a ≠ selfRefEntry := by
  obtain ⟨b, hb, -, hlt⟩ := ha.near hv hn
  rw [indexPml4e_of_samePage hb]
  exact lower_slot (by omega)

end Two

def Kept (proc : Proc) (v : Word) (n : Nat) (s s' : Mach) : Prop :=
  ∀ b e, Touched v n b → leaf s.mem proc.pml4 b = some e →
  leaf s'.mem proc.pml4 b = some e ∧ s'.mem (hardwareFormat.next e) = s.mem (hardwareFormat.next e)

section Fill

variable (hv : v.toNat + 8192 ≤ 2 ^ 47) (hn : n ≤ 4096)
include hv hn

private theorem Filling.writesTo (h : Filling k proc v n z s) (hb : Touched v n b)
    (he : leaf s.mem proc.pml4 b = some e) : WritesTo proc.pml4 s b (hardwareFormat.next e) where
  wf := h.remaps.wf
  slot := hb.slot hv hn
  entry := ⟨e, he, (h.frame b e hb he).1, rfl⟩
  data := (h.frame b e hb he).2.1

private theorem Filling.put (h : Filling k proc v n z s) (hj : j < n)
    (he : leaf s.mem proc.pml4 (v + ofNat 64 j) = some e)
    (c : BitVec 8) : Filling k proc v n z (putByte s (hardwareFormat.next e) (v + ofNat 64 j) c) := by
  obtain ⟨-, hdata, htaken, hfree⟩ := h.frame _ e (.byte hj) he
  have hleaf : ∀ b, Touched v n b →
      leaf (putByte s (hardwareFormat.next e) (v + ofNat 64 j) c).mem proc.pml4 b = leaf s.mem proc.pml4 b := by
    intro b hb
    rw [putByte_eq]
    exact leaf_withPage h.remaps.wf hdata (hb.slot hv hn)
  have htable : ∀ q, TableOf proc.pml4 (putByte s (hardwareFormat.next e) (v + ofNat 64 j) c) q ↔
      TableOf proc.pml4 s q := by
    intro q
    rw [putByte_eq]
    exact tableOf_withPage h.remaps.wf hdata
  refine ⟨?_, ?_, fun b e' hb he' => ?_, fun a b e1 e2 ha hb he1 he2 => ?_, h.count, fun a ha hnone => ?_,
    fun x hx hlow => ?_⟩
  · rw [putByte_eq]
    exact Remaps.withPage h.remaps.wf hdata h.remaps hfree htaken
  · rw [hleaf v .first]
    exact h.here
  · rw [hleaf b hb] at he'
    obtain ⟨h1, h2, h3, h4⟩ := h.frame b e' hb he'
    exact ⟨h1, (htable _).not.2 h2, h3, h4⟩
  · rw [hleaf a ha] at he1
    rw [hleaf b hb] at he2
    exact h.apart a b e1 e2 ha hb he1 he2
  · rw [hleaf a ha] at hnone
    exact h.room a ha hnone
  · -- the bytes in front of `v` are not written
    rw [← h.low x hx hlow]
    show byteOf (if z = hardwareFormat.next e then _ else _) x = _
    split
    · next hz =>
      obtain ⟨e0, he0, hz0⟩ := h.here
      have hsame := h.apart _ v e e0 (.byte hj) .first he he0 (hz.symm.trans hz0.symm)
      have hpage := (samePage_first_iff hv hn hj).1 hsame
      rw [byteOf_setPageByte, if_neg]
      rw [toNat_byte hv hn hj]
      omega
    · rfl

private theorem Filling.provide (h : Filling k proc v n z s) (hp : k.proc? = some proc)
    (h8 : 8 ≤ freeCount k.sys.mach.pages) (hj : j < n)
    (hnone : leaf s.mem proc.pml4 (v + ofNat 64 j) = none) (hserved : Served k proc (v + ofNat 64 j)) :
    ∃ s' e, pageFaultHandler (k.withMach s).sys k.running k.env (v + ofNat 64 j) pfErrorCodeW =
        some ((k.withMach s').sys, .value 0) ∧ Filling k proc v n z s' ∧
      leaf s'.mem proc.pml4 (v + ofNat 64 j) = some e ∧ Kept proc v n s s' := by
  obtain ⟨w, harea, hprot, hkernel⟩ := hserved
  have hroom := h.room _ (.byte hj) hnone
  have hmissing := missing_le s.mem proc.pml4 (v + ofNat 64 j)
  have hslot := Touched.slot hv hn (.byte hj)
  obtain ⟨s', z', hs', hnew⟩ := pageNotPresent_maps h.remaps.wf h.remaps.self hslot (by omega) w
  have hmaps : Remaps proc.pml4 s s' (Touched v n) := (Remaps.of_maps hnew.toMaps).mono fun _ ha => ha ▸ .byte hj
  have hz' : hardwareFormat.next (leafEntry (ofNat 64 z') w.vmPageProt) = z' :=
    hardware_next_leafEntry (h.remaps.wf.free z' hnew.wasFree)
  -- what was there is kept, and the rest is new
  have hold : Kept proc v n s s' := by
    intro b e' hb he'
    obtain ⟨-, hdata, htaken, -⟩ := h.frame b e' hb he'
    refine ⟨(hnew.elsewhere b (hb.slot hv hn) fun hsame => ?_).trans he',
      hnew.outside _ hdata fun hf => absurd hf htaken⟩
    rw [leaf_samePage hsame, hnone] at he'
    cases he'
  have hcases : ∀ b e', Touched v n b → leaf s'.mem proc.pml4 b = some e' →
      SamePage b (v + ofNat 64 j) ∧ e' = leafEntry (ofNat 64 z') w.vmPageProt ∨
        leaf s.mem proc.pml4 b = some e' := by
    intro b e' hb he'
    by_cases hsame : SamePage b (v + ofNat 64 j)
    · rw [leaf_samePage hsame, hnew.here] at he'
      exact .inl ⟨hsame, (some.inj he').symm⟩
    · rw [hnew.elsewhere b (hb.slot hv hn) hsame] at he'
      exact .inr he'
  obtain ⟨e0, he0, hz0⟩ := h.here
  refine ⟨s', _, ?_, ⟨h.remaps.trans hmaps, ⟨e0, (hold v e0 .first he0).1, hz0⟩, fun b e' hb he' => ?_,
    fun b b' e1 e2 hb hb' he1 he2 heq => ?_, ?_, fun b hb hno => ?_, fun x hx hlow => ?_⟩, hnew.here, hold⟩
  · have hareas : areasFor (k.withMach s).sys proc (v + ofNat 64 j) = proc.mmap := if_neg hkernel
    have hfor : areaFor k.env (areasFor (k.withMach s).sys proc (v + ofNat 64 j)) (v + ofNat 64 j) =
        (some w, areasFor (k.withMach s).sys proc (v + ofNat 64 j)) := by
      rw [hareas]
      exact areaFor_of_areaOf harea
    have hp' : (k.withMach s).sys.procs[k.running]? = some proc := hp
    rw [pageFaultHandler_notPresent hp' (by decide) hfor, withMach_mach, hs', map_some]
    dsimp only
    rw [afterFault_areas hp']
    rfl
  · rcases hcases b e' hb he' with ⟨-, rfl⟩ | hs
    · rw [hz', writeBit_leafEntry]
      exact ⟨hprot, hnew.data, hnew.taken, h.remaps.free_sub _ hnew.wasFree⟩
    · obtain ⟨h1, h2, h3, h4⟩ := h.frame b e' hb hs
      exact ⟨h1, (hmaps.data h2 h3).1, (hmaps.data h2 h3).2, h4⟩
  · rcases hcases b e1 hb he1 with ⟨h1, rfl⟩ | hs1
    · rcases hcases b' e2 hb' he2 with ⟨h2, -⟩ | hs2
      · exact samePage_trans h1 (samePage_symm h2)
      · rw [hz'] at heq
        exact absurd (heq ▸ hnew.wasFree) (h.frame b' e2 hb' hs2).2.2.1
    · rcases hcases b' e2 hb' he2 with ⟨-, rfl⟩ | hs2
      · rw [hz'] at heq
        exact absurd (heq ▸ hnew.wasFree) (h.frame b e1 hb hs1).2.2.1
      · exact h.apart b b' e1 e2 hb hb' hs1 hs2 heq
  · have hcount := hnew.count
    omega
  · -- both pages are there
    have hsecond : ¬ SamePage (v + ofNat 64 j) v := by
      intro hsame
      rw [leaf_samePage hsame, he0] at hnone
      cases hnone
    rcases hb with hsame | ⟨i, hi, hsame⟩
    · rw [leaf_samePage hsame, (hold v e0 .first he0).1] at hno
      cases hno
    · by_cases hpage : SamePage (v + ofNat 64 i) v
      · rw [leaf_samePage hsame, leaf_samePage hpage, (hold v e0 .first he0).1] at hno
        cases hno
      · rw [samePage_first_iff hv hn hj] at hsecond
        rw [samePage_first_iff hv hn hi] at hpage
        have hij := (samePage_byte_iff hv hn hi hj).2 (by omega)
        rw [leaf_samePage hsame, leaf_samePage hij, hnew.here] at hno
        cases hno
  · rw [← h.low x hx hlow, ← hz0, (hold v e0 .first he0).2]

private theorem Filling.load_put {e' : Word} (h : Filling k proc v n z s) (hp : k.proc? = some proc) (hi : i < n)
    (he : leaf s.mem proc.pml4 (v + ofNat 64 i) = some e) (hj : j < n)
    (he' : leaf s.mem proc.pml4 (v + ofNat 64 j) = some e') :
    VirtMem.load (k.withMach (putByte s (hardwareFormat.next e) (v + ofNat 64 i) c)) (v + ofNat 64 j) =
      some (if j = i then c else byteOf (s.mem (hardwareFormat.next e')) (v + ofNat 64 j)) := by
  have hslot := Touched.slot hv hn (.byte hj)
  have hleaf : leaf (putByte s (hardwareFormat.next e) (v + ofNat 64 i) c).mem proc.pml4 (v + ofNat 64 j) =
      some e' := by
    rw [putByte_eq, leaf_withPage h.remaps.wf (h.frame _ e (.byte hi) he).2.1 hslot, he']
  rw [load_eq (k := k.withMach (putByte s (hardwareFormat.next e) (v + ofNat 64 i) c)) hp
    (h.put hv hn hi he c).remaps.wf hslot, withMach_mach, hleaf, map_some]
  show some (byteOf (if hardwareFormat.next e' = hardwareFormat.next e then _ else _) _) = _
  by_cases hji : j = i
  · subst hji
    cases he.symm.trans he'
    rw [if_pos rfl, if_pos rfl, byteOf_setPageByte, if_pos rfl]
  · rw [if_neg hji]
    by_cases hsame : hardwareFormat.next e' = hardwareFormat.next e
    · -- other bytes of the page
      rw [if_pos hsame, byteOf_setPageByte, if_neg]
      rw [toNat_byte hv hn hj, toNat_byte hv hn hi]
      omega
    · rw [if_neg hsame]

/-- If nothing is mapped there, the first write to it is a page fault, and `page_not_present` provides a page with the
protection of the area. -/
private theorem Filling.buffer (hp : k.proc? = some proc)
    (hw : WellFormed (· ≠ selfRefEntry) k.sys.mach (· = proc.pml4)) (h8 : 8 ≤ freeCount k.sys.mach.pages)
    (hserved : ∀ j < n, ¬ SamePage (v + ofNat 64 j) v → Served k proc (v + ofNat 64 j)) :
    VirtMem.Buffer (fun m => ∃ s, m = k.withMach s ∧ Filling k proc v n z s)
      (fun b => MappedData proc.pml4 k.sys.mach b ∧ ∀ a, Touched v n a → ¬ SamePage b a) v n := by
  refine ⟨?_⟩
  rintro _ ⟨s, rfl, h⟩ i hi c
  -- the page is there, if need be after a page fault
  obtain ⟨u, e, hstore, hu, he, hold⟩ : ∃ u e, VirtMem.store (k.withMach s) (v + ofNat 64 i) c =
        some (k.withMach (putByte u (hardwareFormat.next e) (v + ofNat 64 i) c)) ∧ Filling k proc v n z u ∧
      leaf u.mem proc.pml4 (v + ofNat 64 i) = some e ∧ Kept proc v n s u := by
    cases hleaf : leaf s.mem proc.pml4 (v + ofNat 64 i) with
    | some e =>
      refine ⟨s, e, ?_, h, hleaf, fun b e' _ he' => ⟨he', rfl⟩⟩
      show store _ _ _ = _
      rw [store, Kernel.write_eq (k := k.withMach s) hp (h.writesTo hv hn (.byte hi) hleaf)]
      rfl
    | none =>
      have hsecond : ¬ SamePage (v + ofNat 64 i) v := by
        obtain ⟨e0, he0, -⟩ := h.here
        intro hsame
        rw [leaf_samePage hsame, he0] at hleaf
        cases hleaf
      obtain ⟨u, e, hfault, hu, he, hold⟩ := h.provide hv hn hp h8 hi hleaf (hserved i hi hsecond)
      refine ⟨u, e, ?_, hu, he, hold⟩
      have hentry : (k.withMach s).entry (v + ofNat 64 i) = none :=
        (Kernel.entry_eq (k := k.withMach s) hp h.remaps.wf (Touched.slot hv hn (.byte hi))).trans hleaf
      have hwrite : (k.withMach s).write (v + ofNat 64 i) c = none := by
        rw [Kernel.write, hentry]
        rfl
      have hcode : (k.withMach s).faultCode (v + ofNat 64 i) = pfErrorCodeW := by
        rw [Kernel.faultCode, hentry]
        rfl
      show store _ _ _ = _
      rw [store, hwrite, hcode]
      show (pageFaultHandler (k.withMach s).sys k.running k.env _ _).bind _ = _
      rw [hfault, bind_some]
      exact Kernel.write_eq (k := k.withMach u) hp (hu.writesTo hv hn (.byte hi) he) c
  refine ⟨_, hstore, ⟨_, rfl, hu.put hv hn hi he c⟩, ?_, fun j hj d hd => ?_, fun b hb => ?_⟩
  · rw [hu.load_put hv hn hp hi he hi he, if_pos rfl]
  · rw [load_eq (k := k.withMach s) hp h.remaps.wf (Touched.slot hv hn (.byte (hj.trans hi)))] at hd
    obtain ⟨e', he', hbyte⟩ := map_eq_some_iff.1 hd
    obtain ⟨hleaf, hmem⟩ := hold _ e' (.byte (hj.trans hi)) he'
    rw [hu.load_put hv hn hp hi he (hj.trans hi) hleaf, if_neg (by omega), hmem]
    exact congrArg some hbyte
  · have hkeep := fun s (h : Filling k proc v n z s) => h.remaps.load_eq hp hb.2 hb.1 hw
    rw [hkeep _ (hu.put hv hn hi he c), hkeep _ h]

end Fill

structure Spilled (k : Kernel) (proc : Proc) (v : Word) (n z : Nat) (s : Mach) : Prop where
  remaps : Remaps proc.pml4 k.sys.mach s (Touched v n)
  here : ∃ e, leaf s.mem proc.pml4 v = some e ∧ hardwareFormat.next e = z
  wasFree : Free k.sys.mach z
  data : ¬ TableOf proc.pml4 s z
  taken : ¬ Free s z
  count : freeCount k.sys.mach.pages ≤ freeCount s.pages + 8
  low : ∀ x, SamePage x v → x.toNat % 4096 < v.toNat % 4096 → byteOf (s.mem z) x = byteOf (k.sys.mach.mem z) x

section Round

variable (hv : v.toNat + 8192 ≤ 2 ^ 47) (hn : n ≤ 4096)
include hv hn

private theorem NewPage.filling {perm : Word} (hw : WellFormed (· ≠ selfRefEntry) k.sys.mach (· = proc.pml4))
    (h : NewPage proc.pml4 k.sys.mach u v perm z) (hperm : perm.getLsbD 1 = true)
    (hnone : ∀ j < n, ¬ SamePage (v + ofNat 64 j) v → leaf k.sys.mach.mem proc.pml4 (v + ofNat 64 j) = none) :
    Filling k proc v n z u := by
  have hz : hardwareFormat.next (leafEntry (ofNat 64 z) perm) = z := hardware_next_leafEntry (hw.free z h.wasFree)
  -- only the page of `v` is there
  have honly : ∀ a e, Touched v n a → leaf u.mem proc.pml4 a = some e → SamePage a v ∧
      e = leafEntry (ofNat 64 z) perm := by
    intro a e ha he
    by_cases hsame : SamePage a v
    · rw [leaf_samePage hsame, h.here] at he
      exact ⟨hsame, (some.inj he).symm⟩
    · rw [h.elsewhere a (ha.slot hv hn) hsame] at he
      rcases ha with ha | ⟨j, hj, ha⟩
      · exact absurd ha hsame
      · rw [leaf_samePage ha, hnone j hj fun hj' => hsame (samePage_trans ha hj')] at he
        cases he
  have hcount := h.count
  have hmissing := missing_le k.sys.mach.mem proc.pml4 v
  refine ⟨(Remaps.of_maps h.toMaps).mono fun a ha => ha ▸ .first, ⟨_, h.here, hz⟩, fun a e ha he => ?_,
    fun a b e e' ha hb he he' _ => samePage_trans (honly a e ha he).1 (samePage_symm (honly b e' hb he').1), by omega,
    fun _ _ _ => by omega, fun x _ _ => by rw [h.mem_eq]⟩
  obtain ⟨-, rfl⟩ := honly a e ha he
  rw [hz, writeBit_leafEntry]
  exact ⟨hperm, h.data, h.taken, h.wasFree⟩

private theorem Filling.protect (h : Filling k proc v n z s) (hp : k.proc? = some proc)
    (hprot : entryFormat.present prot = true) :
    ∃ s', updateCurrPageTable s proc.pml4 0 v prot = some (s', 0) ∧ Spilled k proc v n z s' ∧
      ∀ j < n, VirtMem.load (k.withMach s') (v + ofNat 64 j) = VirtMem.load (k.withMach s) (v + ofNat 64 j) := by
  obtain ⟨e, he, rfl⟩ := h.here
  obtain ⟨-, hdata, htaken, hfree⟩ := h.frame v e .first he
  obtain ⟨s', hs', hm, hpages⟩ :=
    updateCurrPageTable_protects h.remaps.wf h.remaps.self (Touched.slot hv hn .first) he hprot
  have hmaps : Remaps proc.pml4 s s' (Touched v n) := (Remaps.of_maps hm).mono fun a ha => ha ▸ .first
  have hmem : ∀ a e', Touched v n a → leaf s.mem proc.pml4 a = some e' →
      s'.mem (hardwareFormat.next e') = s.mem (hardwareFormat.next e') := by
    intro a e' ha he'
    obtain ⟨-, h1, h2, -⟩ := h.frame a e' ha he'
    exact hm.outside _ h1 fun hf => absurd hf h2
  have hz : hardwareFormat.next (withPerm e prot) = hardwareFormat.next e := hardware_next_withPerm
  refine ⟨s', hs', ⟨h.remaps.trans hmaps, ⟨_, hm.here, hz⟩, hfree, (hmaps.data hdata htaken).1,
    (hmaps.data hdata htaken).2, by rw [hpages]; exact h.count, fun x hx hlow => ?_⟩, fun j hj => ?_⟩
  · rw [hmem v e .first he]
    exact h.low x hx hlow
  · have hslot := Touched.slot hv hn (.byte hj)
    rw [load_eq (k := k.withMach s') hp hm.wf hslot, load_eq (k := k.withMach s) hp h.remaps.wf hslot,
      withMach_mach, withMach_mach]
    by_cases hsame : SamePage (v + ofNat 64 j) v
    · rw [leaf_samePage hsame, leaf_samePage hsame, hm.here, he, map_some, map_some, hz, hmem v e .first he]
    · rw [hm.elsewhere _ hslot hsame]
      cases hl : leaf s.mem proc.pml4 (v + ofNat 64 j) with
      | none => rfl
      | some e' => rw [map_some, map_some, hmem _ e' (.byte hj) hl]

end Round

def Behind (v a : Word) : Prop := v.toNat / 4096 ≤ a.toNat / 4096 ∧ a.toNat < 2 ^ 47

private theorem Spilled.behind (h : Spilled k proc v n z s) (hv : v.toNat + 8192 ≤ 2 ^ 47) (hn : n ≤ 4096) :
    Remaps proc.pml4 k.sys.mach s (Behind v) := by
  refine h.remaps.widen fun a ha => ?_
  obtain ⟨b, hb, h1, h2⟩ := ha.near hv hn
  exact ⟨b, ⟨by omega, by omega⟩, hb⟩

private theorem Spilled.leaf_eq (h : Spilled k proc v n z s) (hv : v.toNat + 8192 ≤ 2 ^ 47) (hn : n ≤ 4096)
    (hb : v.toNat / 4096 + 1 < b.toNat / 4096) (hlow : b.toNat < 2 ^ 47) :
    leaf s.mem proc.pml4 b = leaf k.sys.mach.mem proc.pml4 b := by
  refine h.remaps.elsewhere b (lower_slot hlow) fun a ha hsame => ?_
  obtain ⟨c, hc, h1, h2⟩ := ha.near hv hn
  have := (samePage_iff_div hlow (by omega)).1 (samePage_trans hsame hc)
  omega

private theorem Spilled.next (h : Spilled k proc v (roundBytes bytes).toNat z s) (hv : v.toNat + 8192 ≤ 2 ^ 47)
    (hend : v.toNat + bytes.toNat ≤ 2 ^ 47)
    (hserved : ∀ j < bytes.toNat, ¬ SamePage (v + ofNat 64 j) v → Served k proc (v + ofNat 64 j) ∧
      leaf k.sys.mach.mem proc.pml4 (v + ofNat 64 j) = none) :
    ∀ j < (bytes - roundBytes bytes).toNat, ¬ SamePage (v + Vma.sizeofPage + ofNat 64 j) (v + Vma.sizeofPage) →
      Served (k.withMach s) proc (v + Vma.sizeofPage + ofNat 64 j) ∧
      leaf s.mem proc.pml4 (v + Vma.sizeofPage + ofNat 64 j) = none := by
  intro j hj hne
  by_cases hbig : 4096 < bytes.toNat
  · have hrest : (bytes - Vma.sizeofPage).toNat = bytes.toNat - 4096 := toNat_sub_of_le (le_def.2 (Nat.le_of_lt hbig))
    rw [roundBytes_of_lt hbig, hrest] at hj
    have haddr : v + Vma.sizeofPage + ofNat 64 j = v + ofNat 64 (4096 + j) := by
      rw [ofNat_add, ← BitVec.add_assoc]
      rfl
    have hto : (v + ofNat 64 (4096 + j)).toNat = v.toNat + (4096 + j) := toNat_add_of_lt (by omega)
    have hnext := toNat_next (v := v) (by omega)
    rw [haddr] at hne ⊢
    rw [samePage_iff_div (by omega) (by omega), hto, hnext] at hne
    have hfar : ¬ SamePage (v + ofNat 64 (4096 + j)) v := by
      rw [samePage_iff_div (by omega) (by omega), hto]
      omega
    obtain ⟨h1, h2⟩ := hserved (4096 + j) (by omega) hfar
    exact ⟨h1, (h.leaf_eq hv (roundBytes_le bytes).1 (by omega) (by omega)).trans h2⟩
  · rw [roundBytes_of_le (by omega), BitVec.sub_self] at hj
    cases hj

/-- What a round finds: `bytes` bytes of the file are left to be read to `v`, and nothing is mapped behind the page of
`v`. -/
structure Reading (t : Tape) (i : Nat) (x : Member) (fd : Nat) (proc : Proc) (k : Kernel) (files : Files)
    (offset v bytes : Word) : Prop where
  running : k.proc? = some proc
  wf : WellFormed (· ≠ selfRefEntry) k.sys.mach (· = proc.pml4)
  self : SelfRef k.sys.mach proc.pml4
  archive : ArchiveIn t k proc
  member : t.members[i]? = some x
  regular : x.Regular
  opened : ∃ p, files.openFiles fd = some ⟨t.headerOf i, p⟩
  within : offset.toNat + bytes.toNat ≤ x.contents.length ∨ bytes = 0
  low : v.toNat + bytes.toNat ≤ 2 ^ 47
  served : ∀ j < bytes.toNat, ¬ SamePage (v + ofNat 64 j) v → Served k proc (v + ofNat 64 j) ∧
    leaf k.sys.mach.mem proc.pml4 (v + ofNat 64 j) = none

section Read

variable {x : Member} (h : Reading t i x fd proc k files offset v bytes) (h8 : 8 ≤ freeCount k.sys.mach.pages)
  (hv : v.toNat + 8192 ≤ 2 ^ 47)
include h h8 hv

/-- A round loads its bytes, into one page or two, and leaves the next round what it needs. -/
theorem Reading.step (prot : Word) (n : Nat) : ∃ s' z files', Spilled k proc v (roundBytes bytes).toNat z s' ∧
      VirtMem.Holds (k.withMach s') v ((x.contents.drop offset.toNat).take (roundBytes bytes).toNat) ∧
      Reading t i x fd proc (k.withMach s') files' (offset + Vma.sizeofPage) (v + Vma.sizeofPage)
        (bytes - roundBytes bytes) ∧
      mmapLoop fd prot (n + 1) k files offset v bytes =
        mmapLoop fd prot n (k.withMach s') files' (offset + Vma.sizeofPage) (v + Vma.sizeofPage)
          (bytes - roundBytes bytes) := by
  obtain ⟨hround, hle⟩ := roundBytes_le bytes
  obtain ⟨p, hfd⟩ := h.opened
  have hslot := lower_slot (show v.toNat < 2 ^ 47 by omega)
  obtain ⟨u, z, hnew, heq⟩ := mmapLoop_succ h.running h.wf h.self hslot (by omega) fd n prot offset bytes files
  have hfill : Filling k proc v (roundBytes bytes).toNat z u :=
    NewPage.filling hv hround h.wf hnew (writable_or prot) fun j hj hne => (h.served j (by omega) hne).2
  have hapart : ∀ b, t.Has b → ∀ a, Touched v (roundBytes bytes).toNat a → ¬ SamePage b a := by
    intro b hb a ha hsame
    obtain ⟨c, hc, -, hlt⟩ := ha.near hv hround
    exact not_samePage_of_has hb (by omega) (samePage_trans hsame hc)
  have hbuf := (Filling.buffer (z := z) hv hround h.running h.wf h8 fun j hj hne => (h.served j (by omega) hne).1).mono
    fun b hb => ⟨h.archive.mapped b hb, hapart b hb⟩
  have hbytes : VirtMem.Holds (k.withMach u) t.start (tape t.members) := h.archive.bytes.congr fun j hj =>
    hfill.remaps.load_eq h.running (hapart _ (Tape.has_add hj)) (h.archive.mapped _ (Tape.has_add hj)) h.wf
  have hin : offset.toNat + (roundBytes bytes).toNat ≤ x.contents.length ∨ roundBytes bytes = 0 :=
    h.within.imp (by omega) (by rintro rfl; rfl)
  obtain ⟨k1, files', p', hread, ⟨s1, rfl, hfill1⟩, hopen, hholds⟩ := sysRead_round hbytes h.member h.regular hfd hbuf
    ⟨u, rfl, hfill⟩ hin
  obtain ⟨s', hs', hspilled, hload⟩ := hfill1.protect hv hround h.running (present_or prot)
  have hmaps := hspilled.behind hv hround
  have hl : x.contents.length < 2 ^ 64 := lt_trans (Tape.openFile hbytes h.member h.regular).file.short (by decide)
  refine ⟨s', z, files', hspilled, hholds.congr fun j hj => ?_, ⟨h.running, hmaps.wf, hmaps.self,
    h.archive.remaps h.running h.wf hmaps fun a ha => ha.2, h.member, h.regular, ⟨p', hopen⟩, rest_in hl h.within, ?_,
    hspilled.next hv h.low h.served⟩, ?_⟩
  · rw [List.length_take] at hj
    exact hload j (by omega)
  · have hnext := toNat_next (v := v) (by omega)
    have hrest : (bytes - roundBytes bytes).toNat = bytes.toNat - (roundBytes bytes).toNat :=
      toNat_sub_of_le (le_def.2 hle)
    have hlow := h.low
    by_cases hbig : 4096 < bytes.toNat
    · rw [hnext, hrest, roundBytes_of_lt hbig]
      show v.toNat + 4096 + (bytes.toNat - 4096) ≤ _
      omega
    · rw [hnext, hrest, roundBytes_of_le (by omega)]
      omega
  · rw [heq, hread, bind_some]
    dsimp only
    rw [updateCurrPageTable_withMach h.running hs', bind_some]

end Read

/-- The loop returns, and changes entries from the first page on only. -/
theorem Reading.returns {x : Member} (h : Reading t i x fd proc k files offset v bytes)
    (hc : 8 * n ≤ freeCount k.sys.mach.pages) (hv : v.toNat + 4096 * n + 4096 ≤ 2 ^ 47) (prot : Word) :
    ∃ s' files', mmapLoop fd prot n k files offset v bytes = some (k.withMach s', files') ∧
      Remaps proc.pml4 k.sys.mach s' (Behind v) := by
  induction n generalizing k files offset v bytes with
  | zero => exact ⟨k.sys.mach, files, rfl, .refl h.wf h.self⟩
  | succ n ih =>
    rw [Nat.mul_succ, ← Nat.add_assoc] at hv
    have hv' : v.toNat + 8192 ≤ 2 ^ 47 := by omega
    have hnext := toNat_next (v := v) (by omega)
    obtain ⟨u, z, files1, hspilled, -, hreading, heq⟩ := h.step (by omega) hv' prot n
    have hcount := hspilled.count
    obtain ⟨s', files', hrest, hmaps⟩ := ih hreading (by rw [withMach_mach]; omega) (by omega)
    refine ⟨s', files', by rw [heq, hrest]; rfl,
      (hspilled.behind hv' (roundBytes_le bytes).1).trans (hmaps.mono fun a ha => ⟨?_, ha.2⟩)⟩
    have := ha.1
    omega

end Adix.Mmap
