import Adix.Space.Areas
import Adix.Space.Maps
import Adix.Tarfs.Seek

/-!
# Mapping files (`do_mmap` in `sys/memory/mm_struct.c`)

`do_mmap` makes an area for a part of a file and fills it page by page. `sys_read` writes at the addresses of the
process, with `CR0.WP` set, so that a page fault there is served as for the process itself. A result `none` is that the
kernel faults without a page being provided, or that the handler ends the process.
-/

namespace Adix.Mmap

open PageTable PhysPages Cow Space Tarfs

/-- The kernel at work for the process `running`; `env` is what page faults find. -/
structure Kernel where
  sys : Sys
  running : Nat
  env : Cow.Env

def putByte (s : Mach) (page : Nat) (a : Word) (b : BitVec 8) : Mach :=
  { s with mem := fun q => if q = page then setPageByte a b (s.mem q) else s.mem q }

namespace Kernel

def proc? (k : Kernel) : Option Proc := k.sys.procs[k.running]?

def withMach (k : Kernel) (s : Mach) : Kernel := { k with sys := { k.sys with mach := s } }

def entry (k : Kernel) (a : Word) : Option Word := entryOf k.sys k.running a

def byteOf (page : Index → Word) (a : Word) : BitVec 8 := getByte (page (indexWord a)) (a.toNat % 8)

def load (k : Kernel) (a : Word) : Option (BitVec 8) :=
  (k.entry a).map fun e => byteOf (k.sys.mach.mem (hardwareFormat.next e)) a

def write (k : Kernel) (a : Word) (b : BitVec 8) : Option Kernel :=
  (k.entry a).bind fun e =>
    if writeBit e then
      some (k.withMach (putByte k.sys.mach (hardwareFormat.next e) a b))
    else none

def faultCode (k : Kernel) (a : Word) : Word :=
  if (k.entry a).isSome then pfErrorCodeW ||| pfErrorCodeP else pfErrorCodeW

/-- A byte written; if this is a page fault, it is written again after the handler has returned. -/
def store (k : Kernel) (a : Word) (b : BitVec 8) : Option Kernel :=
  match k.write a b with
  | some k' => some k'
  | none => (pageFaultHandler k.sys k.running k.env a (k.faultCode a)).bind fun (y, ret) =>
    match ret with
    | .exit => none
    | .value _ => ({ k with sys := y } : Kernel).write a b

instance : VirtMem Kernel where
  load := load
  store := store

def updateCurrPageTable (k : Kernel) (phys virt accessPerm : Word) : Option Kernel :=
  k.proc?.bind fun proc =>
    (PageTable.updateCurrPageTable k.sys.mach proc.pml4 phys virt accessPerm).map fun (s, _) => k.withMach s

end Kernel

/-- `num_pages`, an `int`: how often the loop runs. -/
def numPages (len : Word) : Nat := ((len / Vma.sizeofPage + 1).setWidth 32).toInt.toNat

/-- The loop of `do_mmap`, `n` times from `v_addr` on. -/
def mmapLoop (fd : Nat) (prot : Word) : Nat → Kernel → Files → Word → Word → Word → Option (Kernel × Files)
  | 0, k, files, _, _, _ => some (k, files)
  | n + 1, k, files, offset, vAddr, bytes =>
    let (s, phys) := k.sys.mach.allocPage
    ((k.withMach s).updateCurrPageTable (BitVec.ofNat 64 phys) vAddr (prot ||| pageTransReadWrite)).bind fun k =>
      (sysRead k (sysLseek files fd offset seekSet).1 fd vAddr
        (if Vma.sizeofPage < bytes then Vma.sizeofPage else bytes)).bind fun (k, files, bytesRead) =>
          (k.updateCurrPageTable 0 vAddr (prot ||| pageTransPresent)).bind fun k =>
            mmapLoop fd prot n k files (offset + Vma.sizeofPage) (vAddr + Vma.sizeofPage) (bytes - bytesRead)

/-- The `mmap` of `do_mmap`, with the areas of the process: the state afterwards and `v_addr`. -/
def mmapArea (k : Kernel) (proc : Proc) (addr len prot : Word) : Kernel × Word :=
  let (l, vAddr) := Vma.mmap k.env.toEnv proc.mmap addr len prot 0
  ({ k with sys := { k.sys with procs := k.sys.procs.set k.running { proc with mmap := l } } }, vAddr)

/-- `do_mmap` with the areas of the process, which returns 0. When the area is not at `addr`, the loop goes on with the
address where it is. -/
def doMmap (k : Kernel) (files : Files) (fd : Nat) (offset addr len prot : Word) : Option (Kernel × Files) :=
  k.proc?.bind fun proc =>
    let (k, vAddr) := mmapArea k proc addr len prot
    mmapLoop fd prot (numPages len) k files offset vAddr len

open Option BitVec
open BitVec (ofNat)

variable {s s' s'' u : Mach} {r q z n fd j : Nat} {a b x v e perm prot offset bytes p w : Word} {c : BitVec 8}
  {P Q : Word → Prop} {k k' : Kernel} {proc : Proc} {files : Files}

private theorem getLsbD_ff {i : Nat} : (0xff : Word).getLsbD i = decide (i < 8) := by
  show (0xff : Nat).testBit i = _
  exact Nat.testBit_two_pow_sub_one 8 i

private theorem getLsbD_setByte {i : Nat} (hi : i < 64) :
    (setByte w j c).getLsbD i = if 8 * j ≤ i ∧ i < 8 * j + 8 then c.getLsbD (i - 8 * j) else w.getLsbD i := by
  unfold setByte
  simp only [getLsbD_or, getLsbD_and, getLsbD_not, getLsbD_shiftLeft, getLsbD_setWidth,
    getLsbD_ff, hi, decide_true, Bool.true_and]
  by_cases h1 : i < 8 * j
  · rw [if_neg (by omega)]
    simp [h1]
  · by_cases h2 : i < 8 * j + 8
    · rw [if_pos (by omega)]
      simp [h1, show i - 8 * j < 8 by omega, show i - 8 * j < 64 by omega]
    · rw [if_neg (by omega)]
      have hc : c.getLsbD (i - 8 * j) = false := getLsbD_of_ge _ _ (by omega)
      simp [hc, show ¬ i - 8 * j < 8 by omega]

theorem getByte_setByte {i : Nat} (hi : i < 8) (hj : j < 8) :
    getByte (setByte w j c) i = if i = j then c else getByte w i := by
  apply eq_of_getLsbD_eq
  intro l hl
  rw [getByte, getLsbD_extractLsb', getLsbD_setByte (by omega)]
  by_cases hij : i = j
  · subst hij
    rw [if_pos (by omega), if_pos rfl, Nat.add_sub_cancel_left]
    simp [hl]
  · rw [if_neg (by omega), if_neg hij, getByte, getLsbD_extractLsb']

theorem toNat_indexWord : (indexWord a).toNat = a.toNat / 8 % 512 := by
  unfold indexWord
  rw [toNat_setWidth, toNat_ushiftRight, Nat.shiftRight_eq_div_pow]

/-- A byte that is written is read back, and the others are as before. -/
theorem byteOf_setPageByte {page : Index → Word} : Kernel.byteOf (setPageByte a c page) x =
    if x.toNat % 4096 = a.toNat % 4096 then c else Kernel.byteOf page x := by
  unfold Kernel.byteOf setPageByte
  have hindex : indexWord x = indexWord a ↔ x.toNat / 8 % 512 = a.toNat / 8 % 512 := by
    rw [← toNat_inj, toNat_indexWord, toNat_indexWord]
  by_cases hw : indexWord x = indexWord a
  · rw [if_pos hw, getByte_setByte (by omega) (by omega)]
    have := hindex.1 hw
    by_cases hb : x.toNat % 8 = a.toNat % 8
    · rw [if_pos hb, if_pos (by omega)]
    · rw [if_neg hb, if_neg (by omega)]
  · rw [if_neg hw, if_neg fun hx => hw (hindex.2 (by omega))]

/-- What updates and writes do to the table `r`: entries change for the addresses `P` only, and pages that are neither
tables nor taken off the free list keep their contents. -/
structure Remaps (r : Nat) (s s' : Mach) (P : Word → Prop) : Prop where
  wf : WellFormed (· ≠ selfRefEntry) s' (· = r)
  self : SelfRef s' r
  elsewhere : ∀ b, indexPml4e b ≠ selfRefEntry → (∀ a, P a → ¬ SamePage b a) → leaf s'.mem r b = leaf s.mem r b
  tables : ∀ q, TableOf r s' q → TableOf r s q ∨ Free s q
  outside : ∀ q, ¬ TableOf r s q → (Free s q → Free s' q) → s'.mem q = s.mem q
  free_sub : ∀ q, Free s' q → Free s q

namespace Remaps

theorem refl (hw : WellFormed (· ≠ selfRefEntry) s (· = r)) (hself : SelfRef s r) : Remaps r s s P :=
  ⟨hw, hself, fun _ _ _ => rfl, fun _ hq => .inl hq, fun _ _ _ => rfl, fun _ hq => hq⟩

theorem mono (h : Remaps r s s' P) (hPQ : ∀ a, P a → Q a) : Remaps r s s' Q :=
  ⟨h.wf, h.self, fun b hb hne => h.elsewhere b hb fun a ha => hne a (hPQ a ha), h.tables, h.outside, h.free_sub⟩

theorem widen (h : Remaps r s s' P) (hPQ : ∀ a, P a → ∃ b, Q b ∧ SamePage a b) : Remaps r s s' Q := by
  refine ⟨h.wf, h.self, fun b hb hne => h.elsewhere b hb fun a ha hsame => ?_, h.tables, h.outside, h.free_sub⟩
  obtain ⟨c, hc, hac⟩ := hPQ a ha
  exact hne c hc fun i h1 h2 => (hsame i h1 h2).trans (hac i h1 h2)

/-- An update of one entry. -/
theorem of_maps (h : Maps r s s' a e) : Remaps r s s' (· = a) :=
  ⟨h.wf, h.self, fun b hb hne => h.elsewhere b hb (hne a rfl), h.tables, h.outside, h.free_sub⟩

theorem trans (h : Remaps r s s' P) (h' : Remaps r s' s'' P) : Remaps r s s'' P where
  wf := h'.wf
  self := h'.self
  elsewhere b hb hne := (h'.elsewhere b hb hne).trans (h.elsewhere b hb hne)
  tables q hq := by
    rcases h'.tables q hq with hq | hq
    · exact h.tables q hq
    · exact .inr (h.free_sub q hq)
  outside q ht hf := by
    have ht' : ¬ TableOf r s' q := fun hq => (h.tables q hq).elim ht fun hfree =>
      (h.wf.table q hq).2.2 (h'.free_sub q (hf hfree))
    rw [h'.outside q ht' fun hq => hf (h.free_sub q hq), h.outside q ht fun hq => h'.free_sub q (hf hq)]
  free_sub q hq := h.free_sub q (h'.free_sub q hq)

theorem data (h : Remaps r s s' P) (ht : ¬ TableOf r s q) (hf : ¬ Free s q) : ¬ TableOf r s' q ∧ ¬ Free s' q :=
  ⟨fun hq => (h.tables q hq).elim ht hf, fun hq => hf (h.free_sub q hq)⟩

end Remaps

def withPage (s : Mach) (z : Nat) (page : Index → Word) : Mach :=
  { s with mem := fun q => if q = z then page else s.mem q }

private theorem withPage_self (s : Mach) (z : Nat) : withPage s z (s.mem z) = s := by
  unfold withPage
  congr
  funext q
  split
  · next h => rw [h]
  · rfl

private theorem putByte_withPage {page : Index → Word} :
    putByte (withPage s z page) z a c = withPage s z (setPageByte a c page) := by
  unfold putByte withPage
  congr 1
  funext q
  by_cases hq : q = z
  · simp [hq]
  · simp [hq]

theorem putByte_eq : putByte s z a c = withPage s z (setPageByte a c (s.mem z)) := by
  rw [← putByte_withPage, withPage_self]

section Page

variable {page : Index → Word} (hw : WellFormed (· ≠ selfRefEntry) s (· = r)) (hz : ¬ TableOf r s z)
include hw hz

private theorem keepsTables_withPage : KeepsTables r s (withPage s z page) := by
  refine ⟨fun q hq => ?_, hw.listed, rfl, fun _ hq => hq⟩
  exact if_neg fun hqz : q = z => hz (hqz ▸ hq)

theorem leaf_withPage (hb : indexPml4e b ≠ selfRefEntry) : leaf (withPage s z page).mem r b = leaf s.mem r b :=
  (keepsTables_withPage hw hz).leaf_eq hb

theorem tableOf_withPage : TableOf r (withPage s z page) q ↔ TableOf r s q :=
  isTable_of_tables (keepsTables_withPage hw hz).mem_eq

/-- A page that was free may be filled. -/
theorem Remaps.withPage (h : Remaps r s' s P) (hfree : Free s' z) (htaken : ¬ Free s z) :
    Remaps r s' (Mmap.withPage s z page) P where
  wf := (keepsTables_withPage hw hz).wf hw
  self := (keepsTables_withPage hw hz).self h.self
  elsewhere b hb hne := (leaf_withPage hw hz hb).trans (h.elsewhere b hb hne)
  tables q hq := h.tables q ((tableOf_withPage hw hz).1 hq)
  outside q ht hf := by
    have hne : q ≠ z := fun hqz => htaken (hqz ▸ hf (hqz ▸ hfree))
    rw [← h.outside q ht hf]
    exact if_neg hne
  free_sub := h.free_sub

end Page

@[simp] theorem Kernel.withMach_mach : (k.withMach s).sys.mach = s := rfl

@[simp] private theorem Kernel.withMach_proc : (k.withMach s).proc? = k.proc? := rfl

@[simp] theorem Kernel.withMach_withMach : (k.withMach s).withMach s' = k.withMach s' := rfl

theorem Kernel.entry_eq (hp : k.proc? = some proc) (hw : WellFormed (· ≠ selfRefEntry) k.sys.mach (· = proc.pml4))
    (hb : indexPml4e b ≠ selfRefEntry) : k.entry b = leaf k.sys.mach.mem proc.pml4 b := by
  unfold Kernel.proc? at hp
  rw [Kernel.entry, entryOf, hp, bind_some]
  exact hardwareLeaf_eq_leaf hw hb

/-- The kernel reads the byte that the leaf entry leads to. -/
theorem Kernel.load_eq (hp : k.proc? = some proc) (hw : WellFormed (· ≠ selfRefEntry) k.sys.mach (· = proc.pml4))
    (hb : indexPml4e b ≠ selfRefEntry) : VirtMem.load k b =
      (leaf k.sys.mach.mem proc.pml4 b).map fun e => byteOf (k.sys.mach.mem (hardwareFormat.next e)) b := by
  show k.load b = _
  rw [Kernel.load, Kernel.entry_eq hp hw hb]

def MappedData (r : Nat) (s : Mach) (b : Word) : Prop := indexPml4e b ≠ selfRefEntry ∧
  ∃ e, leaf s.mem r b = some e ∧ ¬ TableOf r s (hardwareFormat.next e) ∧ ¬ Free s (hardwareFormat.next e)

section Frame

variable (hp : k.proc? = some proc) (hr : Remaps proc.pml4 k.sys.mach s P) (hne : ∀ a, P a → ¬ SamePage b a)
  (hb : MappedData proc.pml4 k.sys.mach b)
include hr hne hb

theorem Remaps.mappedData : MappedData proc.pml4 s b := by
  obtain ⟨hslot, e, he, ht, hf⟩ := hb
  exact ⟨hslot, e, (hr.elsewhere b hslot hne).trans he, hr.data ht hf⟩

include hp

/-- At addresses of other pages the same bytes are read. -/
theorem Remaps.load_eq (hw : WellFormed (· ≠ selfRefEntry) k.sys.mach (· = proc.pml4)) :
    VirtMem.load (k.withMach s) b = VirtMem.load k b := by
  obtain ⟨hslot, e, he, ht, hf⟩ := hb
  rw [Kernel.load_eq (k := k.withMach s) hp hr.wf hslot, Kernel.load_eq hp hw hslot, Kernel.withMach_mach,
    hr.elsewhere b hslot hne, he, map_some, map_some, hr.outside _ ht fun h => absurd h hf]

end Frame

theorem toNat_add_of_lt {i : Nat} (hi : v.toNat + i < 2 ^ 64) : (v + ofNat 64 i).toNat = v.toNat + i := by
  rw [BitVec.toNat_add, toNat_ofNat, Nat.mod_eq_of_lt (show i < 2 ^ 64 by omega), Nat.mod_eq_of_lt hi]

theorem toNat_add_ofNat {i : Nat} (hi : v.toNat % 4096 + i < 4096) : (v + ofNat 64 i).toNat = v.toNat + i := by
  exact toNat_add_of_lt (by omega)

theorem samePage_of_div (h : a.toNat / 4096 = b.toNat / 4096) : SamePage a b := by
  intro i h1 h2
  have hbit : ∀ x : Word, x.getLsbD i = (x.toNat / 2 ^ 12).testBit (i - 12) := by
    intro x
    rw [Nat.testBit_div_two_pow, Nat.sub_add_cancel h1]
    rfl
  rw [hbit, hbit]
  exact congrArg (·.testBit (i - 12)) h

theorem samePage_add {i : Nat} (hi : v.toNat % 4096 + i < 4096) : SamePage (v + ofNat 64 i) v := by
  apply samePage_of_div
  rw [toNat_add_ofNat hi]
  omega

theorem indexPml4e_of_samePage (h : SamePage a b) : indexPml4e a = indexPml4e b := by
  have hpath := (samePage_iff.1 h).1
  exact (List.cons.inj hpath).1

structure WritesTo (r : Nat) (s : Mach) (v : Word) (z : Nat) : Prop where
  wf : WellFormed (· ≠ selfRefEntry) s (· = r)
  slot : indexPml4e v ≠ selfRefEntry
  entry : ∃ e, leaf s.mem r v = some e ∧ writeBit e = true ∧ hardwareFormat.next e = z
  data : ¬ TableOf r s z

private theorem WritesTo.withPage {page : Index → Word} (h : WritesTo r s v z) :
    WritesTo r (withPage s z page) v z where
  wf := (keepsTables_withPage h.wf h.data).wf h.wf
  slot := h.slot
  entry := by
    rw [leaf_withPage h.wf h.data h.slot]
    exact h.entry
  data := (tableOf_withPage h.wf h.data).not.2 h.data

private theorem WritesTo.samePage (h : WritesTo r s v z) (hx : SamePage x v) : WritesTo r s x z where
  wf := h.wf
  slot := by
    rw [indexPml4e_of_samePage hx]
    exact h.slot
  entry := by
    rw [leaf_samePage hx]
    exact h.entry
  data := h.data

section Write

variable {i : Nat} (hp : k.proc? = some proc) (h : WritesTo proc.pml4 k.sys.mach v z)
include hp h

/-- A write to the new page is no page fault. -/
theorem Kernel.write_eq (c : BitVec 8) : k.write v c = some (k.withMach (putByte k.sys.mach z v c)) := by
  obtain ⟨e, he, hwr, hz⟩ := h.entry
  rw [Kernel.write, Kernel.entry_eq hp h.wf h.slot, he, bind_some, if_pos hwr, hz]

private theorem Kernel.load_page : VirtMem.load k v = some (byteOf (k.sys.mach.mem z) v) := by
  obtain ⟨e, he, -, hz⟩ := h.entry
  rw [Kernel.load_eq hp h.wf h.slot, he, map_some, hz]

private theorem WritesTo.buffer (hn : v.toNat % 4096 + n ≤ 4096) :
    VirtMem.Buffer (fun m => ∃ page, m = k.withMach (Mmap.withPage k.sys.mach z page))
      (fun b => indexPml4e b ≠ selfRefEntry ∧ ∀ e, leaf k.sys.mach.mem proc.pml4 b = some e →
        hardwareFormat.next e ≠ z) v n := by
  refine ⟨?_⟩
  rintro _ ⟨page, rfl⟩ i hi c
  set m := k.withMach (Mmap.withPage k.sys.mach z page)
  have hm : m.proc? = some proc := hp
  have hat : ∀ j < n, WritesTo proc.pml4 m.sys.mach (v + ofNat 64 j) z := fun j hj =>
    h.withPage.samePage (samePage_add (by omega))
  have hwrite : m.write (v + ofNat 64 i) c =
      some (k.withMach (Mmap.withPage k.sys.mach z (setPageByte (v + ofNat 64 i) c page))) := by
    rw [Kernel.write_eq hm (hat i hi), Kernel.withMach_mach, putByte_withPage]
    rfl
  set m' := k.withMach (Mmap.withPage k.sys.mach z (setPageByte (v + ofNat 64 i) c page))
  have hat' : ∀ j < n, WritesTo proc.pml4 m'.sys.mach (v + ofNat 64 j) z := fun j hj =>
    h.withPage.samePage (samePage_add (by omega))
  have hbyte : ∀ j < n,
      VirtMem.load m' (v + ofNat 64 j) = some (if j = i then c else Kernel.byteOf page (v + ofNat 64 j)) := by
    intro j hj
    rw [Kernel.load_page (k := m') hp (hat' j hj), Kernel.withMach_mach]
    show some (Kernel.byteOf (if z = z then _ else _) _) = _
    rw [if_pos rfl, byteOf_setPageByte, toNat_add_ofNat (by omega), toNat_add_ofNat (by omega)]
    by_cases hji : j = i
    · rw [if_pos (by omega), if_pos hji]
    · rw [if_neg (by omega), if_neg hji]
  refine ⟨m', ?_, ⟨_, rfl⟩, ?_, fun j hj d hd => ?_, fun b hb => ?_⟩
  · show m.store _ _ = _
    rw [Kernel.store, hwrite]
  · rw [hbyte i hi, if_pos rfl]
  · rw [hbyte j (by omega), if_neg (by omega), ← hd, Kernel.load_page hm (hat j (by omega)), Kernel.withMach_mach]
    show _ = some (Kernel.byteOf (if z = z then _ else _) _)
    rw [if_pos rfl]
  · -- the reader's pages are others
    obtain ⟨hslot, hother⟩ := hb
    have hkeep : ∀ pg, WellFormed (· ≠ selfRefEntry) (Mmap.withPage k.sys.mach z pg) (· = proc.pml4) := fun pg =>
      (keepsTables_withPage h.wf h.data).wf h.wf
    rw [Kernel.load_eq (k := m') hp (hkeep _) hslot, Kernel.load_eq (k := m) hp (hkeep _) hslot, Kernel.withMach_mach,
      Kernel.withMach_mach, leaf_withPage h.wf h.data hslot, leaf_withPage h.wf h.data hslot]
    cases he : leaf k.sys.mach.mem proc.pml4 b with
    | none => rfl
    | some e =>
      show some (Kernel.byteOf (if _ = z then _ else _) _) = some (Kernel.byteOf (if _ = z then _ else _) _)
      rw [if_neg (hother e he), if_neg (hother e he)]

end Write

/-- What one round does: the address has a page that was free, and all else that changes are pages that were free. -/
structure PageLoaded (r : Nat) (s s' : Mach) (v : Word) (z : Nat) : Prop where
  remaps : Remaps r s s' (· = v)
  wasFree : Free s z
  taken : ¬ Free s' z
  data : ¬ TableOf r s' z
  entry : ∃ e, leaf s'.mem r v = some e ∧ hardwareFormat.next e = z
  count : freeCount s.pages ≤ freeCount s'.pages + 4

theorem hardware_next_leafEntry (hz : PageAddr z) : hardwareFormat.next (leafEntry (ofNat 64 z) perm) = z := by
  have hnext : entryFormat.next (leafEntry (ofNat 64 z) perm) = z := next_leafEntry_ofNat hz
  rw [hardware_next (by rw [hnext]; exact hz.lt), hnext]

theorem hardware_next_withPerm : hardwareFormat.next (withPerm e perm) = hardwareFormat.next e := by
  show (pageTransNextLevelAddr (withPerm e perm)).toNat = (pageTransNextLevelAddr e).toNat
  congr 1
  apply eq_of_getLsbD_eq
  intro i hi
  unfold withPerm
  simp only [getLsbD_nextLevelAddr, getLsbD_nonAddrFields, getLsbD_or]
  by_cases h : 12 ≤ i ∧ i < 52
  · simp [h]
  · simp [h]

theorem present_or (prot : Word) : entryFormat.present (prot ||| pageTransPresent) = true := by
  rw [present_eq, getLsbD_or]
  simp [pageTransPresent]

theorem writable_or (prot : Word) : (prot ||| pageTransReadWrite).getLsbD 1 = true := by
  rw [getLsbD_or]
  simp [pageTransReadWrite]

private theorem NewPage.writesTo (hw : WellFormed (· ≠ selfRefEntry) s (· = r)) (hv : indexPml4e v ≠ selfRefEntry)
    (h : NewPage r s u v perm z) (hperm : perm.getLsbD 1 = true) : WritesTo r u v z where
  wf := h.wf
  slot := hv
  entry := ⟨_, h.here, by rw [writeBit_leafEntry]; exact hperm, hardware_next_leafEntry (hw.free z h.wasFree)⟩
  data := h.data

private theorem NewPage.protect (hv : indexPml4e v ≠ selfRefEntry) (hw : WellFormed (· ≠ selfRefEntry) s (· = r))
    (h : NewPage r s u v perm z) (hp : entryFormat.present prot = true) (page : Index → Word) :
    ∃ s', updateCurrPageTable (withPage u z page) r 0 v prot = some (s', 0) ∧ PageLoaded r s s' v z ∧
      s'.mem z = page := by
  have hkeeps : KeepsTables r u (withPage u z page) := keepsTables_withPage h.wf h.data
  have hleaf : leaf (withPage u z page).mem r v = _ := (leaf_withPage h.wf h.data hv).trans h.here
  have hdata : ¬ TableOf r (withPage u z page) z := (tableOf_withPage h.wf h.data).not.2 h.data
  have hfilled : Remaps r s (withPage u z page) (· = v) :=
    Remaps.withPage h.wf h.data (.of_maps h.toMaps) h.wasFree h.taken
  obtain ⟨s', hs', hm, hpages⟩ := updateCurrPageTable_protects (hkeeps.wf h.wf) (hkeeps.self h.self) hv hleaf hp
  have hkept := (Remaps.of_maps hm).data hdata h.taken
  refine ⟨s', hs', ⟨hfilled.trans (.of_maps hm), h.wasFree, hkept.2, hkept.1, ⟨_, hm.here, ?_⟩, ?_⟩, ?_⟩
  · rw [hardware_next_withPerm, hardware_next_leafEntry (hw.free z h.wasFree)]
  · have hcount := h.count
    have hmissing := missing_le s.mem r v
    rw [hpages]
    show _ ≤ freeCount u.pages + 4
    omega
  · rw [hm.outside z hdata fun hf => absurd hf h.taken]
    exact if_pos rfl

section Round

variable (hp : k.proc? = some proc) (hw : WellFormed (· ≠ selfRefEntry) k.sys.mach (· = proc.pml4))
  (hself : SelfRef k.sys.mach proc.pml4) (hv : indexPml4e v ≠ selfRefEntry) (hc : 4 ≤ freeCount k.sys.mach.pages)
include hp hw hself hv hc

def roundBytes (bytes : Word) : Word := if Vma.sizeofPage < bytes then Vma.sizeofPage else bytes

/-- One round, written out. -/
theorem mmapLoop_succ (fd n : Nat) (prot offset bytes : Word) (files : Files) :
    ∃ u z, NewPage proc.pml4 k.sys.mach u v (prot ||| pageTransReadWrite) z ∧
    mmapLoop fd prot (n + 1) k files offset v bytes =
      (sysRead (k.withMach u) (sysLseek files fd offset seekSet).1 fd v (roundBytes bytes)).bind
        fun (k, files, bytesRead) =>
        (k.updateCurrPageTable 0 v (prot ||| pageTransPresent)).bind fun k =>
          mmapLoop fd prot n k files (offset + Vma.sizeofPage) (v + Vma.sizeofPage) (bytes - bytesRead) := by
  have hmissing := missing_le k.sys.mach.mem proc.pml4 v
  obtain ⟨u0, z, u, halloc, -, hu, hnew⟩ :=
    allocPage_maps hw hself hv (show _ ≤ _ by omega) (prot ||| pageTransReadWrite)
  refine ⟨u, z, hnew, ?_⟩
  rw [mmapLoop, halloc]
  dsimp only
  rw [Kernel.updateCurrPageTable, Kernel.withMach_proc, hp, bind_some, Kernel.withMach_mach, hu]
  rfl

omit hc hself hw hv in
theorem updateCurrPageTable_withMach {phys accessPerm : Word} {ret : Int}
    (h : PageTable.updateCurrPageTable s proc.pml4 phys v accessPerm = some (s', ret)) :
    (k.withMach s).updateCurrPageTable phys v accessPerm = some (k.withMach s') := by
  rw [Kernel.updateCurrPageTable, Kernel.withMach_proc, hp, bind_some, Kernel.withMach_mach, h]
  rfl

/-- As long as what is read fits the page, the page of the address is the only one whose entry changes. -/
theorem mmapLoop_round {res : Kernel × Files} (hfit : v.toNat % 4096 + (roundBytes bytes).toNat ≤ 4096)
    (h : mmapLoop fd prot (n + 1) k files offset v bytes = some res) :
    ∃ s' z files' bytes', PageLoaded proc.pml4 k.sys.mach s' v z ∧
      mmapLoop fd prot n (k.withMach s') files' (offset + Vma.sizeofPage) (v + Vma.sizeofPage) bytes' = some res := by
  obtain ⟨u, z, hnew, heq⟩ := mmapLoop_succ hp hw hself hv hc fd n prot offset bytes files
  rw [heq] at h
  obtain ⟨⟨k1, files1, bytesRead⟩, hread, h⟩ := bind_eq_some_iff.1 h
  have hwrites := NewPage.writesTo hw hv hnew (writable_or prot)
  have hbuf := WritesTo.buffer (k := k.withMach u) hp hwrites hfit
  obtain ⟨page, rfl⟩ := sysRead_keeps hbuf ⟨u.mem z, by rw [Kernel.withMach_mach, withPage_self]; rfl⟩ hread
  obtain ⟨s', hs', hloaded, -⟩ := NewPage.protect hv hw hnew (present_or prot) page
  dsimp only at h
  rw [Kernel.withMach_withMach, Kernel.withMach_mach, updateCurrPageTable_withMach hp hs', bind_some] at h
  exact ⟨s', z, files1, bytes - bytesRead, hloaded, h⟩

end Round

structure ArchiveIn (t : Tape) (k : Kernel) (proc : Proc) : Prop where
  bytes : VirtMem.Holds k t.start (tape t.members)
  mapped : ∀ a, t.Has a → MappedData proc.pml4 k.sys.mach a

variable {t : Tape}

private theorem upper_of_has (ha : t.Has a) : 2 ^ 64 - 2 ^ 47 ≤ a.toNat := by
  have h1 := t.placed
  have h2 := ha.1
  unfold kernmem at h1
  omega

theorem not_samePage_of_has (ha : t.Has a) (hv : v.toNat < 2 ^ 47) : ¬ SamePage a v :=
  Vma.Unmap.not_samePage_upper (upper_of_has ha) hv

/-- The archive stays where it is. -/
theorem ArchiveIn.remaps (h : ArchiveIn t k proc) (hp : k.proc? = some proc)
    (hw : WellFormed (· ≠ selfRefEntry) k.sys.mach (· = proc.pml4)) (hr : Remaps proc.pml4 k.sys.mach s P)
    (hP : ∀ a, P a → a.toNat < 2 ^ 47) : ArchiveIn t (k.withMach s) proc := by
  have hne : ∀ a, t.Has a → ∀ b, P b → ¬ SamePage a b := fun a ha b hb => not_samePage_of_has ha (hP b hb)
  refine ⟨h.bytes.congr fun i hi => ?_, fun a ha => hr.mappedData (hne a ha) (h.mapped a ha)⟩
  have ha := Tape.has_add hi
  exact hr.load_eq hp (hne _ ha) (h.mapped _ ha) hw

private theorem WritesTo.archiveBuffer (hp : k.proc? = some proc) (h : WritesTo proc.pml4 u v z)
    (hsrc : ArchiveIn t k proc) (hr : Remaps proc.pml4 k.sys.mach u (· = v)) (hv : v.toNat < 2 ^ 47)
    (hfree : Free k.sys.mach z) (hn : v.toNat % 4096 + n ≤ 4096) :
    VirtMem.Buffer (fun m => ∃ page, m = k.withMach (Mmap.withPage u z page)) t.Has v n := by
  refine (WritesTo.buffer (k := k.withMach u) hp h hn).mono fun a ha => ?_
  obtain ⟨hslot, e, he, -, hf⟩ := hsrc.mapped a ha
  refine ⟨hslot, fun e' he' => ?_⟩
  have hsame : leaf u.mem proc.pml4 a = some e :=
    (hr.elsewhere a hslot fun b (hb : b = v) => hb ▸ not_samePage_of_has ha hv).trans he
  cases hsame.symm.trans he'
  rintro rfl
  exact hf hfree

private theorem PageLoaded.load_eq {i : Nat} (hp : k.proc? = some proc) (h : PageLoaded proc.pml4 s s' v z)
    (hv : indexPml4e v ≠ selfRefEntry) (hi : v.toNat % 4096 + i < 4096) :
    VirtMem.load (k.withMach s') (v + ofNat 64 i) = some (Kernel.byteOf (s'.mem z) (v + ofNat 64 i)) := by
  have hsame := samePage_add hi
  have hslot : indexPml4e (v + ofNat 64 i) ≠ selfRefEntry := by
    rw [indexPml4e_of_samePage hsame]
    exact hv
  obtain ⟨e, he, hz⟩ := h.entry
  rw [Kernel.load_eq (k := k.withMach s') hp h.remaps.wf hslot, Kernel.withMach_mach, leaf_samePage hsame, he,
    map_some, hz]

/-- The `sys_read` of a round delivers the bytes at `offset`. -/
theorem sysRead_round {I : Kernel → Prop} {i : Nat} {x : Member} (hbytes : VirtMem.Holds k t.start (tape t.members))
    (hx : t.members[i]? = some x) (hreg : x.Regular) (hfd : files.openFiles fd = some ⟨t.headerOf i, p⟩)
    (hbuf : VirtMem.Buffer I t.Has v (roundBytes bytes).toNat) (hk : I k)
    (hin : offset.toNat + (roundBytes bytes).toNat ≤ x.contents.length ∨ roundBytes bytes = 0) :
    ∃ k' files' p', sysRead k (sysLseek files fd offset seekSet).1 fd v (roundBytes bytes) =
        some (k', files', roundBytes bytes) ∧ I k' ∧ files'.openFiles fd = some ⟨t.headerOf i, p'⟩ ∧
      VirtMem.Holds k' v ((x.contents.drop offset.toNat).take (roundBytes bytes).toNat) := by
  have hseek : (sysLseek files fd offset seekSet).1.openFiles fd = some ⟨t.headerOf i, offset⟩ := by
    rw [sysLseek, hfd]
    exact Files.set_same _ _ _
  obtain ⟨k', rd, hread, hI, ⟨hrd, hholds⟩, -⟩ := sysRead_within (Tape.openFile hbytes hx hreg) hseek hbuf hk
    (hin.imp (fun h => by omega) id)
  have hall : rd = roundBytes bytes := by
    apply eq_of_toNat_eq
    rcases hin with hin | hin
    · omega
    · rw [hrd, hin]
      simp
  exact ⟨k', _, _, hall ▸ hread, hI, Files.set_same _ _ _, hholds⟩

/-- A round for a part of a file succeeds and loads its bytes. -/
theorem mmapLoop_read {i : Nat} {x : Member} (hp : k.proc? = some proc)
    (hw : WellFormed (· ≠ selfRefEntry) k.sys.mach (· = proc.pml4)) (hself : SelfRef k.sys.mach proc.pml4)
    (hc : 4 ≤ freeCount k.sys.mach.pages) (hv : v.toNat < 2 ^ 47)
    (hfit : v.toNat % 4096 + (roundBytes bytes).toNat ≤ 4096) (hsrc : ArchiveIn t k proc)
    (hx : t.members[i]? = some x) (hreg : x.Regular) (hfd : files.openFiles fd = some ⟨t.headerOf i, p⟩)
    (hin : offset.toNat + (roundBytes bytes).toNat ≤ x.contents.length ∨ roundBytes bytes = 0) (prot : Word) (n : Nat) :
    ∃ s' z files' p', PageLoaded proc.pml4 k.sys.mach s' v z ∧ files'.openFiles fd = some ⟨t.headerOf i, p'⟩ ∧
      VirtMem.Holds (k.withMach s') v ((x.contents.drop offset.toNat).take (roundBytes bytes).toNat) ∧
      mmapLoop fd prot (n + 1) k files offset v bytes =
        mmapLoop fd prot n (k.withMach s') files' (offset + Vma.sizeofPage) (v + Vma.sizeofPage)
          (bytes - roundBytes bytes) := by
  have hslot := Vma.Unmap.lower_slot hv
  obtain ⟨u, z, hnew, heq⟩ := mmapLoop_succ hp hw hself hslot hc fd n prot offset bytes files
  have hmaps : Remaps proc.pml4 k.sys.mach u (· = v) := .of_maps hnew.toMaps
  have hwrites := NewPage.writesTo hw hslot hnew (writable_or prot)
  have hbuf := hwrites.archiveBuffer hp hsrc hmaps hv hnew.wasFree hfit
  have hsrcu : ArchiveIn t (k.withMach u) proc := hsrc.remaps hp hw hmaps fun a ha => ha ▸ hv
  have hstart : ∃ page, k.withMach u = k.withMach (withPage u z page) := ⟨u.mem z, by rw [withPage_self]⟩
  obtain ⟨k1, files', p', hread, ⟨page, rfl⟩, hopen, hholds⟩ := sysRead_round hsrcu.bytes hx hreg hfd hbuf hstart hin
  obtain ⟨s', hs', hloaded, hpage⟩ := NewPage.protect hslot hw hnew (present_or prot) page
  refine ⟨s', z, files', p', hloaded, hopen, ?_, ?_⟩
  · -- the page has the contents that were written, with other permissions
    refine hholds.congr fun j hj => ?_
    rw [List.length_take] at hj
    have hj' : v.toNat % 4096 + j < 4096 := by omega
    have hat : WritesTo proc.pml4 (withPage u z page) (v + ofNat 64 j) z := hwrites.withPage.samePage (samePage_add hj')
    rw [hloaded.load_eq hp hslot hj', Kernel.load_page (k := k.withMach (withPage u z page)) hp hat, hpage,
      Kernel.withMach_mach]
    exact congrArg some (congrArg (Kernel.byteOf · _) (if_pos rfl).symm)
  · rw [heq, hread, bind_some]
    dsimp only
    rw [updateCurrPageTable_withMach hp hs', bind_some]

end Adix.Mmap
