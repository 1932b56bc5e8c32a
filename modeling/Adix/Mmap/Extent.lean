import Adix.Mmap.Machine

/-!
# The pages that `do_mmap` maps

The number of rounds is `len / 4096 + 1`: for a length that is a multiple of the size of a page this is one page more
than there are in `[addr, addr + len)`, and the page behind the area is replaced too.
-/

namespace Adix.Mmap

open PageTable PhysPages Cow Space Tarfs List Option BitVec
open BitVec (ofNat)
open Vma (mmap)

variable {s s' u : Mach} {r n fd z : Nat} {a b v prot offset addr len bytes : Word} {k k' : Kernel} {proc proc' : Proc}
  {files : Files} {t : Tape}

theorem toNat_next (hv : v.toNat + 4096 < 2 ^ 64) : (v + Vma.sizeofPage).toNat = v.toNat + 4096 := by
  show (v + 4096).toNat = _
  rw [BitVec.toNat_add]
  exact Nat.mod_eq_of_lt hv

theorem not_samePage_span (hv : v.toNat % 4096 = 0) (hend : v.toNat + 4096 * n ≤ 2 ^ 47) (hb : b.toNat < 2 ^ 47)
    (hout : ¬ Span v n b) (ha : Span v n a) : ¬ SamePage b a := by
  obtain ⟨h1, h2⟩ := ha
  rw [Vma.Unmap.samePage_iff_div hb (by omega)]
  intro hpage
  exact hout ⟨by omega, by omega⟩

/-- The `n` pages from `v` on are new: their frames were free and are in use now. All else is as before. -/
structure Replaced (r : Nat) (s s' : Mach) (v : Word) (n : Nat) : Prop where
  remaps : Remaps r s s' (Span v n)
  frame : ∀ a, Span v n a → ∃ e, leaf s'.mem r a = some e ∧ Free s (hardwareFormat.next e) ∧
    ¬ TableOf r s' (hardwareFormat.next e) ∧ ¬ Free s' (hardwareFormat.next e)
  count : freeCount s.pages ≤ freeCount s'.pages + 4 * n

private theorem Replaced.zero (hw : WellFormed (· ≠ selfRefEntry) s (· = r)) (hself : SelfRef s r) :
    Replaced r s s v 0 := by
  refine ⟨.refl hw hself, fun a ha => ?_, by omega⟩
  unfold Span at ha
  omega

private theorem Replaced.cons (h : PageLoaded r s u v z) (hrest : Replaced r u s' (v + Vma.sizeofPage) n)
    (hv : v.toNat % 4096 = 0) (hend : v.toNat + 4096 * n + 4096 ≤ 2 ^ 47) : Replaced r s s' v (n + 1) := by
  have hnext := toNat_next (v := v) (by omega)
  have hcount := h.count
  have hcount' := hrest.count
  refine ⟨(h.remaps.mono ?_).trans (hrest.remaps.mono ?_), fun a ha => ?_, by omega⟩
  · rintro _ rfl
    exact ⟨le_rfl, by omega⟩
  · intro a ha
    unfold Span at ha ⊢
    omega
  · by_cases hfirst : Span (v + Vma.sizeofPage) n a
    · obtain ⟨e, he, hfree, hdata⟩ := hrest.frame a hfirst
      exact ⟨e, he, h.remaps.free_sub _ hfree, hdata⟩
    · -- the first page is not touched again
      unfold Span at ha
      have hpage : SamePage a v := by
        apply samePage_of_div
        unfold Span at hfirst
        omega
      obtain ⟨e, he, rfl⟩ := h.entry
      refine ⟨e, ?_, h.wasFree, hrest.remaps.data h.data h.taken⟩
      rw [hrest.remaps.elsewhere a (Vma.Unmap.lower_slot (by omega)) fun b hb =>
        not_samePage_span (by omega) (by omega) (by omega) hfirst hb, leaf_samePage hpage, he]

theorem roundBytes_le (bytes : Word) : (roundBytes bytes).toNat ≤ 4096 ∧ (roundBytes bytes).toNat ≤ bytes.toNat := by
  unfold roundBytes
  split
  · next h =>
    have : 4096 < bytes.toNat := lt_def.1 h
    exact ⟨le_rfl, by show 4096 ≤ _; omega⟩
  · next h =>
    have : bytes.toNat ≤ 4096 := le_def.1 (BitVec.not_lt.1 h)
    exact ⟨this, le_rfl⟩

/-- Each round replaces the page at `v_addr`, and nothing else changes. -/
private theorem mmapLoop_replaces {res : Kernel × Files} (hp : k.proc? = some proc)
    (hw : WellFormed (· ≠ selfRefEntry) k.sys.mach (· = proc.pml4)) (hself : SelfRef k.sys.mach proc.pml4)
    (hv : v.toNat % 4096 = 0) (hend : v.toNat + 4096 * n ≤ 2 ^ 47) (hc : 4 * n ≤ freeCount k.sys.mach.pages)
    (h : mmapLoop fd prot n k files offset v bytes = some res) :
    ∃ s', res.1 = k.withMach s' ∧ Replaced proc.pml4 k.sys.mach s' v n := by
  induction n generalizing k files offset v bytes with
  | zero =>
    rw [mmapLoop] at h
    cases h
    exact ⟨k.sys.mach, rfl, .zero hw hself⟩
  | succ n ih =>
    have hround := roundBytes_le bytes
    rw [Nat.mul_succ, ← Nat.add_assoc] at hend
    obtain ⟨u, z, files', bytes', hload, hrest⟩ :=
      mmapLoop_round hp hw hself (Vma.Unmap.lower_slot (by omega)) (by omega) (by omega) h
    have hnext := toNat_next (v := v) (by omega)
    have hcount := hload.count
    obtain ⟨s', hs', hreplaced⟩ := ih (k := k.withMach u) hp hload.remaps.wf hload.remaps.self (by omega) (by omega)
      (by rw [Kernel.withMach_mach]; omega) hrest
    exact ⟨s', hs', hreplaced.cons hload hv hend⟩

section Loads

variable {i : Nat} {x : Member} {p : Word}

private theorem PageLoaded.load_kept {j : Nat} (hp : k.proc? = some proc) (h : PageLoaded proc.pml4 s u v z)
    (hrest : Replaced proc.pml4 u s' (v + Vma.sizeofPage) n) (hv : v.toNat % 4096 = 0)
    (hend : v.toNat + 4096 * n + 4096 ≤ 2 ^ 47) (hj : j < 4096) :
    VirtMem.load (k.withMach s') (v + ofNat 64 j) = VirtMem.load (k.withMach u) (v + ofNat 64 j) := by
  have hnext := toNat_next (v := v) (by omega)
  have hto : (v + ofNat 64 j).toNat = v.toNat + j := toNat_add_ofNat (by omega)
  have hmapped : MappedData proc.pml4 u (v + ofNat 64 j) := by
    obtain ⟨e, he, rfl⟩ := h.entry
    refine ⟨Vma.Unmap.lower_slot (by omega), e, ?_, h.data, h.taken⟩
    rw [leaf_samePage (samePage_add (by omega)), he]
  refine Remaps.load_eq (k := k.withMach u) hp hrest.remaps (fun a ha => ?_) hmapped h.remaps.wf
  refine not_samePage_span (by omega) (by omega) (by omega) (fun hin => ?_) ha
  have := hin.1
  omega

theorem roundBytes_of_lt (h : 4096 < bytes.toNat) : roundBytes bytes = Vma.sizeofPage :=
  if_pos (show Vma.sizeofPage < bytes from lt_def.2 h)

theorem roundBytes_of_le (h : bytes.toNat ≤ 4096) : roundBytes bytes = bytes :=
  if_neg fun hlt : Vma.sizeofPage < bytes => Nat.not_lt.2 h (lt_def.1 hlt)

theorem rest_in {l : List (BitVec 8)} (hl : l.length < 2 ^ 64)
    (hin : offset.toNat + bytes.toNat ≤ l.length ∨ bytes = 0) :
    (offset + Vma.sizeofPage).toNat + (bytes - roundBytes bytes).toNat ≤ l.length ∨ bytes - roundBytes bytes = 0 := by
  by_cases hbig : 4096 < bytes.toNat
  · rw [roundBytes_of_lt hbig]
    left
    rcases hin with hin | rfl
    · have h1 := toNat_next (v := offset) (by omega)
      have h2 : (bytes - 4096).toNat = bytes.toNat - 4096 := toNat_sub_of_le (le_def.2 (Nat.le_of_lt hbig))
      show _ + (bytes - 4096).toNat ≤ _
      omega
    · cases hbig
  · right
    rw [roundBytes_of_le (by omega)]
    exact BitVec.sub_self _

private theorem holds_round {l : List (BitVec 8)} (hl : l.length < 2 ^ 64)
    (hin : offset.toNat + bytes.toNat ≤ l.length ∨ bytes = 0)
    (h1 : VirtMem.Holds k v ((l.drop offset.toNat).take (roundBytes bytes).toNat))
    (h2 : VirtMem.Holds k (v + Vma.sizeofPage)
      ((l.drop (offset + Vma.sizeofPage).toNat).take (bytes - roundBytes bytes).toNat)) :
    VirtMem.Holds k v ((l.drop offset.toNat).take bytes.toNat) := by
  by_cases hbig : 4096 < bytes.toNat
  · rw [roundBytes_of_lt hbig] at h1 h2
    have hfile : offset.toNat + bytes.toNat ≤ l.length := hin.resolve_right (by rintro rfl; cases hbig)
    have hoff := toNat_next (v := offset) (by omega)
    have hrest : (bytes - Vma.sizeofPage).toNat = bytes.toNat - 4096 := toNat_sub_of_le (le_def.2 (Nat.le_of_lt hbig))
    have hfirst : ((l.drop offset.toNat).take 4096).length = 4096 := by
      rw [length_take, length_drop]
      omega
    rw [show bytes.toNat = 4096 + (bytes.toNat - 4096) by omega, take_add, VirtMem.holds_append, hfirst, drop_drop]
    rw [hoff, hrest] at h2
    exact ⟨h1, h2⟩
  · rw [roundBytes_of_le (by omega)] at h1
    exact h1

private theorem mmapLoop_loads (hp : k.proc? = some proc)
    (hw : WellFormed (· ≠ selfRefEntry) k.sys.mach (· = proc.pml4)) (hself : SelfRef k.sys.mach proc.pml4)
    (hv : v.toNat % 4096 = 0) (hend : v.toNat + 4096 * n ≤ 2 ^ 47) (hc : 4 * n ≤ freeCount k.sys.mach.pages)
    (hsrc : ArchiveIn t k proc) (hx : t.members[i]? = some x) (hreg : x.Regular)
    (hfd : files.openFiles fd = some ⟨t.headerOf i, p⟩) (hall : bytes.toNat ≤ 4096 * n)
    (hin : offset.toNat + bytes.toNat ≤ x.contents.length ∨ bytes = 0) (prot : Word) :
    ∃ s' files' p', mmapLoop fd prot n k files offset v bytes = some (k.withMach s', files') ∧
      Replaced proc.pml4 k.sys.mach s' v n ∧ files'.openFiles fd = some ⟨t.headerOf i, p'⟩ ∧
      VirtMem.Holds (k.withMach s') v ((x.contents.drop offset.toNat).take bytes.toNat) := by
  induction n generalizing k files offset v bytes p with
  | zero =>
    have hzero : bytes.toNat = 0 := by omega
    exact ⟨k.sys.mach, files, p, rfl, .zero hw hself, hfd, by simp [hzero]⟩
  | succ n ih =>
    rw [Nat.mul_succ, ← Nat.add_assoc] at hend
    rw [Nat.mul_succ] at hall
    obtain ⟨hround, hle⟩ := roundBytes_le bytes
    have hnext := toNat_next (v := v) (by omega)
    have hzero : bytes = 0 → roundBytes bytes = 0 := by rintro rfl; rfl
    have hlow : v.toNat < 2 ^ 47 := by omega
    have hin' : offset.toNat + (roundBytes bytes).toNat ≤ x.contents.length ∨ roundBytes bytes = 0 :=
      hin.imp (by omega) hzero
    obtain ⟨u, z, files1, p1, hload, hfd1, hpage, heq⟩ :=
      mmapLoop_read hp hw hself (by omega) hlow (by omega) hsrc hx hreg hfd hin' prot n
    have hcount := hload.count
    have hsrc1 : ArchiveIn t (k.withMach u) proc := hsrc.remaps hp hw hload.remaps fun a ha => ha ▸ hlow
    have hl : x.contents.length < 2 ^ 64 := lt_trans (Tape.openFile hsrc.bytes hx hreg).file.short (by decide)
    have hbytes : (bytes - roundBytes bytes).toNat = bytes.toNat - (roundBytes bytes).toNat :=
      toNat_sub_of_le (le_def.2 hle)
    have hleft : (bytes - roundBytes bytes).toNat ≤ 4096 * n := by
      by_cases hbig : 4096 < bytes.toNat
      · rw [hbytes, roundBytes_of_lt hbig]
        show bytes.toNat - 4096 ≤ _
        omega
      · rw [hbytes, roundBytes_of_le (by omega)]
        omega
    obtain ⟨s', files', p', hrest, hreplaced, hfd', hholds⟩ :=
      ih (k := k.withMach u) (v := v + Vma.sizeofPage) hp hload.remaps.wf
      hload.remaps.self (by omega) (by omega) (by rw [Kernel.withMach_mach]; omega) hsrc1 hfd1 hleft (rest_in hl hin)
    rw [Kernel.withMach_withMach] at hrest hholds
    refine ⟨s', files', p', by rw [heq, hrest], hreplaced.cons hload hv hend, hfd',
      holds_round hl hin (hpage.congr fun j hj => ?_) hholds⟩
    rw [length_take] at hj
    exact hload.load_kept hp hreplaced hv hend (hj.trans_le ((Nat.min_le_left _ _).trans hround))

end Loads

private theorem numPages_eq (len : Word) : numPages len =
    if 2 * ((len.toNat / 4096 + 1) % 2 ^ 32) < 2 ^ 32 then (len.toNat / 4096 + 1) % 2 ^ 32 else 0 := by
  have hto : (len / Vma.sizeofPage + 1).toNat = len.toNat / 4096 + 1 := by
    rw [BitVec.toNat_add, toNat_udiv]
    exact Nat.mod_eq_of_lt (by show len.toNat / 4096 + 1 < 2 ^ 64; omega)
  unfold numPages
  rw [toInt_eq_toNat_cond, toNat_setWidth, hto]
  split
  · exact Int.toNat_natCast _
  · exact Int.toNat_of_nonpos (by omega)

theorem numPages_of_lt (h : len.toNat / 4096 + 1 < 2 ^ 31) : numPages len = len.toNat / 4096 + 1 := by
  rw [numPages_eq, Nat.mod_eq_of_lt (by omega), if_pos (by omega)]

private theorem numPages_eq_iff (hlen : 0 < len.toNat) :
    numPages len = (len.toNat + 4095) / 4096 ↔ len.toNat % 4096 ≠ 0 ∧ len.toNat / 4096 + 1 < 2 ^ 31 := by
  rw [numPages_eq]
  split <;> omega

def Kernel.withAreas (k : Kernel) (proc : Proc) (l : List Vma.VmArea) : Kernel :=
  { k with sys := { k.sys with procs := k.sys.procs.set k.running { proc with mmap := l } } }

@[simp] theorem Kernel.withAreas_mach {l : List Vma.VmArea} : (k.withAreas proc l).sys.mach = k.sys.mach := rfl

section Placed

variable {l : List Vma.VmArea} (hp : k.proc? = some proc)
include hp

theorem Kernel.withAreas_proc : (k.withAreas proc l).proc? = some { proc with mmap := l } := by
  obtain ⟨hlt, -⟩ := List.getElem?_eq_some_iff.1 hp
  exact getElem?_set_self hlt

private theorem Kernel.withAreas_entry : (k.withAreas proc l).entry a = k.entry a := by
  have hp' := Kernel.withAreas_proc (l := l) hp
  unfold Kernel.proc? at hp hp'
  rw [Kernel.entry, Kernel.entry, entryOf, entryOf, hp']
  rw [hp]
  rfl

theorem Kernel.withAreas_load : VirtMem.load (k.withAreas proc l) a = VirtMem.load k a := by
  show Kernel.load _ _ = Kernel.load _ _
  rw [Kernel.load, Kernel.withAreas_entry hp]
  rfl

/-- When `mmap` gives the address asked for, the rest is the loop. -/
theorem doMmap_placed (hplaced : (mmap k.env.toEnv proc.mmap addr len prot 0).2 = addr) :
    doMmap k files fd offset addr len prot = mmapLoop fd prot (numPages len)
      (k.withAreas proc (mmap k.env.toEnv proc.mmap addr len prot 0).1) files offset addr len := by
  rw [doMmap, hp, bind_some, mmapArea]
  dsimp only
  rw [hplaced]
  rfl

theorem ArchiveIn.withAreas (h : ArchiveIn t k proc) : ArchiveIn t (k.withAreas proc l) { proc with mmap := l } :=
  ⟨h.bytes.congr fun _ _ => Kernel.withAreas_load hp, h.mapped⟩

end Placed

/-- The tables are in order afterwards. -/
theorem Replaced.ready {areas : List Vma.VmArea} (hr : Replaced proc.pml4 k.sys.mach u v n) (hk : Ready k proc) :
    Ready ((k.withAreas proc areas).withMach u) { proc with mmap := areas } := by
  refine ⟨Kernel.withAreas_proc hk.running, hr.remaps.wf, hr.remaps.self, fun b e hb he => ?_⟩
  by_cases hin : ∃ a, Span v n a ∧ SamePage b a
  · obtain ⟨a, ha, hsame⟩ := hin
    obtain ⟨e', he', -, -, htaken⟩ := hr.frame a ha
    rw [← leaf_samePage hsame] at he'
    obtain rfl : e = e' := some.inj (he.symm.trans he')
    exact htaken
  · rw [Kernel.withMach_mach, hr.remaps.elsewhere b hb fun a ha hsame => hin ⟨a, ha, hsame⟩] at he
    exact fun hfree => hk.used b e hb he (hr.remaps.free_sub _ hfree)

def Meets (addr len b : Word) : Prop := ∃ i < len.toNat, SamePage b (addr + ofNat 64 i)

/-- The entries change for the pages of `[addr, addr + len)`, and for no others. -/
def ExtentExact (k k' : Kernel) (addr len : Word) : Prop :=
  ∀ b, indexPml4e b ≠ selfRefEntry → (k'.entry b ≠ k.entry b ↔ Meets addr len b)

private theorem Replaced.entry_ne_iff (hk : Ready k proc) (hp : k'.proc? = some proc') (hpml4 : proc'.pml4 = proc.pml4)
    (h : Replaced proc.pml4 k.sys.mach k'.sys.mach v n) (hb : indexPml4e b ≠ selfRefEntry) :
    k'.entry b ≠ k.entry b ↔ ∃ a, Span v n a ∧ SamePage b a := by
  rw [Kernel.entry_eq hp (by rw [hpml4]; exact h.remaps.wf) hb, Kernel.entry_eq hk.running hk.wf hb, hpml4]
  constructor
  · intro hne
    by_contra hout
    exact hne (h.remaps.elsewhere b hb fun a ha hsame => hout ⟨a, ha, hsame⟩)
  · rintro ⟨a, ha, hsame⟩ heq
    obtain ⟨e, he, hfree, -⟩ := h.frame a ha
    rw [leaf_samePage hsame, he] at heq
    exact hk.used b e hb heq.symm hfree

private theorem span_meets_iff (haddr : addr.toNat % 4096 = 0) (hhalf : addr.toNat + len.toNat + 4096 ≤ 2 ^ 47)
    (hend : addr.toNat + 4096 * n ≤ 2 ^ 47) :
    (∀ b, indexPml4e b ≠ selfRefEntry → ((∃ a, Span addr n a ∧ SamePage b a) ↔ Meets addr len b)) ↔
      n = (len.toNat + 4095) / 4096 := by
  have hto : ∀ i, addr.toNat + i < 2 ^ 47 → (addr + ofNat 64 i).toNat = addr.toNat + i := by
    intro i hi
    exact toNat_add_of_lt (by omega)
  constructor
  · intro h
    by_contra hne
    -- the first page that only one of the two ranges has
    obtain ⟨j, hj⟩ : ∃ j, j = min n ((len.toNat + 4095) / 4096) := ⟨_, rfl⟩
    have hlow : addr.toNat + 4096 * j < 2 ^ 47 := by omega
    have hb := hto (4096 * j) hlow
    have hiff := h (addr + ofNat 64 (4096 * j)) (Vma.Unmap.lower_slot (by omega))
    by_cases hless : n < (len.toNat + 4095) / 4096
    · obtain ⟨a, ha, hsame⟩ := hiff.2 ⟨4096 * j, by omega, samePage_of_div rfl⟩
      refine not_samePage_span haddr hend (by omega) (fun hin => ?_) ha hsame
      have := hin.2
      omega
    · have hin : Span addr n (addr + ofNat 64 (4096 * j)) := ⟨by omega, by omega⟩
      obtain ⟨i, hi, hsame⟩ := hiff.1 ⟨_, hin, samePage_of_div rfl⟩
      have hi' := hto i (by omega)
      have hpage := (Vma.Unmap.samePage_iff_div (by omega) (by omega)).1 hsame
      omega
  · rintro rfl b -
    constructor
    · rintro ⟨a, ⟨h1, h2⟩, hsame⟩
      have hpage : SamePage a (addr + ofNat 64 (4096 * ((a.toNat - addr.toNat) / 4096))) := by
        apply samePage_of_div
        rw [hto _ (by omega)]
        omega
      exact ⟨_, by omega, fun i hi hi' => (hsame i hi hi').trans (hpage i hi hi')⟩
    · rintro ⟨i, hi, hsame⟩
      have hi' := hto i (by omega)
      exact ⟨_, ⟨by omega, by omega⟩, hsame⟩

section Call

variable (hk : Ready k proc) (haddr : addr.toNat % 4096 = 0) (hhalf : addr.toNat + len.toNat + 4096 ≤ 2 ^ 47)
  (hplaced : (mmap k.env.toEnv proc.mmap addr len prot 0).2 = addr)
  (hmem : 4 * numPages len ≤ freeCount k.sys.mach.pages)
include hk haddr hhalf hplaced hmem

/-- The extent is exact if and only if the number of rounds is. -/
private theorem extentExact_iff {files' : Files} (h : doMmap k files fd offset addr len prot = some (k', files')) :
    ExtentExact k k' addr len ↔ numPages len = (len.toNat + 4095) / 4096 := by
  have hp := Kernel.withAreas_proc (l := (mmap k.env.toEnv proc.mmap addr len prot 0).1) hk.running
  have hrounds : numPages len ≤ len.toNat / 4096 + 1 := by
    rw [numPages_eq]
    split <;> omega
  rw [doMmap_placed hk.running hplaced] at h
  obtain ⟨s', rfl, hreplaced⟩ := mmapLoop_replaces hp hk.wf hk.self haddr (by omega) hmem h
  rw [← span_meets_iff haddr hhalf (show addr.toNat + 4096 * numPages len ≤ 2 ^ 47 by omega)]
  refine forall₂_congr fun b hb => ?_
  exact iff_congr (hreplaced.entry_ne_iff hk hp rfl hb) Iff.rfl

/-- A call for a part of a file returns, has replaced the pages of all rounds, and has loaded the bytes. -/
theorem doMmap_loads {l : List (BitVec 8)} (hopen : OpenOn k proc files fd l)
    (hin : offset.toNat + len.toNat ≤ l.length) {m : List Vma.VmArea}
    (hm : m = (mmap k.env.toEnv proc.mmap addr len prot 0).1) :
    ∃ s' files', doMmap k files fd offset addr len prot = some ((k.withAreas proc m).withMach s', files') ∧
      Replaced proc.pml4 k.sys.mach s' addr (numPages len) ∧
      OpenOn ((k.withAreas proc m).withMach s') { proc with mmap := m } files' fd l ∧
      VirtMem.Holds ((k.withAreas proc m).withMach s') addr ((l.drop offset.toNat).take len.toNat) := by
  obtain ⟨t, i, x, p, hsrc, hx, hreg, rfl, hfd⟩ := hopen
  have hshort := (Tape.openFile hsrc.bytes hx hreg).file.short
  have hrounds : numPages len = len.toNat / 4096 + 1 := numPages_of_lt (by omega)
  have hp := Kernel.withAreas_proc (l := m) hk.running
  rw [doMmap_placed hk.running hplaced, ← hm]
  have hsrc' := hsrc.withAreas (l := m) hk.running
  obtain ⟨s', files', p', heq, hreplaced, hfd', hholds⟩ :=
    mmapLoop_loads hp hk.wf hk.self haddr (by omega) hmem hsrc' hx hreg hfd (by omega) (.inl hin) prot
  refine ⟨s', files', heq, hreplaced,
    ⟨t, i, x, p', hsrc'.remaps hp hk.wf hreplaced.remaps fun a ha => ?_, hx, hreg, rfl, hfd'⟩, hholds⟩
  have := ha.2
  omega

end Call

/-- For a range of the lower half at the start of a page, where `mmap` places the area: the call changes the entries of
exactly the pages of `[addr, addr + len)` if and only if the length is no multiple of the page size and its pages fit an
`int`. -/
theorem mapping_extent_iff (k : Kernel) (proc : Proc) (hk : Ready k proc) (files : Files) (fd : Nat)
    (offset addr len prot : Word) (haddr : addr.toNat % 4096 = 0) (hlen : 0 < len.toNat)
    (hhalf : addr.toNat + len.toNat + 4096 ≤ 2 ^ 47) (hplaced : (mmap k.env.toEnv proc.mmap addr len prot 0).2 = addr)
    (hmem : 4 * numPages len ≤ freeCount k.sys.mach.pages) :
    (∀ k' files', doMmap k files fd offset addr len prot = some (k', files') →
      (ExtentExact k k' addr len ↔ len.toNat % 4096 ≠ 0 ∧ len.toNat / 4096 + 1 < 2 ^ 31)) ∧
    ∀ l, OpenOn k proc files fd l → offset.toNat + len.toNat ≤ l.length →
      ∃ k' files', doMmap k files fd offset addr len prot = some (k', files') := by
  constructor
  · intro k' files' h
    rw [extentExact_iff hk haddr hhalf hplaced hmem h]
    exact numPages_eq_iff hlen
  · intro l hopen hin
    obtain ⟨s', files', h, -⟩ := doMmap_loads hk haddr hhalf hplaced hmem hopen hin rfl
    exact ⟨_, files', h⟩

theorem mapping_extent_part : ∃ k proc files, Ready k proc ∧ OpenOn k proc files 3 (List.replicate 0x2000 1) ∧
    ∃ k' files', doMmap k files 3 0 0x400000 0x1800 6 = some (k', files') ∧ ExtentExact k k' 0x400000 0x1800 := by
  obtain ⟨k, proc, files, hk, hopen, hc, hmmap, henv, -, -⟩ := exists_open (List.replicate 0x2000 1)
    (by rw [length_replicate]; decide)
  have hplaced : (mmap k.env.toEnv proc.mmap 0x400000 0x1800 6 0).2 = 0x400000 := by
    rw [henv, hmmap]
    decide
  have hpages : numPages 0x1800 = 2 := by decide
  obtain ⟨hexact, hreturns⟩ := mapping_extent_iff k proc hk files 3 0 0x400000 0x1800 6 (by decide) (by decide)
    (by decide) hplaced (by omega)
  obtain ⟨k', files', h⟩ := hreturns _ hopen (by rw [length_replicate]; decide)
  exact ⟨k, proc, files, hk, hopen, k', files', h, (hexact k' files' h).2 (by decide)⟩

/-- For one page of a file, two pages are mapped. -/
theorem mapping_extent_whole_page : ¬ ∀ k proc, Ready k proc → ∀ files fd l, OpenOn k proc files fd l →
    ∀ offset addr len prot : Word, offset.toNat + len.toNat ≤ l.length → addr.toNat % 4096 = 0 → 0 < len.toNat →
    addr.toNat + len.toNat + 4096 ≤ 2 ^ 47 → (mmap k.env.toEnv proc.mmap addr len prot 0).2 = addr →
    4 * numPages len ≤ freeCount k.sys.mach.pages →
    ∃ k' files', doMmap k files fd offset addr len prot = some (k', files') ∧ ExtentExact k k' addr len := by
  intro h
  obtain ⟨k, proc, files, hk, hopen, hc, hmmap, henv, -, -⟩ := exists_open (List.replicate 0x2000 1)
    (by rw [length_replicate]; decide)
  have hplaced : (mmap k.env.toEnv proc.mmap 0x400000 0x1000 6 0).2 = 0x400000 := by
    rw [henv, hmmap]
    decide
  have hpages : numPages 0x1000 = 2 := by decide
  obtain ⟨k', files', hcall, hexact⟩ := h k proc hk files 3 _ hopen 0 0x400000 0x1000 6
    (by rw [length_replicate]; decide) (by decide) (by decide) (by decide) hplaced (by omega)
  rw [extentExact_iff hk (by decide) (by decide) hplaced (by omega) hcall, hpages] at hexact
  exact absurd hexact (by decide)

end Adix.Mmap
