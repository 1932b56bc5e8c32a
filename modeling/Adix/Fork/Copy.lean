import Adix.Fork.Defs
import Adix.PageTable.Tables
import Adix.PhysPages.Consistent

/-!
# Copies of page tables

`CopyOf` says that a table is a copy of another one, and that it has the old words where the source has no entry.
`Frame` and `Recount` say what a call leaves alone and what it does to the descriptors.
-/

namespace Adix.Fork

open PageTable PhysPages Radix Option List
open BitVec hiding not_or

variable {e e' e'' : Word} {L src dest q d t f : Nat} {m m₀ m' m'' : Memory} {O O' T M M' : Nat → Prop}
  {σ τ done : List Index} {i j : Index} {s s' u u' : Mach} {last : Prop} {slots : Index → Prop}

/-- An entry that is kept, or loses the write permission. -/
def Lowered (e e' : Word) : Prop := e' = e ∨ e' = clearRW e

def accessBits (e : Word) : Word := e &&& (pageTransUserSupervisor ||| pageTransNx)

private theorem getLsbD_clearRW {k : Nat} (hk : k ≠ 1) : (clearRW e).getLsbD k = e.getLsbD k := by
  unfold clearRW
  by_cases hlt : k < 64
  · have hb : pageTransReadWrite.getLsbD k = false := by
      interval_cases k <;> first | rfl | exact absurd rfl hk
    rw [getLsbD_and, getLsbD_not, hb]
    simp [hlt]
  · rw [getLsbD_of_ge _ _ (by omega), getLsbD_of_ge _ _ (by omega)]

@[simp] theorem clearRW_clearRW : clearRW (clearRW e) = clearRW e := by
  unfold clearRW
  rw [BitVec.and_assoc, BitVec.and_self]

@[simp] theorem present_clearRW : entryFormat.present (clearRW e) = entryFormat.present e := by
  rw [present_eq, present_eq, getLsbD_clearRW (by decide)]

private theorem clearRW_and {x : Word} (hx : x &&& pageTransReadWrite = 0) : clearRW e &&& x = e &&& x := by
  apply eq_of_getLsbD_eq
  intro k hk
  rw [getLsbD_and, getLsbD_and]
  by_cases h1 : k = 1
  · subst h1
    rw [and_readWrite_eq_zero.1 hx]
    simp
  · rw [getLsbD_clearRW h1]

@[simp] private theorem nextLevelAddr_clearRW : pageTransNextLevelAddr (clearRW e) = pageTransNextLevelAddr e :=
  clearRW_and (by decide)

@[simp] theorem next_clearRW : entryFormat.next (clearRW e) = entryFormat.next e := by
  show (entryAddr (clearRW e)).toNat = (entryAddr e).toNat
  unfold entryAddr pageTransAddrSignExt
  rw [nextLevelAddr_clearRW, clearRW_and (by decide)]

@[simp] private theorem link_clearRW : entryFormat.link (clearRW e) = entryFormat.link e := by
  unfold Format.link
  rw [present_clearRW, next_clearRW]

@[simp] private theorem hardware_link_clearRW : hardwareFormat.link (clearRW e) = hardwareFormat.link e := by
  have hp : hardwareFormat.present (clearRW e) = hardwareFormat.present e := present_clearRW
  have hn : hardwareFormat.next (clearRW e) = hardwareFormat.next e := congrArg BitVec.toNat nextLevelAddr_clearRW
  unfold Format.link
  rw [hp, hn]

@[simp] theorem accessBits_clearRW : accessBits (clearRW e) = accessBits e := by
  unfold accessBits clearRW
  rw [BitVec.and_assoc]
  rfl

theorem clearRW_and_readWrite : clearRW e &&& pageTransReadWrite = 0 := by
  unfold clearRW
  rw [BitVec.and_assoc]
  exact and_zero

theorem Lowered.refl (e : Word) : Lowered e e := .inl rfl

private theorem Lowered.trans (h : Lowered e e') (h' : Lowered e' e'') : Lowered e e'' := by
  rcases h with rfl | rfl
  · exact h'
  · rcases h' with rfl | rfl
    · exact .inr rfl
    · exact .inr clearRW_clearRW

theorem Lowered.link_eq (h : Lowered e e') : entryFormat.link e' = entryFormat.link e := by
  rcases h with rfl | rfl <;> simp

theorem Lowered.hardware_link_eq (h : Lowered e e') : hardwareFormat.link e' = hardwareFormat.link e := by
  rcases h with rfl | rfl <;> simp

theorem Lowered.present_eq (h : Lowered e e') : entryFormat.present e' = entryFormat.present e := by
  rcases h with rfl | rfl <;> simp

theorem Lowered.next_eq (h : Lowered e e') : entryFormat.next e' = entryFormat.next e := by
  rcases h with rfl | rfl <;> simp

theorem Lowered.accessBits_eq (h : Lowered e e') : accessBits e' = accessBits e := by
  rcases h with rfl | rfl <;> simp

theorem Lowered.clearRW_eq (h : Lowered e e') : clearRW e' = clearRW e := by
  rcases h with rfl | rfl <;> simp

theorem Lowered.eq_of_readOnly (h : Lowered e e') (he : clearRW e = e) : e' = e := by
  rcases h with rfl | rfl
  · rfl
  · exact he

/-- The entry of a copy leads to the page taken for it. -/
theorem link_copyEntry (hd : PageAddr d) (hp : entryFormat.present e = true) :
    entryFormat.link (pageTransNonAddrFields e ||| pageTransNextLevelAddr (BitVec.ofNat 64 d)) = some d := by
  rw [hd.nextLevelAddr, BitVec.or_comm, Format.link_eq_some]
  rw [present_eq] at hp
  constructor
  · rw [present_eq, getLsbD_or, getLsbD_nonAddrFields, hp]
    simp
  · show (entryAddr _).toNat = d
    rw [entryAddr_or_flags hd, hd.toNat]
    intro k h1 h2
    rw [getLsbD_nonAddrFields]
    simp [h1, h2]

theorem accessBits_copyEntry (hd : PageAddr d) :
    accessBits (pageTransNonAddrFields e ||| pageTransNextLevelAddr (BitVec.ofNat 64 d)) = accessBits e := by
  rw [hd.nextLevelAddr]
  unfold accessBits
  apply eq_of_getLsbD_eq
  intro k hk
  rw [getLsbD_and, getLsbD_and, getLsbD_or, getLsbD_nonAddrFields]
  by_cases hmid : 12 ≤ k ∧ k < 52
  · have hb : (pageTransUserSupervisor ||| pageTransNx).getLsbD k = false := by
      obtain ⟨h1, h2⟩ := hmid
      interval_cases k <;> rfl
    rw [hb, Bool.and_false, Bool.and_false]
  · rw [hd.getLsbD (by omega)]
    simp [hmid]

def UserSlot (i : Index) : Prop := i ≠ selfRefEntry ∧ i ≠ pml4KernelEntry

def Slots (L : Nat) (σ : List Index) : Prop := L = 4 → ∀ i ∈ σ.head?, UserSlot i

def Below (L : Nat) (σ : List Index) : Prop := σ.length < L ∧ Slots L σ

def TablesIn (L : Nat) (m : Memory) (src : Nat) (T : Nat → Prop) : Prop :=
  ∀ σ q, Below L σ → walk entryFormat m src σ = some q → T q

private theorem Slots.cons_iff : Slots L (i :: σ) ↔ Slots L [i] := Iff.rfl

theorem Slots.of_lt (h : L < 4) : Slots L σ := fun h4 => absurd h4 (by omega)

theorem Slots.left (h : Slots L (σ ++ τ)) : Slots L σ := by
  intro h4 i hi
  refine h h4 i ?_
  cases σ with
  | nil => cases hi
  | cons k σ => exact hi

theorem Below.nil : Below (L + 1) [] := ⟨by simp, fun _ i hi => by cases hi⟩

theorem Below.left (h : Below L (σ ++ τ)) : Below L σ := by
  refine ⟨?_, h.2.left⟩
  have := h.1
  rw [List.length_append] at this
  omega

theorem below_cons (hL : L < 4) : Below (L + 1) (i :: σ) ↔ Slots (L + 1) [i] ∧ Below L σ := by
  unfold Below
  rw [Slots.cons_iff, List.length_cons]
  constructor
  · rintro ⟨h1, h2⟩
    exact ⟨h2, by omega, Slots.of_lt hL⟩
  · rintro ⟨h1, h2, -⟩
    exact ⟨by omega, h1⟩

/-- The entries of the objects `T` are kept, or lose the write permission. -/
def Lowers (T : Nat → Prop) (m m' : Memory) : Prop := ∀ q, T q → ∀ j, Lowered (m q j) (m' q j)

theorem Lowers.refl : Lowers T m m := fun _ _ _ => Lowered.refl _

/-- Without the write permission, the walks are the same. -/
theorem walk_lowered (hT : TablesIn L m src T) (h : Lowers T m m') (hσ : Below L σ) :
    walk entryFormat m' src σ = walk entryFormat m src σ := by
  apply walk_congr
  intro τ i ρ q hτ hq
  subst hτ
  exact (h q (hT τ q hσ.left hq) i).link_eq

theorem TablesIn.lowered (hT : TablesIn L m src T) (h : Lowers T m m') : TablesIn L m' src T := by
  intro σ q hσ hq
  rw [walk_lowered hT h hσ] at hq
  exact hT σ q hσ hq

theorem TablesIn.next (hT : TablesIn (L + 1) m src T) (hL : L < 4) (hi : Slots (L + 1) [i])
    (hp : entryFormat.present (m src i) = true) : TablesIn L m (entryFormat.next (m src i)) T := by
  intro σ q hσ hq
  refine hT (i :: σ) q ((below_cons hL).2 ⟨hi, hσ⟩) ?_
  rw [walk_cons, Format.link_eq_some.2 ⟨hp, rfl⟩]
  exact hq

private theorem walk_left (h : walk entryFormat m src (σ ++ τ) = some q) : ∃ t, walk entryFormat m src σ = some t := by
  rw [walk_append] at h
  obtain ⟨t, ht, -⟩ := bind_eq_some_iff.1 h
  exact ⟨t, ht⟩

theorem present_of_walk (h : walk entryFormat m src (i :: σ) = some q) : entryFormat.present (m src i) = true := by
  rw [walk_cons] at h
  obtain ⟨p, hp, -⟩ := bind_eq_some_iff.1 h
  exact (Format.link_eq_some.1 hp).1

/-- What the object `d` of a copy has in common with the object `t` of the source, whose entries are pages if `last`. -/
structure RowOf (m m' : Memory) (last : Prop) (slots : Index → Prop) (t d : Nat) : Prop where
  old : ∀ i, slots i → entryFormat.present (m' t i) = false → m' d i = m d i
  page : last → ∀ i, slots i → entryFormat.present (m' t i) = true → m' d i = m' t i ∧ clearRW (m' t i) = m' t i
  access : ∀ i, slots i → entryFormat.present (m' t i) = true → accessBits (m' d i) = accessBits (m' t i)

/-- In the memory `m'`, the table of level `L` at `dest` is a copy of the one at `src`: it has objects in `O` where the
source has one, with the same permissions and the same words for the pages, and the words of `m` where the source has no
entry. -/
structure CopyOf (L : Nat) (m m' : Memory) (O : Nat → Prop) (src dest : Nat) : Prop where
  node : ∀ σ t, Below L σ → walk entryFormat m' src σ = some t → ∃ d, walk entryFormat m' dest σ = some d ∧ O d ∧
    RowOf m m' (σ.length + 1 = L) (fun i => Slots L (σ ++ [i])) t d
  inj : ∀ σ τ t t' d, Below L σ → Below L τ → walk entryFormat m' src σ = some t → walk entryFormat m' src τ = some t' →
    walk entryFormat m' dest σ = some d → walk entryFormat m' dest τ = some d → σ = τ

theorem CopyOf.walk_eq (h : CopyOf L m m' O src dest) (hO : ∀ q, O q → m'' q = m' q) (hσ : Below L σ)
    (ht : walk entryFormat m' src σ = some t) : walk entryFormat m'' dest σ = walk entryFormat m' dest σ := by
  apply walk_congr
  intro τ i ρ q hτ hq
  subst hτ
  obtain ⟨t', ht'⟩ := walk_left ht
  obtain ⟨d, hd, hown, -⟩ := h.node τ t' hσ.left ht'
  obtain rfl : q = d := some.inj (hq.symm.trans hd)
  rw [hO q hown]

private theorem RowOf.mono (h : RowOf m m' last slots t d) (hd : m'' d = m' d)
    (ht : ∀ j, Lowered (m' t j) (m'' t j)) (hm : m₀ d = m d) : RowOf m₀ m'' last slots t d := by
  refine ⟨fun i hi hp => ?_, fun hlast i hi hp => ?_, fun i hi hp => ?_⟩
  · rw [(ht i).present_eq] at hp
    rw [hd, hm]
    exact h.old i hi hp
  · rw [(ht i).present_eq] at hp
    obtain ⟨h1, h2⟩ := h.page hlast i hi hp
    rw [hd, (ht i).eq_of_readOnly h2]
    exact ⟨h1, h2⟩
  · rw [(ht i).present_eq] at hp
    rw [hd, (ht i).accessBits_eq]
    exact h.access i hi hp

theorem RowOf.weaken {last' : Prop} {slots' : Index → Prop} (h : RowOf m m' last slots t d)
    (hlast : last' → last) (hslots : ∀ i, slots' i → slots i) : RowOf m m' last' slots' t d :=
  ⟨fun i hi => h.old i (hslots i hi), fun hl i hi => h.page (hlast hl) i (hslots i hi),
    fun i hi => h.access i (hslots i hi)⟩

/-- A copy stays one while pages change that are not its own, and entries of the source lose the write permission. -/
theorem CopyOf.mono (h : CopyOf L m m' O src dest) (hT : TablesIn L m' src T) (hlow : Lowers T m' m'')
    (hO : ∀ q, O q → m'' q = m' q) (hm : ∀ q, O q → m₀ q = m q) (hO' : ∀ q, O q → O' q) :
    CopyOf L m₀ m'' O' src dest := by
  constructor
  · intro σ t hσ ht
    rw [walk_lowered hT hlow hσ] at ht
    obtain ⟨d, hd, hown, hrow⟩ := h.node σ t hσ ht
    rw [h.walk_eq hO hσ ht]
    exact ⟨d, hd, hO' d hown, hrow.mono (hO d hown) (hlow t (hT σ t hσ ht)) (hm d hown)⟩
  · intro σ τ t t' d hσ hτ ht ht' hd hd'
    rw [walk_lowered hT hlow hσ] at ht
    rw [walk_lowered hT hlow hτ] at ht'
    rw [h.walk_eq hO hσ ht] at hd
    rw [h.walk_eq hO hτ ht'] at hd'
    exact h.inj σ τ t t' d hσ hτ ht ht' hd hd'

def Taken (s s' : Mach) (q : Nat) : Prop := Free s q ∧ ¬ Free s' q

structure Ready (T : Nat → Prop) (dest : Nat) (s : Mach) : Prop where
  listed : Listed s.pages
  free : ∀ q, Free s q → PageAddr q
  source : ∀ q, T q → ¬ Free s q ∧ q ≠ dest
  dest : ¬ Free s dest

/-- Apart from `dest` and the pages taken, only entries of the source change, and these lose the write permission. -/
structure Frame (T : Nat → Prop) (dest : Nat) (s s' : Mach) : Prop where
  listed : Listed s'.pages
  base_eq : s'.base = s.base
  free_sub : ∀ q, Free s' q → Free s q
  lowered : ∀ q, q ≠ dest → (Free s q → Free s' q) → ∀ j, Lowered (s.mem q j) (s'.mem q j)
  kept : ∀ q, q ≠ dest → ¬ T q → (Free s q → Free s' q) → s'.mem q = s.mem q

theorem Frame.refl (h : Listed s.pages) : Frame T dest s s :=
  ⟨h, rfl, fun _ hq => hq, fun _ _ _ _ => Lowered.refl _, fun _ _ _ _ => rfl⟩

/-- Frames compose. -/
theorem Frame.trans (h : Frame T dest s u) (h' : Frame T dest u u') : Frame T dest s u' where
  listed := h'.listed
  base_eq := h'.base_eq.trans h.base_eq
  free_sub q hq := h.free_sub q (h'.free_sub q hq)
  lowered q hq hf j :=
    (h.lowered q hq (fun hs => h'.free_sub q (hf hs)) j).trans (h'.lowered q hq (fun hu => hf (h.free_sub q hu)) j)
  kept q hq hT hf := by
    rw [h'.kept q hq hT fun hu => hf (h.free_sub q hu), h.kept q hq hT fun hs => h'.free_sub q (hf hs)]

theorem Ready.frame (h : Ready T dest s) (hf : Frame T dest s u) : Ready T dest u where
  listed := hf.listed
  free q hq := h.free q (hf.free_sub q hq)
  source q hq := ⟨fun hu => (h.source q hq).1 (hf.free_sub q hu), (h.source q hq).2⟩
  dest hu := h.dest (hf.free_sub dest hu)

/-- The source may lose write permissions. -/
theorem Frame.source (hf : Frame T dest s u) (h : Ready T dest s) : Lowers T s.mem u.mem :=
  fun q hq j => hf.lowered q (h.source q hq).2 (fun hs => absurd hs (h.source q hq).1) j

/-- Pages that are still free are as before. -/
theorem Frame.free_eq (hf : Frame T dest s u) (h : Ready T dest s) (hq : Free u q) : u.mem q = s.mem q := by
  have hs := hf.free_sub q hq
  refine hf.kept q ?_ (fun ht => (h.source q ht).1 hs) fun _ => hq
  rintro rfl
  exact h.dest hs

theorem Frame.taken_eq (hf : Frame T dest u u') (h : Ready T dest s) (hq : Taken s u q) : u'.mem q = u.mem q := by
  refine hf.kept q ?_ (fun ht => (h.source q ht).1 hq.1) fun hu => absurd hu hq.2
  rintro rfl
  exact h.dest hq.1

theorem Taken.later (hf : Frame T dest u u') (hq : Taken s u q) : Taken s u' q :=
  ⟨hq.1, fun hu => hq.2 (hf.free_sub q hu)⟩

theorem Taken.earlier (hf : Frame T dest s u) (hq : Taken u u' q) : Taken s u' q := ⟨hf.free_sub q hq.1, hq.2⟩

def Leaf (L : Nat) (m : Memory) (src : Nat) (K : Index → Prop) (σ : List Index) (i : Index) (e : Word) : Prop :=
  σ.length + 1 = L ∧ Slots L (σ ++ [i]) ∧ (∀ k ∈ (σ ++ [i]).head?, K k) ∧ lookup entryFormat m src σ i = some e

/-- Some entry of the table leads to the page. -/
def Maps (L : Nat) (m : Memory) (src : Nat) (K : Index → Prop) (f : Nat) : Prop :=
  ∃ σ i e, Leaf L m src K σ i e ∧ entryFormat.next e = f

variable {K K' : Index → Prop}

theorem Leaf.mono (h : Leaf L m src K σ i e) (hK : ∀ k, K k → K' k) : Leaf L m src K' σ i e :=
  ⟨h.1, h.2.1, fun k hk => hK k (h.2.2.1 k hk), h.2.2.2⟩

theorem Leaf.head (h : Leaf L m src K σ i e) : ∃ k, (σ ++ [i]).head? = some k ∧ K k := by
  obtain ⟨k, hk⟩ : ∃ k, (σ ++ [i]).head? = some k := by cases σ <;> simp
  exact ⟨k, hk, h.2.2.1 k hk⟩

theorem Maps.mono (h : Maps L m src K f) (hK : ∀ k, K k → K' k) : Maps L m src K' f := by
  obtain ⟨σ, i, e, hl, he⟩ := h
  exact ⟨σ, i, e, hl.mono hK, he⟩

private theorem Leaf.lowered (hT : TablesIn L m src T) (hlow : Lowers T m m') (h : Leaf L m src K σ i e) :
    ∃ e', Leaf L m' src K σ i e' ∧ entryFormat.next e' = entryFormat.next e := by
  obtain ⟨hlen, hs, hk, he⟩ := h
  obtain ⟨q, hq, rfl, hp⟩ := lookup_eq_some.1 he
  have hσ : Below L σ := ⟨by omega, hs.left⟩
  have hl := hlow q (hT σ q hσ hq) i
  refine ⟨m' q i, ⟨hlen, hs, hk, lookup_eq_some.2 ⟨q, ?_, rfl, ?_⟩⟩, hl.next_eq⟩
  · rw [walk_lowered hT hlow hσ]
    exact hq
  · rw [hl.present_eq]
    exact hp

private theorem Leaf.raised (hT : TablesIn L m src T) (hlow : Lowers T m m') (h : Leaf L m' src K σ i e) :
    ∃ e', Leaf L m src K σ i e' ∧ entryFormat.next e' = entryFormat.next e := by
  obtain ⟨hlen, hs, hk, he⟩ := h
  obtain ⟨q, hq, rfl, hp⟩ := lookup_eq_some.1 he
  have hσ : Below L σ := ⟨by omega, hs.left⟩
  rw [walk_lowered hT hlow hσ] at hq
  have hl := hlow q (hT σ q hσ hq) i
  refine ⟨m q i, ⟨hlen, hs, hk, lookup_eq_some.2 ⟨q, hq, rfl, ?_⟩⟩, hl.next_eq.symm⟩
  rw [← hl.present_eq]
  exact hp

/-- Without the write permission, the same pages are mapped. -/
theorem maps_lowered (hT : TablesIn L m src T) (hlow : Lowers T m m') : Maps L m' src K f ↔ Maps L m src K f := by
  constructor
  · rintro ⟨σ, i, e, hl, rfl⟩
    obtain ⟨e', hl', he⟩ := hl.raised hT hlow
    exact ⟨σ, i, e', hl', he⟩
  · rintro ⟨σ, i, e, hl, rfl⟩
    obtain ⟨e', hl', he⟩ := hl.lowered hT hlow
    exact ⟨σ, i, e', hl', he⟩

theorem maps_mem_snoc : Maps L m src (· ∈ done ++ [i]) f ↔ Maps L m src (· ∈ done) f ∨ Maps L m src (· = i) f := by
  constructor
  · rintro ⟨σ, j, e, hl, he⟩
    obtain ⟨k, hk, hmem⟩ := hl.head
    rw [mem_append, mem_singleton] at hmem
    obtain ⟨hlen, hs, -, hlk⟩ := hl
    have hhead : ∀ k' ∈ (σ ++ [j]).head?, k' = k := fun k' hk' => some.inj (hk'.symm.trans hk)
    rcases hmem with hmem | rfl
    · exact .inl ⟨σ, j, e, ⟨hlen, hs, fun k' hk' => hhead k' hk' ▸ hmem, hlk⟩, he⟩
    · exact .inr ⟨σ, j, e, ⟨hlen, hs, hhead, hlk⟩, he⟩
  · rintro (h | h)
    · exact h.mono fun k hk => mem_append_left _ hk
    · exact h.mono fun k hk => by simp [hk]

theorem maps_one : Maps 1 m src (· = i) f ↔ entryFormat.present (m src i) = true ∧ entryFormat.next (m src i) = f := by
  constructor
  · rintro ⟨σ, j, e, ⟨hlen, -, hk, he⟩, rfl⟩
    obtain rfl : σ = [] := eq_nil_of_length_eq_zero (by omega)
    obtain rfl : j = i := hk j rfl
    obtain ⟨q, hq, rfl, hp⟩ := lookup_eq_some.1 he
    obtain rfl : src = q := some.inj hq
    exact ⟨hp, rfl⟩
  · rintro ⟨hp, rfl⟩
    exact ⟨[], i, m src i, ⟨rfl, Slots.of_lt (by decide), fun k hk => (some.inj hk).symm,
      lookup_eq_some.2 ⟨src, rfl, rfl, hp⟩⟩, rfl⟩

private theorem leaf_cons (hL : L < 4) : Leaf (L + 1) m src K (j :: σ) i e ↔ Slots (L + 1) [j] ∧ K j ∧
    entryFormat.present (m src j) = true ∧ Leaf L m (entryFormat.next (m src j)) (fun _ => True) σ i e := by
  unfold Leaf
  rw [lookup_cons, length_cons, List.cons_append, Slots.cons_iff]
  cases hp : entryFormat.present (m src j) with
  | false => simp [Format.link_eq_none.2 hp]
  | true =>
    rw [Format.link_eq_some.2 ⟨hp, rfl⟩]
    constructor
    · rintro ⟨h1, h2, h3, h4⟩
      exact ⟨h2, h3 j rfl, rfl, by omega, Slots.of_lt hL, fun _ _ => trivial, h4⟩
    · rintro ⟨h1, h2, -, h3, -, -, h4⟩
      exact ⟨by omega, h1, fun k hk => some.inj hk ▸ h2, h4⟩

/-- A page mapped below an entry is mapped by the table that the entry leads to. -/
theorem maps_succ (h0 : 0 < L) (hL : L < 4) : Maps (L + 1) m src (· = j) f ↔ Slots (L + 1) [j] ∧
    entryFormat.present (m src j) = true ∧ Maps L m (entryFormat.next (m src j)) (fun _ => True) f := by
  constructor
  · rintro ⟨σ, i, e, hl, he⟩
    cases σ with
    | nil => exact absurd hl.1 (by simp; omega)
    | cons k σ =>
      obtain ⟨h1, rfl, h2, h3⟩ := (leaf_cons hL).1 hl
      exact ⟨h1, h2, σ, i, e, h3, he⟩
  · rintro ⟨h1, h2, σ, i, e, hl, he⟩
    exact ⟨j :: σ, i, e, (leaf_cons hL).2 ⟨h1, rfl, h2, hl⟩, he⟩

/-- The free list and the counts agree, each page mapped below `src` is mapped once, and it can be counted up. -/
structure Counted (L : Nat) (s : Mach) (src : Nat) (K : Index → Prop) : Prop where
  inv : Inv s.pages
  unique : ∀ {σ τ i j e e'}, Leaf L s.mem src K σ i e → Leaf L s.mem src K τ j e' →
    entryFormat.next e = entryFormat.next e' → σ = τ ∧ i = j
  owned : ∀ {f}, Maps L s.mem src K f → ∃ d, desc s.pages f = some d ∧ d.refcount ≠ 0 ∧ d.refcount + 1 ≠ 0

/-- The pages of `M` are counted up and flagged, the pages taken are counted, and all others are kept. -/
structure Recount (M : Nat → Prop) (s s' : Mach) : Prop where
  inv : Inv s'.pages
  shared : ∀ f, M f → desc s'.pages f = (desc s.pages f).map shareDesc
  kept : ∀ f, f % sizeofPage = 0 → ¬ M f → (Free s f → Free s' f) → desc s'.pages f = desc s.pages f
  taken : ∀ f, Taken s s' f → desc s'.pages f = (desc s.pages f).map PhysPage.bump

theorem Counted.not_free (h : Counted L s src K) (hf : Maps L s.mem src K f) : ¬ Free s f := by
  intro hfree
  obtain ⟨d, hd, h0, -⟩ := h.owned hf
  have hu := ((h.inv.covers f).1 hfree).2
  unfold refcount at hu
  rw [hd] at hu
  exact h0 (some.inj hu)

theorem Maps.aligned (hf : Maps L m src K f) : f % sizeofPage = 0 := by
  obtain ⟨σ, i, e, -, rfl⟩ := hf
  exact next_aligned e

theorem Recount.congr (h : Recount M s s') (hM : ∀ f, M' f ↔ M f) : Recount M' s s' where
  inv := h.inv
  shared f hf := h.shared f ((hM f).1 hf)
  kept f ha hf := h.kept f ha (mt (hM f).2 hf)
  taken := h.taken

theorem Recount.same (h : Inv s.pages) (hp : s'.pages = s.pages) (hM : ∀ f, ¬ M f) : Recount M s s' where
  inv := by rw [hp]; exact h
  shared f hf := absurd hf (hM f)
  kept f _ _ _ := by rw [hp]
  taken f hf := by
    have hff : Free s f ∧ ¬ Covers s'.pages.physFreeList f := hf
    rw [hp] at hff
    exact absurd hff.1 hff.2

/-- Recounts of different pages compose. -/
theorem Recount.trans (hl : Listed s.pages) (h : Recount M s u) (h' : Recount M' u u') (hsub : ∀ q, Free u q → Free s q)
    (hsub' : ∀ q, Free u' q → Free u q) (hM : ∀ f, M f → f % sizeofPage = 0 ∧ ¬ Free s f ∧ ¬ M' f)
    (hM' : ∀ f, M' f → f % sizeofPage = 0 ∧ ¬ Free s f) : Recount (fun f => M f ∨ M' f) s u' where
  inv := h'.inv
  shared := by
    rintro f (hf | hf)
    · obtain ⟨ha, hs, hf'⟩ := hM f hf
      rw [h'.kept f ha hf' fun hu => absurd (hsub f hu) hs]
      exact h.shared f hf
    · obtain ⟨ha, hs⟩ := hM' f hf
      rw [h'.shared f hf, h.kept f ha (fun hm => (hM f hm).2.2 hf) fun hs' => absurd hs' hs]
  kept := by
    intro f ha hnot hf
    rw [not_or] at hnot
    rw [h'.kept f ha hnot.2 fun hu => hf (hsub f hu), h.kept f ha hnot.1 fun hs => hsub' f (hf hs)]
  taken := by
    rintro f ⟨hs, hu'⟩
    have ha := (hl.page f hs).1
    by_cases hu : Free u f
    · rw [h'.taken f ⟨hu, hu'⟩, h.kept f ha (fun hm => (hM f hm).2.1 hs) fun _ => hu]
    · rw [h'.kept f ha (fun hm => (hM' f hm).2 hs) fun hu1 => absurd hu1 hu, h.taken f ⟨hs, hu⟩]

theorem Recount.alloc (h : Allocated s.pages 1 s'.pages d) (hi : Inv s.pages) : Recount (fun _ => False) s s' where
  inv := h.inv hi
  shared _ hf := hf.elim
  kept f ha _ hf := by
    refine h.other f ha fun hhas => ?_
    exact ((h.covers f).1 (hf (h.free f hhas))).2 hhas
  taken f hf := by
    refine h.counted f ?_
    by_contra hhas
    exact hf.2 ((h.covers f).2 ⟨hf.1, hhas⟩)

theorem Recount.after (h' : Recount M u u') (h : Allocated s.pages 1 u.pages d) (hi : Inv s.pages)
    (hsub : ∀ q, Free u' q → Free u q) (hM : ∀ f, M f → f % sizeofPage = 0 ∧ ¬ Free s f) : Recount M s u' := by
  refine ((Recount.alloc h hi).trans hi.listed h' (fun q hq => ((h.covers q).1 hq).1) hsub
    (fun _ hf => hf.elim) hM).congr fun f => ?_
  rw [false_or]

theorem Counted.mono (h : Counted L s src K) (hK : ∀ k, K' k → K k) : Counted L s src K' where
  inv := h.inv
  unique hl hl' := h.unique (hl.mono hK) (hl'.mono hK)
  owned hf := h.owned (hf.mono hK)

theorem Counted.lowered (h : Counted L s src K) (hT : TablesIn L s.mem src T) (hlow : Lowers T s.mem u.mem)
    (hr : Recount M s u) (hM : ∀ f, Maps L s.mem src K f → ¬ M f) : Counted L u src K := by
  refine ⟨hr.inv, fun hl hl' he => ?_, fun {f} hf => ?_⟩
  · obtain ⟨e1, hl1, he1⟩ := hl.raised hT hlow
    obtain ⟨e2, hl2, he2⟩ := hl'.raised hT hlow
    exact h.unique hl1 hl2 (by rw [he1, he2, he])
  · have hf' := (maps_lowered hT hlow).1 hf
    rw [hr.kept f hf.aligned (hM f hf') fun hfree => absurd hfree (h.not_free hf')]
    exact h.owned hf'

theorem Counted.next (h : Counted (L + 1) s src (· = i)) (h0 : 0 < L) (hL : L < 4) (hi : Slots (L + 1) [i])
    (hp : entryFormat.present (s.mem src i) = true) : Counted L s (entryFormat.next (s.mem src i)) (fun _ => True) := by
  refine ⟨h.inv, fun hl hl' he => ?_, fun hf => h.owned ((maps_succ h0 hL).2 ⟨hi, hp, hf⟩)⟩
  obtain ⟨h1, h2⟩ := h.unique ((leaf_cons hL).2 ⟨hi, rfl, hp, hl⟩) ((leaf_cons hL).2 ⟨hi, rfl, hp, hl'⟩) he
  exact ⟨(cons.inj h1).2, h2⟩

/-- One page is counted up and flagged. -/
theorem Recount.share (hi : Inv s.pages) (hf : f % sizeofPage = 0) {c : PhysPage} (hd : desc s.pages f = some c)
    (h0 : c.refcount ≠ 0) (h1 : c.refcount + 1 ≠ 0) (hp : s'.pages = updateDesc s.pages f shareDesc) :
    Recount (· = f) s s' where
  inv := by
    rw [hp]
    exact hi.updateDesc hf hd h0 h1
  shared g hg := by
    subst hg
    rw [hp, desc_updateDesc hf hf, if_pos rfl]
  kept g ha hg _ := by
    rw [hp, desc_updateDesc hf ha, if_neg hg]
  taken g hg := by
    have hcov : Free s g ∧ ¬ Covers s'.pages.physFreeList g := hg
    rw [hp] at hcov
    exact absurd hcov.1 hcov.2

end Adix.Fork
