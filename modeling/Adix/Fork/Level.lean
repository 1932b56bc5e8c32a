import Adix.Fork.Copy

/-!
# One level of the copy

`cow_fork_level` is a loop over the entries of one object, and each round of the loop is a copy of one level below.
-/

namespace Adix.Fork

open PageTable PhysPages Radix List Option

variable {L : Nat} {T : Nat → Prop} {src dest q d f t : Nat} {σ τ : List Index} {i j : Index} {s s' u u' : Mach}
  {done : List Index} {m m₀ m' m'' : Memory} {O O' : Nat → Prop} {r : Int}

def EntryCopied (L : Nat) (m m' : Memory) (O : Nat → Prop) (src dest : Nat) (i : Index) : Prop :=
  match L with
  | 0 => m' dest i = clearRW (m src i) ∧ m' src i = clearRW (m src i)
  | L + 1 => ∃ d, entryFormat.link (m' dest i) = some d ∧ accessBits (m' dest i) = accessBits (m src i) ∧
      CopyOf (L + 1) m m' O (entryFormat.next (m src i)) d

private theorem EntryCopied.mono (h : EntryCopied L m m' O src dest i) (hsrc : T src)
    (hT : TablesIn L m' (entryFormat.next (m src i)) T) (hlow : Lowers T m' m'')
    (hdest : m'' dest i = m' dest i) (hO : ∀ q, O q → m'' q = m' q) (hm : ∀ q, O q → m₀ q = m q)
    (hm0 : Lowered (m₀ src i) (m src i)) (hO' : ∀ q, O q → O' q) : EntryCopied L m₀ m'' O' src dest i := by
  cases L with
  | zero =>
    obtain ⟨h1, h2⟩ := h
    rw [hm0.clearRW_eq] at h1 h2
    refine ⟨hdest.trans h1, ?_⟩
    rw [(hlow src hsrc i).eq_of_readOnly (by rw [h2, clearRW_clearRW]), h2]
  | succ L =>
    obtain ⟨d, hd, ha, hc⟩ := h
    refine ⟨d, by rw [hdest]; exact hd, by rw [hdest, ha, hm0.accessBits_eq], ?_⟩
    rw [← hm0.next_eq]
    exact hc.mono hT hlow hO hm hO'

section Path

variable (h : EntryCopied L m m' O src dest i) (hL : L < 4) (hσ : Below (L + 1) (i :: σ))
  (hi : entryFormat.link (m' src i) = entryFormat.link (m src i)) (ht : walk entryFormat m' src (i :: σ) = some t)
include h hL hσ hi ht

private theorem EntryCopied.below :
    ∃ d, entryFormat.link (m' dest i) = some d ∧ CopyOf L m m' O (entryFormat.next (m src i)) d ∧ Below L σ ∧
      walk entryFormat m' (entryFormat.next (m src i)) σ = some t := by
  cases L with
  | zero => exact absurd hσ.1 (by simp)
  | succ L =>
    obtain ⟨d, hd, -, hc⟩ := h
    rw [walk_cons, hi] at ht
    obtain ⟨p, hp, ht⟩ := bind_eq_some_iff.1 ht
    obtain ⟨-, rfl⟩ := Format.link_eq_some.1 hp
    exact ⟨d, hd, hc, ((below_cons hL).1 hσ).2, ht⟩

private theorem EntryCopied.own (hq : walk entryFormat m' dest (i :: σ) = some q) : O q := by
  obtain ⟨d, hd, hc, hσ, ht⟩ := h.below hL hσ hi ht
  obtain ⟨d', hd', hown, -⟩ := hc.node σ t hσ ht
  rw [walk_cons, hd, bind_some, hd'] at hq
  rw [← some.inj hq]
  exact hown

private theorem EntryCopied.walk_eq (hdest : m'' dest i = m' dest i) (hO : ∀ q, O q → m'' q = m' q) :
    walk entryFormat m'' dest (i :: σ) = walk entryFormat m' dest (i :: σ) := by
  obtain ⟨d, hd, hc, hσ, ht⟩ := h.below hL hσ hi ht
  rw [walk_cons, walk_cons, hdest, hd]
  exact hc.walk_eq hO hσ ht

end Path

/-- What one round does to the object of the copy. -/
structure Round (L : Nat) (T : Nat → Prop) (src dest : Nat) (i : Index) (u u' : Mach) : Prop where
  frame : Frame T dest u u'
  row : ∀ j, j ≠ i → u'.mem dest j = u.mem dest j
  absent : entryFormat.present (u.mem src i) = false → u'.mem dest i = u.mem dest i
  entry : Slots (L + 1) [i] → entryFormat.present (u.mem src i) = true →
    EntryCopied L u.mem u'.mem (Taken u u') src dest i
  self : L = 3 → i = selfRefEntry → u'.mem dest i = u.mem dest i
  kernel : L = 3 → i = pml4KernelEntry → entryFormat.present (u.mem src i) = true → u'.mem dest i = u.mem src i
  count : Counted (L + 1) u src (· = i) → Recount (Maps (L + 1) u.mem src (· = i)) u u'

/-- What the rounds so far have done. -/
structure Progress (L : Nat) (T : Nat → Prop) (src dest : Nat) (s u : Mach) (done : List Index) : Prop where
  frame : Frame T dest s u
  row : ∀ j, j ∉ done → u.mem dest j = s.mem dest j
  absent : ∀ j, entryFormat.present (s.mem src j) = false → u.mem dest j = s.mem dest j
  entry : ∀ i ∈ done, Slots (L + 1) [i] → entryFormat.present (s.mem src i) = true →
    EntryCopied L s.mem u.mem (Taken s u) src dest i
  apart : ∀ {i j σ τ t t' q}, i ∈ done → j ∈ done → Below (L + 1) (i :: σ) → Below (L + 1) (j :: τ) →
    walk entryFormat u.mem src (i :: σ) = some t → walk entryFormat u.mem src (j :: τ) = some t' →
    walk entryFormat u.mem dest (i :: σ) = some q → walk entryFormat u.mem dest (j :: τ) = some q → i = j
  self : L = 3 → u.mem dest selfRefEntry = s.mem dest selfRefEntry
  kernel : L = 3 → pml4KernelEntry ∈ done → entryFormat.present (s.mem src pml4KernelEntry) = true →
    Lowered (s.mem src pml4KernelEntry) (u.mem dest pml4KernelEntry)
  count : Counted (L + 1) s src (fun _ => True) → Recount (Maps (L + 1) s.mem src (· ∈ done)) s u

private theorem Progress.start (h : Listed s.pages) : Progress L T src dest s s [] where
  frame := Frame.refl h
  row _ _ := rfl
  absent _ _ := rfl
  entry i hi := absurd hi not_mem_nil
  apart hi := absurd hi not_mem_nil
  self _ := rfl
  kernel _ hi := absurd hi not_mem_nil
  count hc := by
    refine Recount.same hc.inv rfl ?_
    rintro f ⟨σ, j, e, hl, -⟩
    obtain ⟨k, -, hk⟩ := hl.head
    exact absurd hk not_mem_nil

/-- The table at `src` can be copied to `dest`: its objects and `dest` are not free. -/
structure Source (L : Nat) (T : Nat → Prop) (src dest : Nat) (s : Mach) : Prop extends Ready T dest s where
  root : T src
  tables : TablesIn (L + 1) s.mem src T
  level : L < 4

theorem Source.frame (hs : Source L T src dest s) (hf : Frame T dest s u) : Source L T src dest u :=
  { hs.toReady.frame hf with
    root := hs.root
    tables := hs.tables.lowered (hf.source hs.toReady)
    level := hs.level }

section Step

variable (hs : Source L T src dest s) (h : Progress L T src dest s u done)
include hs h

private theorem Progress.below (hi : Slots (L + 1) [i]) (hp : entryFormat.present (s.mem src i) = true) :
    TablesIn L u.mem (entryFormat.next (s.mem src i)) T := by
  have hlow := h.frame.source hs.toReady
  have hnext := (hs.tables.lowered hlow).next hs.level hi (by rw [(hlow src hs.root i).present_eq]; exact hp)
  rw [(hlow src hs.root i).next_eq] at hnext
  exact hnext

private theorem Progress.entry_later (hround : Round L T src dest i u u') (hi : i ∉ done) (hj : j ∈ done)
    (hslot : Slots (L + 1) [j]) (hp : entryFormat.present (s.mem src j) = true) :
    EntryCopied L s.mem u'.mem (Taken s u') src dest j := by
  refine (h.entry j hj hslot hp).mono hs.root (h.below hs hslot hp)
    (hround.frame.source (hs.toReady.frame h.frame)) ?_ ?_ (fun _ _ => rfl) (Lowered.refl _) ?_
  · exact hround.row j fun he => hi (he ▸ hj)
  · exact fun q hq => hround.frame.taken_eq hs.toReady hq
  · exact fun q hq => hq.later hround.frame

private theorem Progress.entry_new (hround : Round L T src dest i u u') (hslot : Slots (L + 1) [i])
    (hp : entryFormat.present (s.mem src i) = true) : EntryCopied L s.mem u'.mem (Taken s u') src dest i := by
  have hlow := h.frame.source hs.toReady src hs.root i
  have hent := hround.entry hslot (by rw [hlow.present_eq]; exact hp)
  refine hent.mono hs.root ?_ .refl rfl (fun _ _ => rfl) ?_ hlow ?_
  · rw [hlow.next_eq]
    exact (h.below hs hslot hp).lowered (hround.frame.source (hs.toReady.frame h.frame))
  · exact fun q hq => (h.frame.free_eq hs.toReady hq.1).symm
  · exact fun q hq => hq.earlier h.frame

private theorem Progress.counted (hi : i ∉ done) (hc : Counted (L + 1) s src (fun _ => True)) :
      Counted (L + 1) u src (· = i) ∧
      ∀ f, Maps (L + 1) s.mem src (· ∈ done) f → ¬ Maps (L + 1) s.mem src (· = i) f := by
  -- two paths to one page begin with the same index
  have hapart : ∀ f, Maps (L + 1) s.mem src (· ∈ done) f → ¬ Maps (L + 1) s.mem src (· = i) f := by
    rintro f ⟨σ, k, e, hl, rfl⟩ ⟨τ, k', e', hl', he⟩
    obtain ⟨rfl, rfl⟩ := hc.unique (hl.mono fun _ _ => trivial) (hl'.mono fun _ _ => trivial) he.symm
    obtain ⟨k0, hk0, hdone⟩ := hl.head
    obtain rfl : k0 = i := hl'.2.2.1 k0 hk0
    exact hi hdone
  refine ⟨(hc.mono fun _ _ => trivial).lowered hs.tables (h.frame.source hs.toReady) (h.count hc) ?_, hapart⟩
  exact fun f hf hdone => hapart f hdone hf

private theorem Progress.walk_done (hround : Round L T src dest i u u') (hi : i ∉ done) (hj : j ∈ done)
    (hσ : Below (L + 1) (j :: σ)) (ht : walk entryFormat u'.mem src (j :: σ) = some t)
    (hq : walk entryFormat u'.mem dest (j :: σ) = some q) : walk entryFormat u.mem src (j :: σ) = some t ∧
      walk entryFormat u.mem dest (j :: σ) = some q ∧ Taken s u q := by
  have hlow := h.frame.source hs.toReady
  rw [walk_lowered (hs.tables.lowered hlow) (hround.frame.source (hs.toReady.frame h.frame)) hσ] at ht
  have hent := h.entry j hj hσ.2 (by rw [← (hlow src hs.root j).present_eq]; exact present_of_walk ht)
  have hlink := (hlow src hs.root j).link_eq
  have hrow : u'.mem dest j = u.mem dest j := hround.row j fun he => hi (he ▸ hj)
  rw [hent.walk_eq hs.level hσ hlink ht hrow fun q hq => hround.frame.taken_eq hs.toReady hq] at hq
  exact ⟨ht, hq, hent.own hs.level hσ hlink ht hq⟩

private theorem Progress.walk_round (hround : Round L T src dest i u u') (hσ : Below (L + 1) (i :: σ))
    (ht : walk entryFormat u'.mem src (i :: σ) = some t)
    (hq : walk entryFormat u'.mem dest (i :: σ) = some q) : Free u q := by
  have hlow := hround.frame.source (hs.toReady.frame h.frame) src hs.root i
  have hp : entryFormat.present (u.mem src i) = true := by
    rw [← hlow.present_eq]
    exact present_of_walk ht
  exact ((hround.entry hσ.2 hp).own hs.level hσ hlow.link_eq ht hq).1

/-- A round extends the progress. -/
private theorem Progress.step (hround : Round L T src dest i u u') (hi : i ∉ done) :
    Progress L T src dest s u' (done ++ [i]) := by
  have hlow := h.frame.source hs.toReady
  refine ⟨h.frame.trans hround.frame, ?_, ?_, ?_, ?_, ?_, ?_, ?_⟩
  · intro j hj
    rw [mem_append, mem_singleton, not_or] at hj
    rw [hround.row j hj.2, h.row j hj.1]
  · intro j hp
    rw [← h.absent j hp]
    by_cases hji : j = i
    · subst hji
      exact hround.absent (by rw [(hlow src hs.root j).present_eq]; exact hp)
    · exact hround.row j hji
  · intro j hj hslot hp
    rw [mem_append, mem_singleton] at hj
    rcases hj with hj | rfl
    · exact h.entry_later hs hround hi hj hslot hp
    · exact h.entry_new hs hround hslot hp
  · intro j k σ τ t t' q hj hk hσ hτ ht ht' hq hq'
    rw [mem_append, mem_singleton] at hj hk
    rcases hj with hj | rfl
    · obtain ⟨w1, w2, w3⟩ := h.walk_done hs hround hi hj hσ ht hq
      rcases hk with hk | rfl
      · obtain ⟨w1', w2', -⟩ := h.walk_done hs hround hi hk hτ ht' hq'
        exact h.apart hj hk hσ hτ w1 w1' w2 w2'
      · exact absurd (h.walk_round hs hround hτ ht' hq') w3.2
    · rcases hk with hk | rfl
      · obtain ⟨-, -, w3⟩ := h.walk_done hs hround hi hk hτ ht' hq'
        exact absurd (h.walk_round hs hround hσ ht hq) w3.2
      · rfl
  · intro h3
    rw [← h.self h3]
    by_cases hself : selfRefEntry = i
    · subst hself
      exact hround.self h3 rfl
    · exact hround.row _ hself
  · intro h3 hmem hp
    rw [mem_append, mem_singleton] at hmem
    by_cases hker : pml4KernelEntry = i
    · subst hker
      rw [hround.kernel h3 rfl (by rw [(hlow src hs.root _).present_eq]; exact hp)]
      exact hlow src hs.root _
    · rw [hround.row _ hker]
      exact h.kernel h3 (hmem.resolve_right hker) hp
  · intro hc
    obtain ⟨hci, hapart⟩ := h.counted hs hi hc
    have hall : ∀ {K : Index → Prop} {f}, Maps (L + 1) s.mem src K f → f % sizeofPage = 0 ∧ ¬ Free s f := by
      exact fun hm => ⟨hm.aligned, hc.not_free (hm.mono fun _ _ => trivial)⟩
    have hrec := (hround.count hci).congr fun f => (maps_lowered hs.tables hlow).symm
    refine ((h.count hc).trans hs.listed hrec h.frame.free_sub hround.frame.free_sub ?_ fun f hf => hall hf).congr
      fun f => maps_mem_snoc
    exact fun f hf => ⟨(hall hf).1, (hall hf).2, hapart f hf⟩

private theorem Progress.rows (hall : ∀ i, i ∈ done) :
    RowOf s.mem u.mem (0 + 1 = L + 1) (fun i => Slots (L + 1) [i]) src dest := by
  have hlow := h.frame.source hs.toReady src hs.root
  refine ⟨fun i _ hp => ?_, fun hlast i hslot hp => ?_, fun i hslot hp => ?_⟩
  · rw [(hlow i).present_eq] at hp
    exact h.absent i hp
  · obtain rfl : L = 0 := by omega
    rw [(hlow i).present_eq] at hp
    obtain ⟨h1, h2⟩ := h.entry i (hall i) hslot hp
    rw [h1, h2, clearRW_clearRW]
    exact ⟨rfl, rfl⟩
  · have hp' := hp
    rw [(hlow i).present_eq] at hp'
    have hent := h.entry i (hall i) hslot hp'
    rw [(hlow i).accessBits_eq]
    cases L with
    | zero => rw [hent.1, accessBits_clearRW]
    | succ L =>
      obtain ⟨d, -, ha, -⟩ := hent
      exact ha

/-- The progress of the whole loop is a copy. -/
private theorem Progress.copy (hall : ∀ i, i ∈ done) :
    CopyOf (L + 1) s.mem u.mem (fun q => q = dest ∨ Taken s u q) src dest := by
  have hlow := h.frame.source hs.toReady src hs.root
  have hentry : ∀ {i σ t}, Below (L + 1) (i :: σ) → walk entryFormat u.mem src (i :: σ) = some t →
      EntryCopied L s.mem u.mem (Taken s u) src dest i := by
    intro i σ t hσ ht
    refine h.entry i (hall i) hσ.2 ?_
    rw [← (hlow i).present_eq]
    exact present_of_walk ht
  have hown : ∀ {i σ t q}, Below (L + 1) (i :: σ) → walk entryFormat u.mem src (i :: σ) = some t →
      walk entryFormat u.mem dest (i :: σ) = some q → Taken s u q :=
    fun hσ ht hq => (hentry hσ ht).own hs.level hσ (hlow _).link_eq ht hq
  constructor
  · intro σ t hσ ht
    cases σ with
    | nil =>
      obtain rfl : src = t := some.inj ht
      exact ⟨dest, rfl, .inl rfl, h.rows hs hall⟩
    | cons i σ =>
      obtain ⟨d, hd, hc, hσ, ht⟩ := (hentry hσ ht).below hs.level hσ (hlow i).link_eq ht
      obtain ⟨d', hd', hown', hrow⟩ := hc.node σ t hσ ht
      refine ⟨d', by rw [walk_cons, hd]; exact hd', .inr hown', hrow.weaken ?_ ?_⟩
      · rw [length_cons]
        omega
      · exact fun k _ => Slots.of_lt hs.level
  · intro σ τ t t' d hσ hτ ht ht' hd hd'
    cases σ with
    | nil =>
      cases τ with
      | nil => rfl
      | cons j τ =>
        obtain rfl : dest = d := some.inj hd
        exact absurd (hown hτ ht' hd').1 hs.dest
    | cons i σ =>
      cases τ with
      | nil =>
        obtain rfl : dest = d := some.inj hd'
        exact absurd (hown hσ ht hd).1 hs.dest
      | cons j τ =>
        obtain rfl := h.apart (hall i) (hall j) hσ hτ ht ht' hd hd'
        obtain ⟨-, -, -, hτ, ht'⟩ := (hentry hτ ht').below hs.level hτ (hlow i).link_eq ht'
        obtain ⟨d', hlink, hc, hσ, ht⟩ := (hentry hσ ht).below hs.level hσ (hlow i).link_eq ht
        rw [walk_cons, hlink] at hd hd'
        rw [hc.inj σ τ t t' d hσ hτ ht ht' hd hd']

end Step

structure Forked (L : Nat) (T : Nat → Prop) (src dest : Nat) (s s' : Mach) : Prop where
  frame : Frame T dest s s'
  copy : CopyOf (L + 1) s.mem s'.mem (fun q => q = dest ∨ Taken s s' q) src dest
  absent : ∀ j, entryFormat.present (s.mem src j) = false → s'.mem dest j = s.mem dest j
  self : L = 3 → s'.mem dest selfRefEntry = s.mem dest selfRefEntry
  kernel : L = 3 → entryFormat.present (s.mem src pml4KernelEntry) = true →
    Lowered (s.mem src pml4KernelEntry) (s'.mem dest pml4KernelEntry)
  count : Counted (L + 1) s src (fun _ => True) → Recount (Maps (L + 1) s.mem src (fun _ => True)) s s'

private theorem maps_present (hL : L < 4) (h : Maps (L + 1) m src (· = i) f) :
    Slots (L + 1) [i] ∧ entryFormat.present (m src i) = true := by
  cases L with
  | zero => exact ⟨Slots.of_lt (by decide), (maps_one.1 h).1⟩
  | succ L =>
    obtain ⟨h1, h2, -⟩ := (maps_succ (by omega) hL).1 h
    exact ⟨h1, h2⟩

private theorem round_absent (hs : Source L T src dest u) (hp : entryFormat.present (u.mem src i) = false) :
    Round L T src dest i u u where
  frame := Frame.refl hs.listed
  row _ _ := rfl
  absent _ := rfl
  entry _ hp' := by rw [hp] at hp'; cases hp'
  self _ _ := rfl
  kernel _ _ hp' := by rw [hp] at hp'; cases hp'
  count hc := Recount.same hc.inv rfl fun f hf => by
    rw [(maps_present hs.level hf).2] at hp
    cases hp

private theorem round_slot (hs : Source L T src dest u) (hslot : ¬ Slots (L + 1) [i])
    (hp : entryFormat.present (u.mem src i) = true) {w : Word} (hself : i = selfRefEntry → w = u.mem dest i)
    (hkernel : i = pml4KernelEntry → w = u.mem src i) : Round L T src dest i u (u.store dest i w) where
  frame := by
    have hmem : ∀ q j, q ≠ dest → (u.store dest i w).mem q j = u.mem q j := fun q j hq => if_neg fun he => hq he.1
    exact ⟨hs.listed, rfl, fun _ hq => hq, fun q hq _ j => .inl (hmem q j hq),
      fun q hq _ _ => funext fun j => hmem q j hq⟩
  row j hj := if_neg fun he => hj he.2
  absent hp' := by rw [hp] at hp'; cases hp'
  entry hslot' := absurd hslot' hslot
  self _ hi := by rw [Mach.store_mem, if_pos ⟨rfl, rfl⟩, hself hi]
  kernel _ hi _ := by rw [Mach.store_mem, if_pos ⟨rfl, rfl⟩, hkernel hi]
  count hc := Recount.same hc.inv rfl fun f hf => hslot (maps_present hs.level hf).1

/-- The same word is stored in source and copy, and one descriptor is updated. -/
private theorem sharePage_spec (he : sharePage src dest i u = (u', r)) (hr : r ≠ -1) :
    (∀ q j, u'.mem q j = if (q = dest ∨ q = src) ∧ j = i then clearRW (u.mem src i) else u.mem q j) ∧
      u'.base = u.base ∧ u'.pages = updateDesc u.pages (entryFormat.next (u.mem src i)) shareDesc := by
  unfold sharePage at he
  dsimp only at he
  split at he
  · exact absurd (Prod.mk.inj he).2.symm hr
  · cases he
    refine ⟨fun q j => ?_, rfl, by rw [next_clearRW]; rfl⟩
    simp only [Mach.store_mem]
    by_cases hj : j = i
    · by_cases hq : q = dest
      · rw [if_pos ⟨hq, hj⟩, if_pos ⟨.inl hq, hj⟩]
      · rw [if_neg fun h => hq h.1]
        simp [hq]
    · rw [if_neg fun h => hj h.2, if_neg fun h => hj h.2, if_neg fun h => hj h.2]

private theorem round_share (hs : Source 0 T src dest u) (hp : entryFormat.present (u.mem src i) = true)
    (he : sharePage src dest i u = (u', r)) (hr : r ≠ -1) : Round 0 T src dest i u u' := by
  obtain ⟨hmem, hbase, hpages⟩ := sharePage_spec he hr
  have hfree : ∀ q, Free u' q ↔ Free u q := by
    intro q
    show Covers u'.pages.physFreeList q ↔ _
    rw [hpages]
    rfl
  refine ⟨⟨?_, hbase, fun q hq => (hfree q).1 hq, ?_, ?_⟩, ?_, ?_, ?_, fun h3 => (by cases h3),
    fun h3 => (by cases h3), ?_⟩
  · rw [hpages]
    exact ⟨hs.listed.apart, hs.listed.page⟩
  · intro q hq _ j
    rw [hmem]
    split
    · rename_i h
      obtain ⟨h1, rfl⟩ := h
      rw [h1.resolve_left hq]
      exact .inr rfl
    · exact .inl rfl
  · intro q hq hT _
    funext j
    rw [hmem, if_neg]
    rintro ⟨h1, -⟩
    rw [h1.resolve_left hq] at hT
    exact hT hs.root
  · intro j hj
    rw [hmem, if_neg fun h => hj h.2]
  · intro hp'
    rw [hp] at hp'
    cases hp'
  · intro _ _
    exact ⟨(hmem dest i).trans (if_pos ⟨.inl rfl, rfl⟩), (hmem src i).trans (if_pos ⟨.inr rfl, rfl⟩)⟩
  · intro hc
    obtain ⟨c, hd, h0, h1⟩ := hc.owned (maps_one.2 ⟨hp, rfl⟩)
    refine (Recount.share hc.inv (next_aligned _) hd h0 h1 hpages).congr fun f => ?_
    rw [maps_one]
    exact ⟨fun h => h.2.symm, fun h => ⟨hp, h.symm⟩⟩

private structure Linked (dest : Nat) (i : Index) (w : Word) (d : Nat) (u u' : Mach) : Prop where
  mem_eq : ∀ q j, u'.mem q j = if q = dest ∧ j = i then w else u.mem q j
  base_eq : u'.base = u.base
  allocated : Allocated u.pages 1 u'.pages d

section Table

variable {u₁ : Mach} {w : Word} (hs : Source (L + 1) T src dest u) (hlink : Linked dest i w d u u₁)
include hs hlink

omit hs in
private theorem Linked.free_iff : Free u₁ q ↔ Free u q ∧ q ≠ d := by
  show Covers u₁.pages.physFreeList q ↔ _
  rw [hlink.allocated.covers, has_one]
  rfl

omit hs in
private theorem Linked.wasFree : Free u d := hlink.allocated.free d (has_one.2 rfl)

omit hs in
private theorem Linked.other (hq : q ≠ dest) : u₁.mem q = u.mem q := by
  funext j
  rw [hlink.mem_eq, if_neg fun h => hq h.1]

private theorem Linked.ne : dest ≠ d := by
  rintro rfl
  exact hs.dest hlink.wasFree

private theorem Linked.low : Lowers T u.mem u₁.mem := by
  intro q hq j
  rw [hlink.other (hs.source q hq).2]
  exact Lowered.refl _

private theorem Linked.source (hslot : Slots (L + 2) [i]) (hp : entryFormat.present (u.mem src i) = true) :
    Source L T (entryFormat.next (u.mem src i)) d u₁ where
  listed := hlink.allocated.listed
  free q hq := hs.free q (hlink.free_iff.1 hq).1
  source q hq := by
    have hnot := (hs.source q hq).1
    refine ⟨fun h => hnot (hlink.free_iff.1 h).1, ?_⟩
    rintro rfl
    exact hnot hlink.wasFree
  dest h := (hlink.free_iff.1 h).2 rfl
  root := hs.tables.next hs.level hslot hp [] _ Below.nil rfl
  tables := (hs.tables.next hs.level hslot hp).lowered (hlink.low hs)
  level := by
    have := hs.level
    omega

omit hs in
private theorem Linked.frame (h : Frame T d u₁ u') : Frame T dest u u' := by
  have hd : ∀ q, (Free u q → Free u' q) → q ≠ d := by
    rintro q hq rfl
    exact (hlink.free_iff.1 (h.free_sub q (hq hlink.wasFree))).2 rfl
  have hfree : ∀ {q}, (Free u q → Free u' q) → Free u₁ q → Free u' q := fun hq h1 => hq (hlink.free_iff.1 h1).1
  refine ⟨h.listed, h.base_eq.trans hlink.base_eq, fun q hq => (hlink.free_iff.1 (h.free_sub q hq)).1, ?_, ?_⟩
  · intro q hq hf j
    rw [← hlink.other hq]
    exact h.lowered q (hd q hf) (hfree hf) j
  · intro q hq hT hf
    rw [h.kept q (hd q hf) hT (hfree hf), hlink.other hq]

private theorem Linked.count (hslot : Slots (L + 2) [i]) (hp : entryFormat.present (u.mem src i) = true)
    (hf : Forked L T (entryFormat.next (u.mem src i)) d u₁ u') (hc : Counted (L + 2) u src (· = i)) :
    Recount (Maps (L + 2) u.mem src (· = i)) u u' := by
  have hbelow := hs.tables.next hs.level hslot hp
  have hmaps : ∀ f, Maps (L + 2) u.mem src (· = i) f ↔
      Maps (L + 1) u₁.mem (entryFormat.next (u.mem src i)) (fun _ => True) f := by
    intro f
    rw [maps_lowered hbelow (hlink.low hs), maps_succ (by omega) hs.level]
    exact ⟨fun h => h.2.2, fun h => ⟨hslot, hp, h⟩⟩
  have hcount := (hc.next (by omega) hs.level hslot hp).lowered hbelow (hlink.low hs)
    (Recount.alloc hlink.allocated hc.inv) fun _ _ h => h
  refine ((hf.count hcount).after hlink.allocated hc.inv hf.frame.free_sub fun f hm => ?_).congr hmaps
  exact ⟨hm.aligned, hc.not_free ((hmaps f).2 hm)⟩

private theorem Linked.round (hslot : Slots (L + 2) [i]) (hp : entryFormat.present (u.mem src i) = true)
    (hw : entryFormat.link w = some d) (ha : accessBits w = accessBits (u.mem src i))
    (hf : Forked L T (entryFormat.next (u.mem src i)) d u₁ u') : Round (L + 1) T src dest i u u' := by
  have hsub := hlink.source hs hslot hp
  have hdest : u'.mem dest = u₁.mem dest := by
    refine hf.frame.kept dest (hlink.ne hs) (fun h => (hs.source dest h).2 rfl) fun h => ?_
    exact absurd (hlink.free_iff.1 h).1 hs.dest
  have htaken : Taken u u' d := ⟨hlink.wasFree, fun h => hsub.dest (hf.frame.free_sub d h)⟩
  refine ⟨hlink.frame hf.frame, ?_, ?_, ?_, ?_, ?_, hlink.count hs hslot hp hf⟩
  · intro j hj
    rw [hdest, hlink.mem_eq, if_neg fun h => hj h.2]
  · intro hp'
    rw [hp] at hp'
    cases hp'
  · intro _ _
    have hentry : u'.mem dest i = w := by
      rw [hdest, hlink.mem_eq, if_pos ⟨rfl, rfl⟩]
    refine ⟨d, by rw [hentry]; exact hw, by rw [hentry]; exact ha, ?_⟩
    have hsrc := hsub.tables.lowered (hf.frame.source hsub.toReady)
    refine hf.copy.mono hsrc .refl (fun _ _ => rfl) ?_ ?_
    · rintro q (rfl | hq)
      · exact (hlink.other (hlink.ne hs).symm).symm
      · refine (hlink.other ?_).symm
        rintro rfl
        exact hs.dest (hlink.free_iff.1 hq.1).1
    · rintro q (rfl | hq)
      · exact htaken
      · exact ⟨(hlink.free_iff.1 hq.1).1, hq.2⟩
  · intro h3 hi
    exact absurd hi (hslot (by omega) i rfl).1
  · intro h3 hi
    exact absurd hi (hslot (by omega) i rfl).2

end Table

theorem mem_allIndices (i : Index) : i ∈ allIndices := by
  unfold allIndices
  rw [List.mem_map]
  exact ⟨i.toNat, mem_range.2 i.isLt, by simp⟩

private theorem nodup_allIndices : allIndices.Nodup := by
  refine List.Nodup.map_on ?_ nodup_range
  intro a ha b hb he
  rw [mem_range] at ha hb
  have hn := congrArg BitVec.toNat he
  rw [BitVec.toNat_ofNat, BitVec.toNat_ofNat] at hn
  omega

private theorem forEach_forked {sub : Mach → Nat → Nat → Mach × Int} (hs : Source L T src dest s)
    (hround : ∀ {u u' : Mach} {i : Index} {r : Int}, Source L T src dest u →
      forkEntry (L + 1) sub src dest i u = (u', r) → r ≠ -1 → Round L T src dest i u u')
    (he : Loop.forEach (-1) 0 (forkEntry (L + 1) sub src dest) allIndices s = (s', r)) (hr : r ≠ -1) :
    Forked L T src dest s s' := by
  have hprog : Progress L T src dest s s' allIndices := by
    refine Loop.forEach_invariant (P := fun done u => Progress L T src dest s u done) ?_ (Progress.start hs.listed) he
      hr
    intro done i rest u u' r hl hprog hbody hr
    have hnd := nodup_allIndices
    rw [hl] at hnd
    have hi : i ∉ done := fun h => (nodup_append.1 hnd).2.2 i h i (mem_cons_self ..) rfl
    exact hprog.step hs (hround (hs.frame hprog.frame) hbody hr) hi
  refine ⟨hprog.frame, hprog.copy hs mem_allIndices, hprog.absent, hprog.self,
    fun h3 => hprog.kernel h3 (mem_allIndices _), fun hc => (hprog.count hc).congr fun f => ?_⟩
  exact ⟨fun h => h.mono fun k _ => mem_allIndices k, fun h => h.mono fun _ _ => trivial⟩

theorem slots_of_ne (hk : ¬ (L = 4 ∧ i = pml4KernelEntry)) (hself : ¬ (L = 4 ∧ i = selfRefEntry)) : Slots L [i] := by
  intro h4 k hk'
  obtain rfl : i = k := some.inj hk'
  exact ⟨fun h => hself ⟨h4, h⟩, fun h => hk ⟨h4, h⟩⟩

private theorem linked_store {u₁ : Mach} (ht : TakesPage u u₁ d) (w : Word) :
    Linked dest i w d u (u₁.store dest i w) := by
  refine ⟨fun q j => ?_, ht.base_eq, ht.allocated⟩
  rw [Mach.store_mem, ht.mem_eq]

theorem Source.below {u₁ : Mach} (hs : Source (L + 1) T src dest u) (hslot : Slots (L + 2) [i])
    (hp : entryFormat.present (u.mem src i) = true) (ht : TakesPage u u₁ d) (w : Word) :
    Source L T (entryFormat.next (u.mem src i)) d (u₁.store dest i w) :=
  (linked_store ht w).source hs hslot hp

private theorem copyTable_round (ih : ∀ {s s' : Mach} {src dest : Nat} {r : Int}, Source L T src dest s →
      cowForkLevel (L + 1) s src dest = (s', r) → r ≠ -1 → Forked L T src dest s s')
    (hs : Source (L + 1) T src dest u) (hp : entryFormat.present (u.mem src i) = true)
    (he : copyTable (L + 2) (cowForkLevel (L + 1)) src dest i u = (u', r)) (hr : r ≠ -1) :
    Round (L + 1) T src dest i u u' := by
  unfold copyTable at he
  by_cases hk : L + 2 = 4 ∧ i = pml4KernelEntry
  · rw [if_pos hk] at he
    cases he
    refine round_slot hs (fun hslot => (hslot hk.1 i rfl).2 hk.2) hp (fun hi => ?_) fun _ => rfl
    rw [hk.2] at hi
    exact absurd hi (by decide)
  rw [if_neg hk] at he
  by_cases hself : L + 2 = 4 ∧ i = selfRefEntry
  · rw [if_pos hself] at he
    cases he
    have hround := round_slot hs (fun hslot => (hslot hself.1 i rfl).1 hself.2) hp (fun _ => rfl)
      fun hi => absurd ⟨hself.1, hi⟩ hk
    rwa [Mach.store_self] at hround
  rw [if_neg hself] at he
  have hslot := slots_of_ne hk hself
  rcases allocPage_cases hs.listed with h0 | ⟨u₁, d, hal, htakes⟩
  · rw [h0] at he
    exact absurd (Prod.mk.inj he).2.symm hr
  rw [hal] at he
  dsimp only at he
  rw [if_neg htakes.allocated.ne_zero] at he
  have hd := hs.free d htakes.wasFree
  exact (linked_store htakes _).round hs hslot hp (link_copyEntry hd hp) (accessBits_copyEntry hd)
    (ih (hs.below hslot hp htakes _) he hr)

/-- If the level below is copied as it should be, so is one entry. -/
private theorem round_of_spec (ih : ∀ {K : Nat}, L = K + 1 → ∀ {s s' : Mach} {src dest : Nat} {r : Int},
      Source K T src dest s → cowForkLevel (K + 1) s src dest = (s', r) → r ≠ -1 → Forked K T src dest s s')
    (hs : Source L T src dest u) (he : forkEntry (L + 1) (cowForkLevel L) src dest i u = (u', r)) (hr : r ≠ -1) :
    Round L T src dest i u u' := by
  unfold forkEntry at he
  split at he
  · rename_i hp
    cases he
    exact round_absent hs (not_present_iff.1 hp)
  · rename_i hp
    have hpresent := Bool.of_not_eq_false (mt not_present_iff.2 hp)
    cases L with
    | zero => exact round_share hs hpresent he hr
    | succ L =>
      rw [if_neg (by omega)] at he
      exact copyTable_round (ih rfl) hs hpresent he hr

/-- A call of `cow_fork_level` that succeeds makes a copy, in pages of the free list, and the source only loses write
permissions. -/
theorem cowForkLevel_spec : ∀ {L : Nat} {s s' : Mach} {src dest : Nat} {r : Int}, Source L T src dest s →
    cowForkLevel (L + 1) s src dest = (s', r) → r ≠ -1 → Forked L T src dest s s' := by
  intro L
  induction L with
  | zero =>
    intro s s' src dest r hs he hr
    exact forEach_forked hs (round_of_spec nofun) he hr
  | succ L ih =>
    intro s s' src dest r hs he hr
    refine forEach_forked hs (round_of_spec fun hK => ?_) he hr
    obtain rfl := Nat.succ.inj hK
    exact ih

/-- What one entry contributes, once the levels below are known. -/
theorem forkEntry_round (hs : Source L T src dest u) (he : forkEntry (L + 1) (cowForkLevel L) src dest i u = (u', r))
    (hr : r ≠ -1) : Round L T src dest i u u' :=
  round_of_spec (fun _ => cowForkLevel_spec) hs he hr

end Adix.Fork
