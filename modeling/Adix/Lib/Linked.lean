import Mathlib.Data.List.Chain

/-!
# Circular doubly linked lists

The operations fail when they go through a link that is not set or through a node that is not there any more (`there`).
On a closed list they do what they do to the list of its nodes.
-/

namespace Adix

open List Option Function
open List (cons_append append_assoc)

variable {ν : Type} [DecidableEq ν] {fuel : Nat} {m : List ν}

@[ext] structure Links (ν : Type) where
  next : ν → Option ν
  prev : ν → Option ν

namespace Links

def init (L : Links ν) (h : ν) : Links ν where
  next := update L.next h (some h)
  prev := update L.prev h (some h)

def insert (L : Links ν) (x p n : ν) : Links ν where
  next := update (update L.next x (some n)) p (some x)
  prev := update (update L.prev n (some x)) x (some p)

def addTail (L : Links ν) (there : ν → Bool) (x h : ν) : Option (Links ν) :=
  (L.prev h).bind fun p => if there x && there h && there p then some (L.insert x p h) else none

def unlink (L : Links ν) (x p n : ν) : Links ν where
  next := update (update L.next p (some n)) x none
  prev := update (update L.prev n (some p)) x none

def del (L : Links ν) (there : ν → Bool) (x : ν) : Option (Links ν) :=
  (L.prev x).bind fun p => (L.next x).bind fun n =>
    if there x && there p && there n then some (L.unlink x p n) else none

def walk (L : Links ν) (there : ν → Bool) (h : ν) : Nat → ν → Option (List ν)
  | 0, _ => none
  | fuel + 1, x =>
    if x = h then some []
    else if there x then (L.next x).bind fun y => (walk L there h fuel y).map (x :: ·)
    else none

def forEach (L : Links ν) (there : ν → Bool) (fuel : Nat) (h : ν) : Option (List ν) :=
  if there h then (L.next h).bind fun x => L.walk there h fuel x else none

def Joined (L : Links ν) (a b : ν) : Prop := L.next a = some b ∧ L.prev b = some a

section

variable (L : Links ν) (x p n y : ν)

@[simp] theorem next_insert :
    (L.insert x p n).next y = if y = p then some x else if y = x then some n else L.next y := by
  simp [insert, update_apply]

@[simp] theorem prev_insert :
    (L.insert x p n).prev y = if y = x then some p else if y = n then some x else L.prev y := by
  simp [insert, update_apply]

@[simp] theorem next_unlink : (L.unlink x p n).next y = if y = x then none else if y = p then some n else L.next y := by
  simp [unlink, update_apply]

@[simp] theorem prev_unlink : (L.unlink x p n).prev y = if y = x then none else if y = n then some p else L.prev y := by
  simp [unlink, update_apply]

end

end Links

/-- The links lead from the head `h`, a node of its own, through the nodes `l` and back, in both directions. -/
structure Linked (L : Links ν) (h : ν) (l : List ν) : Prop where
  nodup : (h :: l).Nodup
  chain : (h :: l ++ [h]).IsChain L.Joined

variable {L L' : Links ν} {h x a b : ν} {l l₁ l₂ : List ν} (there : ν → Bool)

namespace Linked

omit [DecidableEq ν] in
/-- A list depends on the links of its own nodes. -/
theorem congr (hr : Linked L h l) (hn : ∀ y ∈ h :: l, L'.next y = L.next y ∧ L'.prev y = L.prev y) : Linked L' h l where
  nodup := hr.nodup
  chain := by
    refine hr.chain.imp_of_mem_imp fun u v hu hv huv => ?_
    have hmem : ∀ y ∈ h :: l ++ [h], y ∈ h :: l := by
      intro y hy
      simp only [mem_append, mem_singleton] at hy
      rcases hy with hy | rfl
      · exact hy
      · exact mem_cons_self
    unfold Links.Joined
    rw [(hn u (hmem u hu)).1, (hn v (hmem v hv)).2]
    exact huv

theorem init (L : Links ν) (h : ν) : Linked (L.init h) h [] where
  nodup := by simp
  chain := by
    show [h, h].IsChain _
    rw [isChain_pair]
    exact ⟨update_self .., update_self ..⟩

omit [DecidableEq ν] in
theorem exists_last (h : ν) (l : List ν) : ∃ A a, h :: l = A ++ [a] := by
  rcases eq_nil_or_concat (h :: l) with hnil | ⟨A, a, ha⟩
  · cases hnil
  · exact ⟨A, a, by rw [ha, concat_eq_append]⟩

omit [DecidableEq ν] in
theorem joined (hr : Linked L h l) (hx : x ∈ h :: l) : (∃ b, L.Joined x b) ∧ ∃ a, L.Joined a x := by
  have hchain := hr.chain
  constructor
  · obtain ⟨A, B, hAB⟩ := append_of_mem hx
    obtain ⟨b, B', hb⟩ : ∃ b B', B ++ [h] = b :: B' := exists_cons_of_ne_nil (by simp)
    rw [hAB, append_assoc, cons_append, hb, isChain_append_cons_cons] at hchain
    exact ⟨b, hchain.2.1⟩
  · obtain ⟨A, B, hAB⟩ : ∃ A B, l ++ [h] = A ++ x :: B := append_of_mem (by simpa [or_comm] using hx)
    obtain ⟨A', a, ha⟩ := exists_last h A
    rw [cons_append, hAB, ← cons_append, ha, append_assoc, singleton_append, isChain_append_cons_cons] at hchain
    exact ⟨a, hchain.2.1⟩

omit [DecidableEq ν] in
theorem not_mem_sides {A B : List ν} (hx : x ∉ h :: (l₁ ++ l₂)) (ha : h :: l₁ = A ++ [a]) (hb : l₂ ++ [h] = b :: B) :
    x ∉ A ++ [a] ∧ x ∉ b :: B := by
  rw [← ha, ← hb]
  simp only [mem_cons, mem_append, not_mem_nil, or_false, not_or] at hx ⊢
  exact ⟨⟨hx.1, hx.2.1⟩, hx.2.2, hx.1⟩

private theorem chain_insert (hm : m.IsChain L.Joined) (hx : x ∉ m) (hb : b ∉ m.tail) (hab : L.Joined a b) :
    m.IsChain (L.insert x a b).Joined := by
  refine hm.imp_of_mem_tail_imp fun u v hu hv huv => ?_
  have hux : u ≠ x := fun hc => hx (hc ▸ hu)
  have hvx : v ≠ x := fun hc => hx (hc ▸ mem_of_mem_tail hv)
  have hvb : v ≠ b := fun hc => hb (hc ▸ hv)
  have hua : u ≠ a := by
    intro hc
    rw [hc] at huv
    exact hvb (some.inj (huv.1.symm.trans hab.1))
  unfold Links.Joined
  rw [Links.next_insert, Links.prev_insert, if_neg hua, if_neg hux, if_neg hvx, if_neg hvb]
  exact huv

theorem insert {A B : List ν} (hr : Linked L h (l₁ ++ l₂)) (hx : x ∉ h :: (l₁ ++ l₂)) (ha : h :: l₁ = A ++ [a])
    (hb : l₂ ++ [h] = b :: B) : L.Joined a b ∧ Linked (L.insert x a b) h (l₁ ++ x :: l₂) := by
  have hchain := hr.chain
  have hlist : h :: (l₁ ++ l₂) ++ [h] = A ++ a :: b :: B := by
    rw [cons_append, append_assoc, hb, ← cons_append, ha]
    simp
  rw [hlist, isChain_append_cons_cons] at hchain
  obtain ⟨hA, hab, hB⟩ := hchain
  have hnd : (l₁ ++ b :: B).Nodup := by
    rw [← hb, ← append_assoc]
    exact (perm_append_singleton h (l₁ ++ l₂)).nodup_iff.2 hr.nodup
  obtain ⟨hxA, hxB⟩ := not_mem_sides hx ha hb
  have hbl : b ∉ (A ++ [a]).tail := by
    rw [← ha]
    exact fun hc => (nodup_append.1 hnd).2.2 b hc b mem_cons_self rfl
  have hbB : b ∉ (b :: B).tail := (nodup_cons.1 (nodup_append.1 hnd).2.1).1
  refine ⟨hab, ?_, ?_⟩
  · rw [← cons_append]
    exact List.perm_middle.nodup_iff.2 (nodup_cons.2 ⟨hx, hr.nodup⟩)
  · have hlist' : h :: (l₁ ++ x :: l₂) ++ [h] = A ++ a :: x :: b :: B := by
      rw [cons_append, append_assoc, cons_append, hb, ← cons_append, ha]
      simp
    rw [hlist', isChain_append_cons_cons, isChain_cons_cons]
    have hxa : x ≠ a := fun hc => hxA (by simp [hc])
    have hbx : b ≠ x := fun hc => hxB (hc ▸ mem_cons_self)
    refine ⟨chain_insert hA hxA hbl hab, ?_, ?_, chain_insert hB hxB hbB hab⟩
    · simp [Links.Joined]
    · simp [Links.Joined, hxa, hbx]

/-- A node is added at the end, and the links of nodes of other lists are kept. -/
theorem addTail (hr : Linked L h l) (hx : x ∉ h :: l) (hthere : ∀ y ∈ x :: h :: l, there y = true) :
    ∃ L', L.addTail there x h = some L' ∧ Linked L' h (l ++ [x]) ∧
      ∀ y, y ∉ x :: h :: l → L'.next y = L.next y ∧ L'.prev y = L.prev y := by
  obtain ⟨A, a, ha⟩ := exists_last h l
  obtain ⟨hjoin, hlinked⟩ := @insert _ _ L h x a h l [] A [] (by rwa [append_nil]) (by rwa [append_nil]) ha rfl
  have hal : a ∈ h :: l := by simp [ha]
  refine ⟨L.insert x a h, ?_, hlinked, fun y hy => ?_⟩
  · unfold Links.addTail
    rw [hjoin.2, bind_some, hthere x (by simp), hthere h (by simp), hthere a (mem_cons_of_mem _ hal)]
    rfl
  · rw [mem_cons, not_or] at hy
    have hya : y ≠ a := fun hc => hy.2 (hc ▸ hal)
    have hyh : y ≠ h := fun hc => hy.2 (hc ▸ mem_cons_self)
    simp [hy.1, hya, hyh]

private theorem chain_unlink (hm : m.IsChain L.Joined) (hx : x ∉ m) (hax : L.Joined a x) (hxb : L.Joined x b) :
    m.IsChain (L.unlink x a b).Joined := by
  refine hm.imp_of_mem_imp fun u v hu hv huv => ?_
  have hux : u ≠ x := fun hc => hx (hc ▸ hu)
  have hvx : v ≠ x := fun hc => hx (hc ▸ hv)
  have hua : u ≠ a := by
    intro hc
    rw [hc] at huv
    exact hvx (some.inj (huv.1.symm.trans hax.1))
  have hvb : v ≠ b := by
    intro hc
    rw [hc] at huv
    exact hux (some.inj (huv.2.symm.trans hxb.2))
  unfold Links.Joined
  rw [Links.next_unlink, Links.prev_unlink, if_neg hux, if_neg hua, if_neg hvx, if_neg hvb]
  exact huv

theorem unlink {A B : List ν} (hr : Linked L h (l₁ ++ x :: l₂)) (ha : h :: l₁ = A ++ [a]) (hb : l₂ ++ [h] = b :: B) :
    L.Joined a x ∧ L.Joined x b ∧ x ∉ h :: (l₁ ++ l₂) ∧ Linked (L.unlink x a b) h (l₁ ++ l₂) := by
  have hchain := hr.chain
  have hlist : h :: (l₁ ++ x :: l₂) ++ [h] = A ++ a :: x :: b :: B := by
    rw [cons_append, append_assoc, cons_append, hb, ← cons_append, ha]
    simp
  rw [hlist, isChain_append_cons_cons, isChain_cons_cons] at hchain
  obtain ⟨hA, hax, hxb, hB⟩ := hchain
  have hnd := hr.nodup
  rw [← cons_append, List.perm_middle.nodup_iff, nodup_cons] at hnd
  obtain ⟨hx, hnd⟩ := hnd
  obtain ⟨hxA, hxB⟩ := not_mem_sides hx ha hb
  refine ⟨hax, hxb, hx, hnd, ?_⟩
  have hlist' : h :: (l₁ ++ l₂) ++ [h] = A ++ a :: b :: B := by
    rw [cons_append, append_assoc, hb, ← cons_append, ha]
    simp
  rw [hlist', isChain_append_cons_cons]
  have hax' : a ≠ x := fun hc => hxA (by simp [hc])
  have hbx : b ≠ x := fun hc => hxB (hc ▸ mem_cons_self)
  refine ⟨chain_unlink hA hxA hax hxb, ?_, chain_unlink hB hxB hax hxb⟩
  simp [Links.Joined, hax', hbx]

/-- A node is taken out, and the links of nodes of other lists are kept. -/
theorem del (hr : Linked L h (l₁ ++ x :: l₂)) (hthere : ∀ y ∈ h :: (l₁ ++ x :: l₂), there y = true) :
    ∃ L', L.del there x = some L' ∧ Linked L' h (l₁ ++ l₂) ∧
      ∀ y, y ∉ h :: (l₁ ++ x :: l₂) → L'.next y = L.next y ∧ L'.prev y = L.prev y := by
  obtain ⟨A, a, ha⟩ := exists_last h l₁
  obtain ⟨b, B, hb⟩ : ∃ b B, l₂ ++ [h] = b :: B := exists_cons_of_ne_nil (by simp)
  obtain ⟨hax, hxb, -, hlinked⟩ := hr.unlink ha hb
  have hout : ∀ y, y ∉ h :: (l₁ ++ x :: l₂) → y ≠ x ∧ y ≠ a ∧ y ≠ b := by
    intro y hy
    rw [← cons_append, List.perm_middle.mem_iff, mem_cons, not_or] at hy
    obtain ⟨hyA, hyB⟩ := not_mem_sides hy.2 ha hb
    exact ⟨hy.1, fun hc => hyA (by simp [hc]), fun hc => hyB (by simp [hc])⟩
  have hmem_a : a ∈ h :: (l₁ ++ x :: l₂) := by_contra fun hc => (hout a hc).2.1 rfl
  have hmem_b : b ∈ h :: (l₁ ++ x :: l₂) := by_contra fun hc => (hout b hc).2.2 rfl
  refine ⟨L.unlink x a b, ?_, hlinked, fun y hy => ?_⟩
  · unfold Links.del
    rw [hax.2, bind_some, hxb.1, bind_some, hthere x (by simp), hthere a hmem_a, hthere b hmem_b]
    rfl
  · obtain ⟨hyx, hya, hyb⟩ := hout y hy
    simp [hyx, hya, hyb]

variable {there} in
private theorem walk_eq (hchain : (x :: l ++ [h]).IsChain L.Joined) (hx : x ≠ h) (hh : h ∉ l)
    (hthere : ∀ y ∈ x :: l, there y = true) (hfuel : l.length + 1 < fuel) : L.walk there h fuel x = some (x :: l) := by
  induction l generalizing x fuel with
  | nil =>
    obtain ⟨fuel, rfl⟩ : ∃ n, fuel = n + 2 := ⟨fuel - 2, by simp at hfuel; omega⟩
    have hj : L.Joined x h := by simpa using hchain
    unfold Links.walk
    rw [if_neg hx, if_pos (hthere x (by simp)), hj.1, bind_some]
    unfold Links.walk
    rw [if_pos rfl]
    rfl
  | cons y l ih =>
    obtain _ | fuel := fuel
    · omega
    simp only [mem_cons, not_or] at hh
    rw [cons_append, cons_append, isChain_cons_cons] at hchain
    obtain ⟨hj, hrest⟩ := hchain
    have hrec := ih hrest (Ne.symm hh.1) hh.2 (fun z hz => hthere z (mem_cons_of_mem _ hz))
      (by simp at hfuel; omega : l.length + 1 < fuel)
    unfold Links.walk
    rw [if_neg hx, if_pos (hthere x (by simp)), hj.1, bind_some, hrec]
    rfl

/-- The walk visits the nodes in order. -/
theorem forEach (hr : Linked L h l) (hthere : ∀ y ∈ h :: l, there y = true) (hfuel : l.length < fuel) :
    L.forEach there fuel h = some l := by
  obtain ⟨hh, hnd⟩ := nodup_cons.1 hr.nodup
  have hchain := hr.chain
  unfold Links.forEach
  rw [if_pos (hthere h (by simp))]
  cases l with
  | nil =>
    obtain _ | fuel := fuel
    · omega
    have hj : L.Joined h h := by simpa using hchain
    rw [hj.1, bind_some]
    unfold Links.walk
    rw [if_pos rfl]
  | cons x l =>
    simp only [mem_cons, not_or] at hh
    rw [cons_append, cons_append, isChain_cons_cons] at hchain
    rw [hchain.1.1, bind_some]
    refine walk_eq hchain.2 (Ne.symm hh.1) hh.2 (fun y hy => hthere y (mem_cons_of_mem _ hy)) ?_
    exact hfuel

end Linked

end Adix
