import Adix.Lib.Linked
import Adix.Lib.Runs

/-!
# Intrusive lists (`include/sys/list.h`)

A `struct list_head` is a part of each object on a list, and the head of the list is one by itself. The lists of the
kernel share one memory, where the writes of an operation may be to one node or to two: in an empty list the head is
its own neighbour.
-/

namespace Adix.Intrusive

open List Function

abbrev Ptr := BitVec 64

structure ListHead where
  next : Ptr
  prev : Ptr

abbrev Heap := Ptr → ListHead

def setNext (m : Heap) (p v : Ptr) : Heap := update m p { m p with next := v }

def setPrev (m : Heap) (p v : Ptr) : Heap := update m p { m p with prev := v }

/-- `__list_add`. -/
def rawListAdd (m : Heap) (new prev next : Ptr) : Heap :=
  let m := setPrev m next new
  let m := setNext m new next
  let m := setPrev m new prev
  setNext m prev new

def listAdd (m : Heap) (new head : Ptr) : Heap := rawListAdd m new head (m head).next

def listAddTail (m : Heap) (new head : Ptr) : Heap := rawListAdd m new (m head).prev head

/-- `__list_del`. -/
def rawListDel (m : Heap) (prev next : Ptr) : Heap :=
  let m := setPrev m next prev
  setNext m prev next

def listDel (m : Heap) (entry : Ptr) : Heap :=
  let m := rawListDel m (m entry).prev (m entry).next
  let m := setNext m entry 0
  setPrev m entry 0

def listEmpty (m : Heap) (head : Ptr) : Bool := (m head).next == head

/-- The nodes that `list_for_each` visits from `pos` on; `none` when the loop is not left after `n` tests of its
condition. -/
def listForEach (m : Heap) (head : Ptr) : Nat → Ptr → Option (List Ptr)
  | 0, _ => none
  | n + 1, pos => if pos = head then some [] else (listForEach m head n (m pos).next).map (pos :: ·)

/-- For each head the nodes on its list, in their order. -/
abbrev Lists := Ptr → Option (List Ptr)

def links (m : Heap) : Links Ptr := ⟨fun p => some (m p).next, fun p => some (m p).prev⟩

/-- These lists are in memory, whatever their number: the nodes of a list are linked in a circle, in both directions,
and no node is on two lists. -/
structure Holds (m : Heap) (lists : Lists) : Prop where
  linked : ∀ {h l}, lists h = some l → Linked (links m) h l
  apart : ∀ {h l h' l'}, lists h = some l → lists h' = some l' → h ≠ h' → ∀ y ∈ h :: l, y ∉ h' :: l'

/-- The node is on no list, and no head of one. -/
def Unlinked (lists : Lists) (x : Ptr) : Prop := ∀ h l, lists h = some l → x ∉ h :: l

/-- `next` and `prev` are inverse to each other at the node. -/
def Inverse (m : Heap) (y : Ptr) : Prop := (m (m y).next).prev = y ∧ (m (m y).prev).next = y

/-- What is expected of the memory: the lists are there, `next` and `prev` are inverse on them, `list_for_each` visits
their nodes in order, and `list_empty` tells which have none. -/
structure InOrder (m : Heap) (lists : Lists) : Prop extends Holds m lists where
  inverse : ∀ h l, lists h = some l → ∀ y ∈ h :: l, Inverse m y
  visits : ∀ h l, lists h = some l → listForEach m h (l.length + 1) (m h).next = some l
  empty : ∀ h l, lists h = some l → (listEmpty m h = true ↔ l = [])

variable {m m' : Heap} {lists : Lists} {h x y : Ptr} {l l' l₁ l₂ : List Ptr}

private theorem joined_iff {a b : Ptr} : (links m).Joined a b ↔ (m a).next = b ∧ (m b).prev = a := by
  simp [Links.Joined, links]

/-- `list_empty` tells if a list has nodes. -/
private theorem listEmpty_iff (hl : Linked (links m) h l) : listEmpty m h = true ↔ l = [] := by
  rw [listEmpty, beq_iff_eq]
  have hchain := hl.chain
  cases l with
  | nil =>
    rw [singleton_append, isChain_pair, joined_iff] at hchain
    exact iff_of_true hchain.1 rfl
  | cons x l =>
    rw [List.cons_append, List.cons_append, isChain_cons_cons, joined_iff] at hchain
    refine iff_of_false (fun hc => ?_) (cons_ne_nil x l)
    rw [← hchain.1.1, hc] at hl
    exact (nodup_cons.1 hl.nodup).1 mem_cons_self

private theorem inverse_of_linked (hl : Linked (links m) h l) (hy : y ∈ h :: l) : Inverse m y := by
  obtain ⟨⟨b, hb⟩, a, ha⟩ := hl.joined hy
  rw [joined_iff] at ha hb
  rw [Inverse, hb.1, ha.2]
  exact ⟨hb.2, ha.1⟩

private theorem listForEach_eq_walk (m : Heap) (n : Nat) (pos : Ptr) :
    listForEach m h n pos = (links m).walk (fun _ => true) h n pos := by
  induction n generalizing pos with
  | zero => rfl
  | succ n ih =>
    rw [listForEach, ih, Links.walk]
    rfl

private theorem Holds.inOrder (hm : Holds m lists) : InOrder m lists where
  toHolds := hm
  inverse _ _ hl _ hy := inverse_of_linked (hm.linked hl) hy
  visits h l hl := by
    rw [listForEach_eq_walk]
    exact (hm.linked hl).forEach (fun _ => true) (fun _ _ => rfl) (Nat.lt_succ_self _)
  empty _ _ hl := listEmpty_iff (hm.linked hl)

private theorem Holds.change (hm : Holds m lists) (hl : lists h = some l) (hnew : Linked (links m') h l')
    (hsub : ∀ y ∈ l', y ∈ h :: l ∨ Unlinked lists y)
    (hframe : ∀ y, y ∉ h :: l → ¬ Unlinked lists y → m' y = m y) : Holds m' (update lists h (some l')) := by
  have hother : ∀ {h1 l₁}, lists h1 = some l₁ → h1 ≠ h → ∀ y ∈ h1 :: l₁, y ∉ h :: l' := by
    intro h1 l₁ hl1 hne y hy hy'
    have hy1 := hm.apart hl1 hl hne y hy
    rcases mem_cons.1 hy' with rfl | hy'
    · exact hy1 mem_cons_self
    · rcases hsub y hy' with hy' | hy'
      · exact hy1 hy'
      · exact hy' h1 l₁ hl1 hy
  constructor
  · intro h1 l₁ hl1
    by_cases hh : h1 = h
    · subst hh
      rw [update_self] at hl1
      cases hl1
      exact hnew
    · rw [update_of_ne hh] at hl1
      refine (hm.linked hl1).congr fun y hy => ?_
      have hsame : m' y = m y := hframe y (hm.apart hl1 hl hh y hy) fun hu => hu h1 l₁ hl1 hy
      simp [links, hsame]
  · intro h1 l₁ h2 l₂ hl1 hl2 hne y hy
    by_cases hh1 : h1 = h
    · subst hh1
      rw [update_self] at hl1
      rw [update_of_ne (Ne.symm hne)] at hl2
      cases hl1
      exact fun hy2 => hother hl2 (Ne.symm hne) y hy2 hy
    · rw [update_of_ne hh1] at hl1
      by_cases hh2 : h2 = h
      · subst hh2
        rw [update_self] at hl2
        cases hl2
        exact hother hl1 hh1 y hy
      · rw [update_of_ne hh2] at hl2
        exact hm.apart hl1 hl2 hne y hy

@[simp] private theorem next_setNext (m : Heap) (p v y : Ptr) :
    (setNext m p v y).next = if y = p then v else (m y).next := by
  unfold setNext
  rw [update_apply]
  split <;> simp [*]

@[simp] private theorem prev_setNext (m : Heap) (p v y : Ptr) : (setNext m p v y).prev = (m y).prev := by
  unfold setNext
  rw [update_apply]
  split <;> simp [*]

@[simp] private theorem next_setPrev (m : Heap) (p v y : Ptr) : (setPrev m p v y).next = (m y).next := by
  unfold setPrev
  rw [update_apply]
  split <;> simp [*]

@[simp] private theorem prev_setPrev (m : Heap) (p v y : Ptr) :
    (setPrev m p v y).prev = if y = p then v else (m y).prev := by
  unfold setPrev
  rw [update_apply]
  split <;> simp [*]

private theorem links_rawListAdd (m : Heap) (new prev next : Ptr) :
    links (rawListAdd m new prev next) = (links m).insert new prev next := by
  refine Links.ext (funext fun y => ?_) (funext fun y => ?_)
  · simp only [links, rawListAdd, next_setNext, next_setPrev, Links.next_insert]
    split_ifs <;> rfl
  · simp only [links, rawListAdd, prev_setNext, prev_setPrev, Links.prev_insert]
    split_ifs <;> rfl

private theorem rawListAdd_of_ne {new prev next : Ptr} (h1 : y ≠ new) (h2 : y ≠ prev) (h3 : y ≠ next) :
    rawListAdd m new prev next y = m y := by
  unfold rawListAdd setNext setPrev
  simp only [update_of_ne h1, update_of_ne h2, update_of_ne h3]

private theorem listDel_of_ne (h1 : y ≠ x) (h2 : y ≠ (m x).prev) (h3 : y ≠ (m x).next) : listDel m x y = m y := by
  unfold listDel rawListDel setNext setPrev
  simp only [update_of_ne h1, update_of_ne h2, update_of_ne h3]

private theorem Holds.add {A B : List Ptr} {a b : Ptr} (hm : Holds m lists) (hl : lists h = some (l₁ ++ l₂))
    (hx : Unlinked lists x) (ha : h :: l₁ = A ++ [a]) (hb : l₂ ++ [h] = b :: B) :
    ((m a).next = b ∧ (m b).prev = a) ∧ InOrder (rawListAdd m x a b) (update lists h (some (l₁ ++ x :: l₂))) ∧
      ∀ y, y ∉ x :: h :: (l₁ ++ l₂) → rawListAdd m x a b y = m y := by
  obtain ⟨hab, hlinked⟩ := (hm.linked hl).insert (hx h _ hl) ha hb
  rw [← links_rawListAdd] at hlinked
  have hframe : ∀ y, y ≠ x → y ∉ h :: (l₁ ++ l₂) → rawListAdd m x a b y = m y := by
    intro y hyx hy
    obtain ⟨hyA, hyB⟩ := Linked.not_mem_sides hy ha hb
    exact rawListAdd_of_ne hyx (fun hc => hyA (by simp [hc])) fun hc => hyB (by simp [hc])
  refine ⟨joined_iff.1 hab, (hm.change hl hlinked (fun y hy => ?_) fun y hy hyu => ?_).inOrder, fun y hy => ?_⟩
  · rw [List.perm_middle.mem_iff, mem_cons] at hy
    rcases hy with rfl | hy
    · exact .inr hx
    · exact .inl (mem_cons_of_mem h hy)
  · exact hframe y (fun hc => hyu (hc ▸ hx)) hy
  · rw [mem_cons, not_or] at hy
    exact hframe y hy.1 hy.2

private theorem Holds.del (hm : Holds m lists) (hl : lists h = some (l₁ ++ x :: l₂)) :
    InOrder (listDel m x) (update lists h (some (l₁ ++ l₂))) ∧ Unlinked (update lists h (some (l₁ ++ l₂))) x ∧
      ∀ y, y ∉ h :: (l₁ ++ x :: l₂) → listDel m x y = m y := by
  obtain ⟨A, a, ha⟩ := Linked.exists_last h l₁
  obtain ⟨b, B, hb⟩ : ∃ b B, l₂ ++ [h] = b :: B := exists_cons_of_ne_nil (by simp)
  obtain ⟨hax, hxb, hx, hlinked⟩ := (hm.linked hl).unlink ha hb
  rw [joined_iff] at hax hxb
  have hframe : ∀ y, y ∉ h :: (l₁ ++ x :: l₂) → listDel m x y = m y := by
    intro y hy
    rw [← List.cons_append, List.perm_middle.mem_iff, mem_cons, not_or] at hy
    obtain ⟨hyA, hyB⟩ := Linked.not_mem_sides hy.2 ha hb
    exact listDel_of_ne hy.1 (fun hc => hyA (by simp [hc, hax.2])) fun hc => hyB (by simp [hc, hxb.1])
  have hlinked' : Linked (links (listDel m x)) h (l₁ ++ l₂) := by
    refine hlinked.congr fun y hy => ?_
    have hyx : y ≠ x := fun hc => hx (hc ▸ hy)
    simp only [links, listDel, rawListDel, next_setPrev, next_setNext, prev_setPrev, prev_setNext, Links.next_unlink,
      Links.prev_unlink, if_neg hyx, hax.2, hxb.1]
    constructor <;> split <;> rfl
  have hsub : ∀ y ∈ l₁ ++ l₂, y ∈ h :: (l₁ ++ x :: l₂) := by
    intro y hy
    rw [← List.cons_append, List.perm_middle.mem_iff]
    exact mem_cons_of_mem x (mem_cons_of_mem h hy)
  refine ⟨(hm.change hl hlinked' (fun y hy => .inl (hsub y hy)) fun y hy _ => hframe y hy).inOrder, ?_, hframe⟩
  intro h1 l hl1
  by_cases hh : h1 = h
  · subst hh
    rw [update_self] at hl1
    cases hl1
    exact hx
  · rw [update_of_ne hh] at hl1
    refine hm.apart hl hl1 (Ne.symm hh) x ?_
    simp

/-- The primitives on intrusive lists, for the list with the head `h` among any others. -/
theorem list_primitives (m : Heap) (lists : Lists) (hm : Holds m lists) (h : Ptr) (l : List Ptr)
    (hl : lists h = some l) : (listEmpty m h = true ↔ l = []) ∧
    (∀ x, Unlinked lists x → InOrder (listAdd m x h) (update lists h (some (x :: l))) ∧
      ∀ y, y ∉ x :: h :: l → listAdd m x h y = m y) ∧
    (∀ x, Unlinked lists x → InOrder (listAddTail m x h) (update lists h (some (l ++ [x]))) ∧
      ∀ y, y ∉ x :: h :: l → listAddTail m x h y = m y) ∧
    ∀ l₁ x l₂, l = l₁ ++ x :: l₂ → InOrder (listDel m x) (update lists h (some (l₁ ++ l₂))) ∧
      Unlinked (update lists h (some (l₁ ++ l₂))) x ∧ ∀ y, y ∉ h :: l → listDel m x y = m y := by
  refine ⟨listEmpty_iff (hm.linked hl), fun x hx => ?_, fun x hx => ?_, ?_⟩
  · obtain ⟨b, B, hb⟩ : ∃ b B, l ++ [h] = b :: B := exists_cons_of_ne_nil (by simp)
    obtain ⟨⟨hnext, -⟩, hadd⟩ := @Holds.add m lists h x [] l [] B h b hm hl hx rfl hb
    rwa [← hnext] at hadd
  · obtain ⟨A, a, ha⟩ := Linked.exists_last h l
    obtain ⟨⟨-, hprev⟩, hadd⟩ := @Holds.add m lists h x l [] A [] a h hm (by rwa [append_nil]) hx ha rfl
    rwa [← hprev, append_nil] at hadd
  · rintro l₁ x l₂ rfl
    exact hm.del hl

def twoLists : Lists :=
  fun h => if h = 0x1000 then some [0x3000, 0x4000] else if h = 0x2000 then some [0x5000] else none

def twoListsMem : Heap := fun p =>
  if p = 0x1000 then ⟨0x3000, 0x4000⟩ else if p = 0x3000 then ⟨0x4000, 0x1000⟩ else if p = 0x4000 then ⟨0x1000, 0x3000⟩
  else if p = 0x2000 then ⟨0x5000, 0x5000⟩ else ⟨0x2000, 0x2000⟩

private theorem twoLists_cases (hl : twoLists h = some l) :
    h = 0x1000 ∧ l = [0x3000, 0x4000] ∨ h = 0x2000 ∧ l = [0x5000] := by
  unfold twoLists at hl
  split at hl
  · next hh => exact .inl ⟨hh, (Option.some.inj hl).symm⟩
  split at hl
  · next hh => exact .inr ⟨hh, (Option.some.inj hl).symm⟩
  · cases hl

theorem list_primitives_two : listEmpty twoListsMem 0x1000 = false ∧
    InOrder (listDel twoListsMem 0x3000) (update twoLists 0x1000 (some [0x4000])) ∧
    listDel twoListsMem 0x3000 0x5000 = twoListsMem 0x5000 ∧
    InOrder (listAddTail twoListsMem 0x6000 0x2000) (update twoLists 0x2000 (some [0x5000, 0x6000])) := by
  have hm : Holds twoListsMem twoLists := by
    refine ⟨fun {h l} hl => ?_, fun {h l h' l'} hl hl' hne => ?_⟩
    · rcases twoLists_cases hl with ⟨rfl, rfl⟩ | ⟨rfl, rfl⟩ <;>
        exact ⟨by decide, by simp [Links.Joined, links, twoListsMem]⟩
    · rcases twoLists_cases hl with ⟨rfl, rfl⟩ | ⟨rfl, rfl⟩ <;> rcases twoLists_cases hl' with ⟨rfl, rfl⟩ | ⟨rfl, rfl⟩
      · exact absurd rfl hne
      · simp
      · simp
      · exact absurd rfl hne
  have hx : Unlinked twoLists 0x6000 := by
    intro h l hl
    rcases twoLists_cases hl with ⟨rfl, rfl⟩ | ⟨rfl, rfl⟩ <;> decide
  obtain ⟨hempty, -, -, hdel⟩ := list_primitives _ twoLists hm 0x1000 [0x3000, 0x4000] rfl
  obtain ⟨hd, -, hframe⟩ := hdel [] 0x3000 [0x4000] rfl
  refine ⟨?_, hd, hframe 0x5000 (by decide), ((list_primitives _ twoLists hm 0x2000 [0x5000] rfl).2.2.1 0x6000 hx).1⟩
  rw [← Bool.not_eq_true, hempty]
  exact cons_ne_nil _ _

/-- What the kernel does with lists; `LIST_HEAD_INIT` makes an empty one. -/
inductive Op where
  | init (h : Ptr)
  | add (x h : Ptr)
  | addTail (x h : Ptr)
  | del (x : Ptr)

/-- The memory and the lists that should be there; `list_del` is not told on which list the node is. -/
def step (s : Heap × Lists) : Op → Option (Heap × Lists)
  | .init h => some (update s.1 h ⟨h, h⟩, update s.2 h (some []))
  | .add x h => some (listAdd s.1 x h, update s.2 h ((s.2 h).map (x :: ·)))
  | .addTail x h => some (listAddTail s.1 x h, update s.2 h ((s.2 h).map (· ++ [x])))
  | .del x => some (listDel s.1 x, fun h => (s.2 h).map (·.erase x))

def OpOk (s : Heap × Lists) : Op → Prop
  | .init h => Unlinked s.2 h
  | .add x h | .addTail x h => (∃ l, s.2 h = some l) ∧ Unlinked s.2 x
  | .del x => ∃ h l, s.2 h = some l ∧ x ∈ l

private theorem Holds.init (hm : Holds m lists) (hh : Unlinked lists h) :
    Holds (update m h ⟨h, h⟩) (update lists h (some [])) := by
  have hcases : ∀ {h1 l}, update lists h (some []) h1 = some l →
      h1 = h ∧ l = [] ∨ lists h1 = some l ∧ ∀ y ∈ h1 :: l, y ≠ h := by
    intro h1 l hl
    rw [update_apply] at hl
    split at hl
    · next hc => exact .inl ⟨hc, (Option.some.inj hl).symm⟩
    · exact .inr ⟨hl, fun y hy hc => hh _ _ hl (hc ▸ hy)⟩
  constructor
  · intro h1 l hl
    rcases hcases hl with ⟨rfl, rfl⟩ | ⟨hl, hne⟩
    · exact ⟨by simp, by simp [Links.Joined, links]⟩
    · exact (hm.linked hl).congr fun y hy => by simp [links, update_of_ne (hne y hy)]
  · intro h1 l h2 l' hl hl' hc y hy hy'
    rcases hcases hl with ⟨rfl, rfl⟩ | ⟨hl, hne⟩ <;> rcases hcases hl' with ⟨rfl, rfl⟩ | ⟨hl', hne'⟩
    · exact hc rfl
    · exact hne' y hy' (mem_singleton.1 hy)
    · exact hne y hy (mem_singleton.1 hy')
    · exact hm.apart hl hl' hc y hy hy'

private theorem Holds.erase (hm : Holds m lists) (hl : lists h = some (l₁ ++ x :: l₂)) :
    (fun h => (lists h).map (·.erase x)) = update lists h (some (l₁ ++ l₂)) := by
  funext h1
  by_cases hh : h1 = h
  · subst hh
    -- the node is on its list once, so the first one found is the one deleted
    have hx : x ∉ l₁ := fun hc => (nodup_append.1 (nodup_cons.1 (hm.linked hl).nodup).2).2.2 x hc x mem_cons_self rfl
    rw [update_self, hl, Option.map_some, erase_append_right _ hx, erase_cons_head]
  · rw [update_of_ne hh]
    cases hl1 : lists h1 with
    | none => rfl
    | some l =>
      have hx : x ∉ h1 :: l := hm.apart hl hl1 (Ne.symm hh) x (by simp)
      rw [Option.map_some, erase_of_not_mem fun hc => hx (mem_cons_of_mem h1 hc)]

/-- Each operation changes one list, and leaves the nodes of all others as they are. -/
private theorem step_holds (s : Heap × Lists) (op : Op) (hm : Holds s.1 s.2) (hok : OpOk s op) :
    ∃ s', step s op = some s' ∧ Holds s'.1 s'.2 := by
  cases op with
  | init h => exact ⟨_, rfl, hm.init hok⟩
  | add x h =>
    obtain ⟨⟨l, hl⟩, hx⟩ := hok
    obtain ⟨b, B, hb⟩ : ∃ b B, l ++ [h] = b :: B := exists_cons_of_ne_nil (by simp)
    obtain ⟨⟨hnext, -⟩, hadd, -⟩ := @Holds.add _ _ h x [] l [] B h b hm hl hx rfl hb
    rw [← hnext] at hadd
    exact ⟨_, rfl, by dsimp only; rw [hl]; exact hadd.toHolds⟩
  | addTail x h =>
    obtain ⟨⟨l, hl⟩, hx⟩ := hok
    obtain ⟨A, a, ha⟩ := Linked.exists_last h l
    obtain ⟨⟨-, hprev⟩, hadd, -⟩ := @Holds.add _ _ h x l [] A [] a h hm (by rwa [append_nil]) hx ha rfl
    rw [← hprev] at hadd
    exact ⟨_, rfl, by dsimp only; rw [hl]; exact hadd.toHolds⟩
  | del x =>
    obtain ⟨h, l, hl, hx⟩ := hok
    obtain ⟨l₁, l₂, rfl⟩ := append_of_mem hx
    exact ⟨_, rfl, by simpa only [hm.erase hl] using (hm.del hl).1.toHolds⟩

/-- After every sequence of operations from when there is no list on, the lists that should be there are in memory and
in order. -/
theorem lists_in_order (m : Heap) (ops : List Op) (h : Permitted step OpOk (m, fun _ => none) ops) :
    ∃ s, run step (m, fun _ => none) ops = some s ∧ InOrder s.1 s.2 := by
  have hm : Holds m fun _ => none := ⟨fun hl => (by cases hl), fun hl => (by cases hl)⟩
  obtain ⟨s, hs, hm⟩ := run_invariant step_holds hm h
  exact ⟨s, hs, hm.inOrder⟩

theorem lists_in_order_once : ∃ s, run step (fun _ => ⟨0, 0⟩, fun _ => none) [.init 1, .addTail 2 1, .del 2] = some s ∧
    InOrder s.1 s.2 := by
  refine lists_in_order _ _ ⟨fun _ _ hl => (by cases hl), ?_⟩
  rintro _ ⟨⟩
  refine ⟨⟨⟨[], rfl⟩, fun h l hl => ?_⟩, ?_⟩
  · by_cases hh : h = 1
    · subst hh
      cases hl
      decide
    · dsimp only at hl
      rw [update_of_ne hh] at hl
      cases hl
  · rintro _ ⟨⟩
    exact ⟨⟨1, [2], rfl, by decide⟩, fun _ _ => trivial⟩

end Adix.Intrusive
