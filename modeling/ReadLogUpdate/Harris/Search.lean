import ReadLogUpdate.Harris.Hazard

/-!
# The search from any list

`harris_list_search` run alone from a list that no run of the calls need have built: sorted, with
any of its inner nodes marked.
-/

namespace ReadLogUpdate.Harris

open Chain

def Heap.Reached (h : Heap) (list : ListT) : Nat → Prop := Path h.next list.pMax list.pHead

/-- A list that is strictly sorted from the min to the max sentinel, with the sentinels unmarked. -/
structure Heap.IsList (h : Heap) (list : ListT) : Prop where
  sorted : ∀ a, h.Reached list a → a ≠ list.pMax → h.val a < h.val (h.next a)
  ends : h.Reached list list.pMax
  nonnull : ¬ h.Reached list 0
  maxNext : h.pNext list.pMax = null
  headLive : ¬ h.dead list.pHead
  headVal : h.val list.pHead = listValMin
  maxVal : h.val list.pMax = listValMax

def Heap.keys (h : Heap) (list : ListT) : Set Int :=
  {v | ∃ a, h.Reached list a ∧ ¬ h.dead a ∧ h.val a = v}

structure Heap.IsRight (h : Heap) (list : ListT) (v : Int) (b : Nat) : Prop where
  reached : h.Reached list b
  live : ¬ h.dead b
  le : v ≤ h.val b
  first : ∀ a, h.Reached list a → ¬ h.dead a → v ≤ h.val a → h.val b ≤ h.val a

structure Heap.IsLeft (h : Heap) (list : ListT) (v : Int) (a : Nat) : Prop where
  reached : h.Reached list a
  live : ¬ h.dead a
  below : h.val a < v
  last : ∀ b, h.Reached list b → ¬ h.dead b → h.val b < v → h.val b ≤ h.val a

section Any
variable {list : ListT} {h : Heap} {v : Int}

theorem Heap.IsList.key_le (isList : h.IsList list) {a b : Nat} (reached : h.Reached list a)
    (path : Path h.next list.pMax a b) : h.val a ≤ h.val b := by
  induction path with
  | refl => exact le_rfl
  | @tail b c path edge ih =>
    obtain ⟨outer, rfl⟩ := edge
    exact ih.trans (isList.sorted b (reached.trans path) outer).le

theorem Heap.IsList.to_max (isList : h.IsList list) {a : Nat} (reached : h.Reached list a) :
    Path h.next list.pMax a list.pMax := by
  rcases reached.total isList.ends with path | path
  · exact path
  · rcases path.cases with rfl | ⟨outer, -⟩
    · exact .refl _
    · exact absurd rfl outer

open Classical in
noncomputable def Heap.quiet (h : Heap) (list : ListT) : State where
  heap := h
  used := fun a => a ≠ 0
  linked := fun a => decide (h.Reached list a)
  thread := fun _ => .idle

theorem Heap.quiet_linked {a : Nat} : (h.quiet list).Linked a ↔ h.Reached list a := by
  unfold State.Linked Heap.quiet
  exact @decide_eq_true_iff _ (Classical.propDecidable _)

theorem Heap.IsList.sortedChain (isList : h.IsList list) :
    Sorted h.next (h.quiet list).Linked list.pMax h.val := by
  refine ⟨fun a here outer => ?_, fun a here outer => ?_, fun a here => ?_⟩
  · exact Heap.quiet_linked.mpr ((Heap.quiet_linked.mp here).tail ⟨outer, rfl⟩)
  · exact isList.sorted a (Heap.quiet_linked.mp here) outer
  · have reached := Heap.quiet_linked.mp here
    exact isList.key_le reached (isList.to_max reached)

theorem Heap.IsList.shape (isList : h.IsList list) : Shape list (h.quiet list) := by
  have head : (h.quiet list).Linked list.pHead := Heap.quiet_linked.mpr (.refl _)
  have chain := isList.sortedChain
  refine ⟨head, Heap.quiet_linked.mpr isList.ends, fun a here => ?_, by simp [Heap.quiet], isList.maxNext,
    isList.headVal, isList.maxVal, fun a here inner => ?_, fun a here outer => ?_, chain,
    isList.headLive, fun a here _ => Heap.quiet_linked.mp here⟩
  · refine decide_eq_true fun isNull => isList.nonnull ?_
    rw [← isNull]
    exact Heap.quiet_linked.mp here
  · rw [← isList.headVal]
    exact (chain.path head (Heap.quiet_linked.mp here)).2.resolve_left (Ne.symm inner)
  · have reached := Heap.quiet_linked.mp here
    have up := isList.sorted a reached outer
    have there := reached.tail ⟨outer, rfl⟩
    rw [← isList.maxVal]
    exact up.trans_le (isList.key_le there (isList.to_max there))

/-- What the search leaves: the marked nodes behind the left one are unlinked. -/
theorem Stopped.cleaned_pNext {l : Locals} (stop : Stopped .harris list v (h.quiet list) l) :
    (l.cleaned .harris h).pNext = Function.update h.pNext l.leftNode (ref l.t) := by
  unfold Locals.cleaned
  split_ifs with adjacent
  · have expected : h.pNext l.leftNode = ref l.leftNodeNext := stop.expected
    rw [← adjacent, ← expected, Function.update_eq_self]
  · rfl

theorem Stopped.cleaned_dead {l : Locals} (stop : Stopped .harris list v (h.quiet list) l) (a : Nat) :
    (l.cleaned .harris h).dead a ↔ h.dead a := by
  unfold Heap.dead
  rw [stop.cleaned_pNext]
  by_cases eq : a = l.leftNode
  · subst eq
    rw [Function.update_self]
    exact ⟨by rintro ⟨⟩, fun gone => absurd gone stop.live⟩
  · rw [Function.update_of_ne eq]

theorem Locals.cleaned_val {l : Locals} {x : Variant} : (l.cleaned x h).val = h.val := by
  unfold Locals.cleaned
  split_ifs <;> rfl

theorem Stopped.cleaned_next {l : Locals} (stop : Stopped .harris list v (h.quiet list) l) :
    (l.cleaned .harris h).next = Function.update h.next l.leftNode l.t := by
  funext a
  unfold Heap.next
  rw [stop.cleaned_pNext]
  by_cases eq : a = l.leftNode
  · rw [eq, Function.update_self, Function.update_self]
    rfl
  · rw [Function.update_of_ne eq, Function.update_of_ne eq]

/-- The search keeps the unmarked nodes on the list, and puts none on it. -/
theorem Stopped.cleaned_keys {l : Locals} (stop : Stopped .harris list v (h.quiet list) l) :
    (l.cleaned .harris h).keys list = h.keys list := by
  have run : Run h.next h.dead (h.next l.leftNode) l.t := by
    have next : h.next l.leftNode = l.leftNodeNext := stop.next
    rw [next]
    exact stop.frozen
  have back {a : Nat} (reached : (l.cleaned .harris h).Reached list a) : h.Reached list a := by
    unfold Heap.Reached at reached
    rw [stop.cleaned_next] at reached
    induction reached with
    | refl => exact .refl _
    | @tail a b _ edge ih =>
      obtain ⟨outer, rfl⟩ := edge
      by_cases eq : a = l.leftNode
      · rw [eq, Function.update_self]
        exact stop.reached
      · rw [Function.update_of_ne eq]
        exact ih.tail ⟨outer, rfl⟩
  ext w
  constructor
  · rintro ⟨a, reached, live, rfl⟩
    exact ⟨a, back reached, (stop.cleaned_dead a).not.mp live, by rw [Locals.cleaned_val]⟩
  · rintro ⟨a, reached, live, rfl⟩
    refine ⟨a, ?_, (stop.cleaned_dead a).not.mpr live, by rw [Locals.cleaned_val]⟩
    unfold Heap.Reached
    rw [stop.cleaned_next]
    exact reached.unlink live stop.live run

theorem Stopped.right (isList : h.IsList list) (lo : listValMin < v) {l : Locals}
    (stop : Stopped .harris list v (h.quiet list) l) : h.IsRight list v l.t := by
  refine ⟨stop.reached, stop.unmarked, stop.le, fun a reached live le => not_lt.mp fun below => ?_⟩
  have inner : a ≠ list.pHead := by
    rintro rfl
    rw [isList.headVal] at le
    exact absurd lo le.not_gt
  rcases stop.passed a reached inner below with gone | lt
  · exact live gone
  · exact absurd le lt.not_ge

theorem Stopped.left (isList : h.IsList list) {l : Locals}
    (stop : Stopped .harris list v (h.quiet list) l) : h.IsLeft list v l.leftNode := by
  refine ⟨stop.found, stop.live, stop.below, fun b reached live lt => not_lt.mp fun above => live ?_⟩
  exact stop.between isList.shape reached above (lt.trans_le stop.le)

end Any

/-- From any such list `harris_list_search` alone terminates, with the first unmarked node from the
key on and the last unmarked one before it; it stores into the left node alone, which leads to the
right one, and it changes no mark and not the keys of the unmarked nodes. -/
theorem harris_list_search_alone (list : ListT) (h : Heap) (isList : h.IsList list) (v : Int)
    (lo : listValMin < v) (hi : v < listValMax) (left : Nat) : ∃ n h' l,
    (searchAlone .harris list v)^[n] (h, .inl (.start (.enter list left))) = (h', .inr l) ∧
    h.IsRight list v l.t ∧ h.IsLeft list v l.leftNode ∧ h'.pNext l.leftNode = ref l.t ∧
    (∀ a, a ≠ l.leftNode → h'.pNext a = h.pNext a) ∧ h'.val = h.val ∧
    (∀ a, h'.dead a ↔ h.dead a) ∧ h'.keys list = h.keys list := by
  have shape := isList.shape
  obtain ⟨n, l, stop, scan⟩ :=
    search_stops (x := .harris) (l := .enter list left) shape lo hi (by rintro ⟨⟩)
  obtain ⟨m, rest⟩ := stop.returns fun _ => rfl
  refine ⟨m + (n + 1), l.cleaned .harris h, l, ?_, stop.right isList lo, stop.left isList, ?_,
    fun a ne => ?_, Locals.cleaned_val, stop.cleaned_dead, stop.cleaned_keys⟩
  · rw [Function.iterate_add_apply]
    exact (congrArg _ scan).trans rest
  · rw [stop.cleaned_pNext, Function.update_self]
  · rw [stop.cleaned_pNext, Function.update_of_ne ne]

/-- The list of the keys 5 and 7, whose node for 7 is marked. -/
def markedHeap : Heap where
  val := fun a => if a = 1 then listValMin else if a = 3 then 5 else if a = 4 then 7 else listValMax
  pNext := fun a =>
    if a = 1 then ref 3 else if a = 3 then ref 4 else if a = 4 then ⟨2, true⟩ else null

theorem markedHeap_nodes {a : Nat} (reached : markedHeap.Reached emptyList a) :
    a = 1 ∨ a = 3 ∨ a = 4 ∨ a = 2 := by
  induction reached with
  | refl => exact .inl rfl
  | @tail a b _ edge ih =>
    obtain ⟨outer, rfl⟩ := edge
    rcases ih with rfl | rfl | rfl | rfl
    · exact .inr (.inl rfl)
    · exact .inr (.inr (.inl rfl))
    · exact .inr (.inr (.inr rfl))
    · exact absurd rfl outer

theorem markedHeap_isList : markedHeap.IsList emptyList where
  sorted := by
    intro a reached outer
    rcases markedHeap_nodes reached with rfl | rfl | rfl | rfl
    · decide
    · decide
    · decide
    · exact absurd rfl outer
  ends := by
    refine .head (by decide) (show Path _ _ 3 2 from ?_)
    refine .head (by decide) (show Path _ _ 4 2 from ?_)
    exact .head (by decide) (show Path _ _ 2 2 from .refl 2)
  nonnull := fun reached => absurd (markedHeap_nodes reached) (by decide)
  maxNext := rfl
  headLive := Bool.false_ne_true
  headVal := rfl
  maxVal := rfl

theorem harris_list_search_alone_marked : ∃ n h' l,
    (searchAlone .harris emptyList 9)^[n] (markedHeap, .inl (.start (.enter emptyList 0))) =
      (h', .inr l) ∧
    markedHeap.IsRight emptyList 9 l.t ∧ markedHeap.IsLeft emptyList 9 l.leftNode ∧
    h'.pNext l.leftNode = ref l.t ∧ h'.keys emptyList = markedHeap.keys emptyList := by
  obtain ⟨n, h', l, run, right, left, links, -, -, -, keys⟩ :=
    harris_list_search_alone emptyList markedHeap markedHeap_isList 9 (by decide) (by decide) 0
  exact ⟨n, h', l, run, right, left, links, keys⟩

end ReadLogUpdate.Harris
