import Mathlib.Data.Int.Interval
import ReadLogUpdate.Harris.Step

/-!
# The shape of the list

Linked nodes form a sorted chain from each of them to the max sentinel, marked nodes keep their
`p_next`, and every unmarked one is reached from the head, whatever the order of the steps.
-/

namespace ReadLogUpdate.Harris

open Chain

def State.Linked (s : State) (a : Nat) : Prop := s.linked a = true

def Heap.Frozen (h : Heap) : Nat → Nat → Prop := Run h.next h.dead

structure Shape (list : ListT) (s : State) : Prop where
  head : s.Linked list.pHead
  max : s.Linked list.pMax
  used : ∀ a, s.Linked a → s.used a = true
  nonnull : s.used 0 = false
  maxNext : s.heap.pNext list.pMax = null
  headVal : s.heap.val list.pHead = listValMin
  maxVal : s.heap.val list.pMax = listValMax
  above : ∀ a, s.Linked a → a ≠ list.pHead → listValMin < s.heap.val a
  below : ∀ a, s.Linked a → a ≠ list.pMax → s.heap.val a < listValMax
  sorted : Sorted s.heap.next s.Linked list.pMax s.heap.val
  headLive : ¬ s.heap.dead list.pHead
  reached : ∀ a, s.Linked a → ¬ s.heap.dead a → s.Reached list a

inductive HeapStep (list : ListT) (s s' : State) : Prop
  | same (heap : s'.heap = s.heap) (used : s'.used = s.used) (linked : s'.linked = s.linked)
  | malloc (a : Nat) (v : Int) (r : Ref) (ne : a ≠ 0) (unused : s.used a = false)
      (heap : s'.heap = ⟨Function.update s.heap.val a v, Function.update s.heap.pNext a r⟩)
      (used : s'.used = Function.update s.used a true) (linked : s'.linked = s.linked)
  | link (a new : Nat) (here : s.Linked a) (live : ¬ s.heap.dead a) (outer : a ≠ list.pMax)
      (private_ : s.used new = true ∧ ¬ s.Linked new) (next : s.heap.pNext new = ref (s.heap.next a))
      (above : s.heap.val a < s.heap.val new) (below : s.heap.val new < s.heap.val (s.heap.next a))
      (heap : s'.heap = s.heap.setNext a (ref new)) (used : s'.used = s.used)
      (linked : s'.linked = Function.update s.linked new true)
  | mark (a : Nat) (here : s.Linked a) (live : ¬ s.heap.dead a) (inner : a ≠ list.pHead)
      (outer : a ≠ list.pMax) (heap : s'.heap = s.heap.setNext a ⟨s.heap.next a, true⟩)
      (used : s'.used = s.used) (linked : s'.linked = s.linked)
  | unlink (a c : Nat) (here : s.Linked a) (live : ¬ s.heap.dead a) (outer : a ≠ list.pMax)
      (run : s.heap.Frozen (s.heap.next a) c) (heap : s'.heap = s.heap.setNext a (ref c))
      (used : s'.used = s.used) (linked : s'.linked = s.linked)

structure Grows (s s' : State) : Prop where
  linked : ∀ a, s.Linked a → s'.Linked a
  used : ∀ a, s.used a = true → s'.used a = true
  val : ∀ a, s.used a = true → s'.heap.val a = s.heap.val a
  frozen : ∀ a, s.used a = true → s.heap.dead a → s'.heap.pNext a = s.heap.pNext a
  alone : ∀ a, s.used a = true → ¬ s.Linked a → s'.heap.pNext a = s.heap.pNext a

section Heap
variable {h : Heap} {a b : Nat} {r : Ref}

@[simp] theorem Heap.setNext_val : (h.setNext a r).val = h.val := rfl

theorem Heap.setNext_self : (h.setNext a r).pNext a = r := Function.update_self _ _ _

theorem Heap.setNext_of_ne (ne : b ≠ a) : (h.setNext a r).pNext b = h.pNext b :=
  Function.update_of_ne ne _ _

theorem Heap.setNext_next : (h.setNext a r).next = Function.update h.next a r.addr := by
  funext b
  unfold Heap.next
  by_cases eq : b = a
  · rw [eq, Heap.setNext_self, Function.update_self]
  · rw [Heap.setNext_of_ne eq, Function.update_of_ne eq]

theorem Heap.setNext_dead_self : (h.setNext a r).dead a ↔ r.marked = true := by
  unfold Heap.dead
  rw [Heap.setNext_self]

theorem Heap.setNext_dead_of_ne (ne : b ≠ a) : (h.setNext a r).dead b ↔ h.dead b := by
  unfold Heap.dead
  rw [Heap.setNext_of_ne ne]

end Heap

section Preserve
variable {list : ListT} {s s' : State}

theorem Shape.ne_zero (shape : Shape list s) {a : Nat} (here : s.Linked a) : a ≠ 0 := by
  rintro rfl
  have := shape.used 0 here
  rw [shape.nonnull] at this
  cases this

theorem Shape.eq_max (shape : Shape list s) {a : Nat} (here : s.Linked a)
    (isNull : s.heap.pNext a = null) : a = list.pMax := by
  by_contra outer
  refine shape.ne_zero (shape.sorted.next_linked a here outer) ?_
  show (s.heap.pNext a).addr = 0
  rw [isNull]
  rfl

theorem Shape.max_live (shape : Shape list s) : ¬ s.heap.dead list.pMax := by
  unfold Heap.dead
  rw [shape.maxNext]
  nofun

theorem Shape.outer_of_dead (shape : Shape list s) {a : Nat} (gone : s.heap.dead a) :
    a ≠ list.pMax := by
  rintro rfl
  exact shape.max_live gone

theorem Shape.of_run (shape : Shape list s) {a b : Nat} (run : s.heap.Frozen a b)
    (here : s.Linked a) : s.Linked b ∧ s.heap.val a ≤ s.heap.val b :=
  shape.sorted.linked_of_run (fun _ gone => shape.outer_of_dead gone) run here

theorem HeapStep.grows (step : HeapStep list s s') : Grows s s' := by
  have unchanged {a : Nat} {r : Ref} {b : Nat} (ne : b ≠ a) :
      (s.heap.setNext a r).pNext b = s.heap.pNext b := Heap.setNext_of_ne ne
  -- a store into a linked node that is not marked
  have store {a : Nat} {r : Ref} (here : s.Linked a) (live : ¬ s.heap.dead a)
      (heap : s'.heap = s.heap.setNext a r) (used : s'.used = s.used)
      (linked : ∀ b, s.Linked b → s'.Linked b) : Grows s s' := by
    refine ⟨linked, fun b => by rw [used]; exact id, fun b _ => by rw [heap]; rfl,
      fun b _ gone => ?_, fun b _ private_ => ?_⟩
    · rw [heap, unchanged (show b ≠ a by rintro rfl; exact live gone)]
    · rw [heap, unchanged (show b ≠ a by rintro rfl; exact private_ here)]
  cases step with
  | same heap used linked =>
    refine ⟨fun a => ?_, fun a => by rw [used]; exact id, fun a _ => by rw [heap],
      fun a _ _ => by rw [heap], fun a _ _ => by rw [heap]⟩
    unfold State.Linked
    rw [linked]
    exact id
  | malloc a v r ne unused heap used linked =>
    have other {b : Nat} (taken : s.used b = true) : b ≠ a := by
      rintro rfl
      rw [unused] at taken
      cases taken
    refine ⟨fun b => ?_, fun b taken => ?_, fun b taken => ?_, fun b taken _ => ?_,
      fun b taken _ => ?_⟩
    · unfold State.Linked
      rw [linked]
      exact id
    · rw [used, Function.update_of_ne (other taken)]
      exact taken
    · rw [heap]
      exact Function.update_of_ne (other taken) _ _
    · rw [heap]
      exact Function.update_of_ne (other taken) _ _
    · rw [heap]
      exact Function.update_of_ne (other taken) _ _
  | link a new here live outer private_ next above below heap used linked =>
    refine store here live heap used fun b there => ?_
    unfold State.Linked at *
    rw [linked]
    by_cases eq : b = new
    · rw [eq, Function.update_self]
    · rw [Function.update_of_ne eq]
      exact there
  | mark a here live inner outer heap used linked =>
    refine store here live heap used fun b => ?_
    unfold State.Linked
    rw [linked]
    exact id
  | unlink a c here live outer run heap used linked =>
    refine store here live heap used fun b => ?_
    unfold State.Linked
    rw [linked]
    exact id

theorem State.linked_congr (linked : s'.linked = s.linked) : s'.Linked = s.Linked := by
  unfold State.Linked
  rw [linked]

/-- The parts of the shape that depend on the keys alone. -/
theorem Shape.of_grows (shape : Shape list s) (grows : Grows s s') (nonnull : s'.used 0 = false)
    (linked : s'.linked = s.linked) (sorted : Sorted s'.heap.next s'.Linked list.pMax s'.heap.val)
    (maxNext : s'.heap.pNext list.pMax = null) (headLive : ¬ s'.heap.dead list.pHead)
    (reached : ∀ a, s.Linked a → ¬ s'.heap.dead a → s'.Reached list a) : Shape list s' := by
  have same := State.linked_congr linked
  have val {a : Nat} (here : s.Linked a) := grows.val a (shape.used a here)
  refine ⟨?_, ?_, fun a here => ?_, nonnull, maxNext, ?_, ?_, fun a here => ?_, fun a here => ?_, sorted,
    headLive, ?_⟩
  · rw [same]
    exact shape.head
  · rw [same]
    exact shape.max
  · rw [same] at here
    exact grows.used a (shape.used a here)
  · rw [val shape.head]
    exact shape.headVal
  · rw [val shape.max]
    exact shape.maxVal
  · rw [same] at here
    rw [val here]
    exact shape.above a here
  · rw [same] at here
    rw [val here]
    exact shape.below a here
  · rw [same]
    exact reached

/-- Where the keys and the ends are the same, the chain stays sorted if links stay in order. -/
theorem Shape.sorted_of (shape : Shape list s) (grows : Grows s s') (linked : s'.linked = s.linked)
    (next : ∀ a, s.Linked a → a ≠ list.pMax → s'.heap.next a = s.heap.next a ∨
      s.Linked (s'.heap.next a) ∧ s.heap.val a < s.heap.val (s'.heap.next a)) :
    Sorted s'.heap.next s'.Linked list.pMax s'.heap.val := by
  have same := State.linked_congr linked
  have val {a : Nat} (here : s.Linked a) := grows.val a (shape.used a here)
  have order {a : Nat} (here : s.Linked a) (outer : a ≠ list.pMax) :
      s.Linked (s'.heap.next a) ∧ s.heap.val a < s.heap.val (s'.heap.next a) := by
    rcases next a here outer with eq | moved
    · rw [eq]
      exact ⟨shape.sorted.next_linked a here outer, shape.sorted.key_lt a here outer⟩
    · exact moved
  rw [same]
  refine ⟨fun a here outer => (order here outer).1, fun a here outer => ?_, fun a here => ?_⟩
  · rw [val here, val (order here outer).1]
    exact (order here outer).2
  · rw [val here, val shape.max]
    exact shape.sorted.key_le a here

theorem HeapStep.shape (shape : Shape list s) (step : HeapStep list s s') : Shape list s' := by
  have grows := step.grows
  cases step with
  | same heap used linked =>
    refine shape.of_grows grows (by rw [used]; exact shape.nonnull) linked
      (shape.sorted_of grows linked fun a _ _ => .inl (by rw [heap])) (by rw [heap]; exact shape.maxNext)
      (by rw [heap]; exact shape.headLive) fun a here => ?_
    unfold State.Reached
    rw [heap]
    exact shape.reached a here
  | malloc a v r ne unused heap used linked =>
    have other {b : Nat} (here : s.Linked b) : b ≠ a := by
      rintro rfl
      have taken := shape.used b here
      rw [unused] at taken
      cases taken
    have pNext {b : Nat} (here : s.Linked b) : s'.heap.pNext b = s.heap.pNext b := by
      rw [heap]
      exact Function.update_of_ne (other here) _ _
    have next {b : Nat} (here : s.Linked b) : s'.heap.next b = s.heap.next b := by
      unfold Heap.next
      rw [pNext here]
    have dead {b : Nat} (here : s.Linked b) : s'.heap.dead b ↔ s.heap.dead b := by
      unfold Heap.dead
      rw [pNext here]
    refine shape.of_grows grows ?_ linked (shape.sorted_of grows linked fun b here _ => .inl (next here))
      (by rw [pNext shape.max]; exact shape.maxNext) (by rw [dead shape.head]; exact shape.headLive)
      fun b here live => ?_
    · rw [used, Function.update_of_ne (Ne.symm ne)]
      exact shape.nonnull
    · exact shape.sorted.path_congr shape.head
        (shape.reached b here fun gone => live ((dead here).mpr gone)) fun c there => next there
  | link a new here live outer private_ next above below heap used linked =>
    have there := shape.sorted.next_linked a here outer
    have ne : new ≠ a := by
      rintro rfl
      exact private_.2 here
    have inner : new ≠ list.pMax := by
      rintro rfl
      exact private_.2 shape.max
    have notHead : list.pHead ≠ new := by
      rintro rfl
      exact private_.2 shape.head
    have isLinked {b : Nat} : s'.Linked b ↔ b = new ∨ s.Linked b := by
      unfold State.Linked
      rw [linked]
      by_cases eq : b = new
      · simp [eq]
      · simp [eq]
    have newNext : s.heap.next new = s.heap.next a := by
      show (s.heap.pNext new).addr = _
      rw [next]
      rfl
    have next' : s'.heap.next = Function.update s.heap.next a new := by
      rw [heap]
      exact Heap.setNext_next
    have dead {b : Nat} (gone : s.heap.dead b) : s'.heap.dead b := by
      rw [heap]
      exact (Heap.setNext_dead_of_ne (by rintro rfl; exact live gone)).mpr gone
    have val : s'.heap.val = s.heap.val := by
      rw [heap]
      rfl
    refine ⟨isLinked.mpr (.inr shape.head), isLinked.mpr (.inr shape.max), fun b h => ?_,
      by rw [used]; exact shape.nonnull, ?_, by rw [val]; exact shape.headVal,
      by rw [val]; exact shape.maxVal, fun b h notHead => ?_, fun b h notMax => ?_, ?_, ?_,
      fun b h liveB => ?_⟩
    · rw [used]
      rcases isLinked.mp h with rfl | h
      · exact private_.1
      · exact shape.used b h
    · rw [heap, Heap.setNext_of_ne (Ne.symm outer)]
      exact shape.maxNext
    · rw [val]
      rcases isLinked.mp h with rfl | h
      · by_cases first : a = list.pHead
        · rw [first, shape.headVal] at above
          exact above
        · exact (shape.above a here first).trans above
      · exact shape.above b h notHead
    · rw [val]
      rcases isLinked.mp h with rfl | h
      · exact below.trans_le (shape.maxVal ▸ shape.sorted.key_le _ there)
      · exact shape.below b h notMax
    · rw [next', val]
      refine ⟨fun b h notMax => ?_, fun b h notMax => ?_, fun b h => ?_⟩
      · by_cases eq : b = a
        · rw [eq, Function.update_self]
          exact isLinked.mpr (.inl rfl)
        · rw [Function.update_of_ne eq]
          rcases isLinked.mp h with rfl | h
          · rw [newNext]
            exact isLinked.mpr (.inr there)
          · exact isLinked.mpr (.inr (shape.sorted.next_linked b h notMax))
      · by_cases eq : b = a
        · rw [eq, Function.update_self]
          exact above
        · rw [Function.update_of_ne eq]
          rcases isLinked.mp h with rfl | h
          · rw [newNext]
            exact below
          · exact shape.sorted.key_lt b h notMax
      · rcases isLinked.mp h with rfl | h
        · exact (below.trans_le (shape.sorted.key_le _ there)).le
        · exact shape.sorted.key_le b h
    · by_cases first : list.pHead = a
      · rw [heap, first]
        exact Heap.setNext_dead_self.not.mpr nofun
      · rw [heap]
        exact (Heap.setNext_dead_of_ne first).not.mpr shape.headLive
    · show Path s'.heap.next _ _ _
      rw [next']
      have kept {c : Nat} (reached : s.Reached list c) :
          Path (Function.update s.heap.next a new) list.pMax list.pHead c :=
        reached.insert ne inner newNext
      rcases isLinked.mp h with rfl | h
      · exact (kept (shape.reached a here live)).trans (Path.inserted outer)
      · exact kept (shape.reached b h fun gone => liveB (dead gone))
  | mark a here live inner outer heap used linked =>
    have next : s'.heap.next = s.heap.next := by
      rw [heap, Heap.setNext_next, Function.update_eq_self]
    refine shape.of_grows grows (by rw [used]; exact shape.nonnull) linked
      (shape.sorted_of grows linked fun b _ _ => .inl (by rw [next])) ?_ ?_ fun b h liveB => ?_
    · rw [heap, Heap.setNext_of_ne (Ne.symm outer)]
      exact shape.maxNext
    · rw [heap]
      exact (Heap.setNext_dead_of_ne (Ne.symm inner)).not.mpr shape.headLive
    · show Path s'.heap.next _ _ _
      rw [next]
      refine shape.reached b h fun gone => liveB ?_
      by_cases eq : b = a
      · rw [eq, heap]
        exact Heap.setNext_dead_self.mpr rfl
      · rw [heap]
        exact (Heap.setNext_dead_of_ne eq).mpr gone
  | unlink a c here live outer run heap used linked =>
    have next : s'.heap.next = Function.update s.heap.next a c := by
      rw [heap]
      exact Heap.setNext_next
    have dead {b : Nat} (gone : s.heap.dead b) : s'.heap.dead b := by
      rw [heap]
      exact (Heap.setNext_dead_of_ne (by rintro rfl; exact live gone)).mpr gone
    have moved := shape.of_run run (shape.sorted.next_linked a here outer)
    refine shape.of_grows grows (by rw [used]; exact shape.nonnull) linked
      (shape.sorted_of grows linked fun b h notMax => ?_) ?_ ?_ fun b h liveB => ?_
    · rw [next]
      by_cases eq : b = a
      · subst eq
        rw [Function.update_self]
        exact .inr ⟨moved.1, (shape.sorted.key_lt b h notMax).trans_le moved.2⟩
      · exact .inl (Function.update_of_ne eq _ _)
    · rw [heap, Heap.setNext_of_ne (Ne.symm outer)]
      exact shape.maxNext
    · by_cases first : list.pHead = a
      · rw [heap, first]
        exact Heap.setNext_dead_self.not.mpr nofun
      · rw [heap]
        exact (Heap.setNext_dead_of_ne first).not.mpr shape.headLive
    · show Path s'.heap.next _ _ _
      rw [next]
      have liveB' : ¬ s.heap.dead b := fun gone => liveB (dead gone)
      exact (shape.reached b h liveB').unlink liveB' live run

/-! ### The abstract set -/

theorem Shape.mem_keys (shape : Shape list s) {v : Int} : v ∈ s.keys list ↔
    ∃ a, s.Linked a ∧ a ≠ list.pHead ∧ a ≠ list.pMax ∧ ¬ s.heap.dead a ∧ s.heap.val a = v := by
  constructor
  · rintro ⟨a, reached, inner, outer, live, val⟩
    exact ⟨a, (shape.sorted.path shape.head reached).1, inner, outer, live, val⟩
  · rintro ⟨a, here, inner, outer, live, val⟩
    exact ⟨a, shape.reached a here live, inner, outer, live, val⟩

theorem Shape.eq_of_val (shape : Shape list s) {a b : Nat} (ha : s.Linked a) (hb : s.Linked b)
    (la : ¬ s.heap.dead a) (lb : ¬ s.heap.dead b) (same : s.heap.val a = s.heap.val b) : a = b :=
  shape.sorted.eq_of_key shape.head (shape.reached a ha la) (shape.reached b hb lb) same

/-- A key in the gap behind a live node is not in the set. -/
theorem Shape.absent (shape : Shape list s) {a : Nat} {v : Int} (here : s.Linked a)
    (live : ¬ s.heap.dead a) (outer : a ≠ list.pMax) (above : s.heap.val a < v)
    (below : v < s.heap.val (s.heap.next a)) : v ∉ s.keys list := by
  rintro ⟨b, reached, -, -, -, rfl⟩
  exact shape.sorted.not_between shape.head (shape.reached a here live) outer reached ⟨above, below⟩

theorem Shape.present (shape : Shape list s) {a : Nat} {v : Int} (here : s.Linked a)
    (live : ¬ s.heap.dead a) (val : s.heap.val a = v) (above : listValMin < v) (below : v < listValMax) :
    v ∈ s.keys list := by
  refine shape.mem_keys.mpr ⟨a, here, ?_, ?_, live, val⟩
  · rintro rfl
    rw [shape.headVal] at val
    omega
  · rintro rfl
    rw [shape.maxVal] at val
    omega

theorem HeapStep.keys (shape : Shape list s) (step : HeapStep list s s') :
    s'.keys list = s.keys list ∨
    (∃ new, s'.linked = Function.update s.linked new true ∧ ¬ s.Linked new ∧
      s.heap.val new ∉ s.keys list ∧ s'.keys list = insert (s.heap.val new) (s.keys list)) ∨
    ∃ a, s.Linked a ∧ ¬ s.heap.dead a ∧ s'.heap.dead a ∧ s.heap.val a ∈ s.keys list ∧
      s'.keys list = s.keys list \ {s.heap.val a} := by
  have shape' := step.shape shape
  have grows := step.grows
  have val {a : Nat} (here : s.Linked a) := grows.val a (shape.used a here)
  -- nothing is linked or marked
  have quiet (linked : s'.linked = s.linked)
      (dead : ∀ a, s.Linked a → (s'.heap.dead a ↔ s.heap.dead a)) : s'.keys list = s.keys list := by
    ext v
    rw [shape'.mem_keys, shape.mem_keys, State.linked_congr linked]
    refine exists_congr fun a => and_congr_right fun here => ?_
    rw [dead a here, val here]
  cases step with
  | same heap used linked => exact .inl (quiet linked fun a _ => by rw [heap])
  | malloc a v r ne unused heap used linked =>
    refine .inl (quiet linked fun b here => ?_)
    have other : b ≠ a := by
      rintro rfl
      have taken := shape.used b here
      rw [unused] at taken
      cases taken
    unfold Heap.dead
    rw [heap]
    show (Function.update s.heap.pNext a r b).marked = true ↔ _
    rw [Function.update_of_ne other]
  | unlink a c here live outer run heap used linked =>
    refine .inl (quiet linked fun b _ => ?_)
    rw [heap]
    by_cases eq : b = a
    · rw [eq, Heap.setNext_dead_self]
      exact ⟨nofun, fun gone => absurd gone live⟩
    · exact Heap.setNext_dead_of_ne eq
  | link a new here live outer private_ next above below heap used linked =>
    have absent := shape.absent here live outer above below
    refine .inr (.inl ⟨new, linked, private_.2, absent, ?_⟩)
    have isLinked {b : Nat} : s'.Linked b ↔ b = new ∨ s.Linked b := by
      unfold State.Linked
      rw [linked]
      by_cases eq : b = new
      · simp [eq]
      · simp [eq]
    have val' : s'.heap.val = s.heap.val := by
      rw [heap]
      rfl
    have dead {b : Nat} : s'.heap.dead b ↔ s.heap.dead b := by
      rw [heap]
      by_cases eq : b = a
      · rw [eq, Heap.setNext_dead_self]
        exact ⟨nofun, fun gone => absurd gone live⟩
      · exact Heap.setNext_dead_of_ne eq
    ext v
    rw [Set.mem_insert_iff, shape'.mem_keys, shape.mem_keys]
    constructor
    · rintro ⟨b, h, inner, outer', liveB, rfl⟩
      rw [val']
      rcases isLinked.mp h with rfl | h
      · exact .inl rfl
      · exact .inr ⟨b, h, inner, outer', fun gone => liveB (dead.mpr gone), rfl⟩
    · rintro (rfl | ⟨b, h, inner, outer', liveB, rfl⟩)
      · refine ⟨new, isLinked.mpr (.inl rfl), ?_, ?_, ?_, by rw [val']⟩
        · rintro rfl
          exact private_.2 shape.head
        · rintro rfl
          exact private_.2 shape.max
        · rw [dead]
          unfold Heap.dead
          rw [next]
          nofun
      · exact ⟨b, isLinked.mpr (.inr h), inner, outer', fun gone => liveB (dead.mp gone), by rw [val']⟩
  | mark a here live inner outer heap used linked =>
    have dead {b : Nat} : s'.heap.dead b ↔ b = a ∨ s.heap.dead b := by
      rw [heap]
      by_cases eq : b = a
      · rw [eq, Heap.setNext_dead_self]
        simp
      · rw [Heap.setNext_dead_of_ne eq]
        simp [eq]
    refine .inr (.inr ⟨a, here, live, dead.mpr (.inl rfl),
      shape.mem_keys.mpr ⟨a, here, inner, outer, live, rfl⟩, ?_⟩)
    ext v
    rw [Set.mem_sdiff, Set.mem_singleton_iff, shape'.mem_keys, shape.mem_keys,
      State.linked_congr linked]
    constructor
    · rintro ⟨b, h, inner', outer', liveB, rfl⟩
      rw [val h]
      have liveB' : ¬ s.heap.dead b := fun gone => liveB (dead.mpr (.inr gone))
      refine ⟨⟨b, h, inner', outer', liveB', rfl⟩, fun same => liveB (dead.mpr (.inl ?_))⟩
      exact shape.eq_of_val h here liveB' live same
    · rintro ⟨⟨b, h, inner', outer', liveB, rfl⟩, ne⟩
      refine ⟨b, h, inner', outer', fun gone => ?_, val h⟩
      rcases dead.mp gone with rfl | gone
      · exact ne rfl
      · exact liveB gone

end Preserve

end ReadLogUpdate.Harris
