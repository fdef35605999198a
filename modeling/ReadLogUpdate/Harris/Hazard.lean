import Mathlib.Logic.Function.Iterate
import ReadLogUpdate.Harris.Linearize

/-!
# The two searches run alone

`hp_harris_list_search` finds the left node in `my_left_node`, but compares and swaps behind
`*left_node`, which is the head. Run alone it agrees with `harris_list_search` where that makes no
difference, and elsewhere it never returns.
-/

namespace ReadLogUpdate.Harris

open Chain

/-- A search that takes all steps: its heap, and where it is or what it returned. -/
def searchAlone (x : Variant) (list : ListT) (v : Int) :
    Heap × (SearchPc ⊕ Locals) → Heap × (SearchPc ⊕ Locals)
  | (h, .inl pc) => searchStep x list v h pc
  | (h, .inr l) => (h, .inr l)

/-- The search with `*left_node` at the head, run alone from `h`, returns `l` and leaves `h'`. -/
def Returns (x : Variant) (list : ListT) (v : Int) (h h' : Heap) (l : Locals) : Prop :=
  ∃ n, (searchAlone x list v)^[n] (h, .inl (.start (.enter list list.pHead))) = (h', .inr l)

/-- Both searches return, with the same nodes and the same `p_next` fields. -/
def Agree (list : ListT) (v : Int) (h : Heap) : Prop :=
  ∃ h₁ h₂ l₁ l₂, Returns .hpHarris list v h h₁ l₁ ∧ Returns .harris list v h h₂ l₂ ∧
    l₁.t = l₂.t ∧ l₁.leftNode = l₂.leftNode ∧ h₁.pNext = h₂.pNext

/-- The first unmarked node behind the head with a key from `v` on. -/
structure IsRight (list : ListT) (v : Int) (s : State) (b : Nat) : Prop where
  reached : s.Reached list b
  live : ¬ s.heap.dead b
  le : v ≤ s.heap.val b
  first : ∀ a, s.Reached list a → a ≠ list.pHead → s.heap.val a < s.heap.val b →
    s.heap.dead a ∨ s.heap.val a < v

/-- The node before the right node is unmarked, or all between the head and the right node are
marked. -/
def Plain (list : ListT) (v : Int) (s : State) : Prop :=
  ∀ b, IsRight list v s b →
    (∃ a, s.Reached list a ∧ s.heap.next a = b ∧ ¬ s.heap.dead a) ∨
    ∀ a, s.Reached list a → a ≠ list.pHead → s.heap.val a < s.heap.val b → s.heap.dead a

/-- A search in its scan: the last unmarked node before `t` is found, and nothing before `t` is the
right node. -/
structure Scanning (x : Variant) (list : ListT) (v : Int) (s : State) (l : Locals) : Prop where
  reached : s.Reached list l.t
  inner : l.t ≠ list.pHead
  passed : ∀ a, s.Reached list a → a ≠ list.pHead → s.heap.val a < s.heap.val l.t →
    s.heap.dead a ∨ s.heap.val a < v
  found : s.Reached list (l.found x)
  live : ¬ s.heap.dead (l.found x)
  below : s.heap.val (l.found x) < v
  next : s.heap.next (l.found x) = l.leftNodeNext
  frozen : s.heap.Frozen l.leftNodeNext l.t
  head : x = .hpHarris → l.leftNode = list.pHead

section Alone
variable {x : Variant} {list : ListT} {v : Int} {s : State} {l : Locals}

/-- The live node before the node of a scan has all later nodes before that one dead. -/
theorem Scanning.between (shape : Shape list s) (scan : Scanning x list v s l) {a : Nat}
    (reached : s.Reached list a) (above : s.heap.val (l.found x) < s.heap.val a)
    (below : s.heap.val a < s.heap.val l.t) : s.heap.dead a := by
  have sorted := shape.sorted
  have here := (sorted.path shape.head scan.found).1
  by_contra live
  rcases scan.found.total reached with path | path
  · rcases path.cases with rfl | ⟨outer, path⟩
    · exact lt_irrefl _ above
    · rw [scan.next] at path
      have rest : Path s.heap.next list.pMax l.t a := scan.frozen.skip path live
      have there := (sorted.path shape.head scan.reached).1
      exact absurd below (sorted.key_le_of_path there rest).not_gt
  · exact absurd above (sorted.key_le_of_path (sorted.path shape.head reached).1 path).not_gt

theorem Shape.linked_of_reached (shape : Shape list s) {a : Nat} (reached : s.Reached list a) :
    s.Linked a := (shape.sorted.path shape.head reached).1

theorem Shape.not_between (shape : Shape list s) {a n : Nat} (reached : s.Reached list a)
    (outer : a ≠ list.pMax) (there : s.Reached list n) (above : s.heap.val a < s.heap.val n) :
    s.heap.val (s.heap.next a) ≤ s.heap.val n :=
  not_lt.mp fun below => shape.sorted.not_between shape.head reached outer there ⟨above, below⟩

theorem Shape.eq_of_reached (shape : Shape list s) {a b : Nat} (ha : s.Reached list a)
    (hb : s.Reached list b) (same : s.heap.val a = s.heap.val b) : a = b :=
  shape.sorted.eq_of_key shape.head ha hb same

theorem Shape.reached_next (shape : Shape list s) {a : Nat} (reached : s.Reached list a)
    (outer : a ≠ list.pMax) : s.Reached list (s.heap.next a) ∧ s.heap.next a ≠ list.pHead := by
  have here := shape.linked_of_reached reached
  refine ⟨Relation.ReflTransGen.tail reached ⟨outer, rfl⟩, fun back => ?_⟩
  have up := shape.sorted.key_lt a here outer
  have low := shape.sorted.key_le_of_path shape.head reached
  rw [back] at up
  exact absurd up low.not_gt

theorem Shape.scanning_start (shape : Shape list s) (lo : listValMin < v)
    (head : x = .hpHarris → l.leftNode = list.pHead) :
    Scanning x list v s
      (({ l with leftNodeNext := list.pHead, t := list.pHead } : Locals).advance x
        (s.heap.pNext list.pHead)) := by
  have first : s.Reached list list.pHead := .refl _
  obtain ⟨reached, inner⟩ := shape.reached_next first list.ne
  have passed (a : Nat) (there : s.Reached list a) (ne : a ≠ list.pHead)
      (below : s.heap.val a < s.heap.val (s.heap.next list.pHead)) :
      s.heap.dead a ∨ s.heap.val a < v := by
    have above : s.heap.val list.pHead < s.heap.val a := by
      rw [shape.headVal]
      exact shape.above a (shape.linked_of_reached there) ne
    exact absurd below (shape.not_between first list.ne there above).not_gt
  have below : s.heap.val list.pHead < v := by rw [shape.headVal]; exact lo
  have live : ¬ (s.heap.pNext list.pHead).marked = true := shape.headLive
  unfold Locals.advance isMarkedRef getUnmarkedRef
  rw [if_neg live]
  cases x with
  | harris =>
    exact ⟨reached, inner, passed, first, shape.headLive, below, rfl, .nil _, nofun⟩
  | hpHarris =>
    exact ⟨reached, inner, passed, first, shape.headLive, below, rfl, .nil _, head⟩

theorem Scanning.advance (shape : Shape list s) (scan : Scanning x list v s l)
    (outer : l.t ≠ list.pMax) (run : ¬ s.heap.dead l.t → s.heap.val l.t < v) :
    Scanning x list v s (l.advance x (s.heap.pNext l.t)) := by
  obtain ⟨reached, inner⟩ := shape.reached_next scan.reached outer
  have passed (a : Nat) (there : s.Reached list a) (ne : a ≠ list.pHead)
      (below : s.heap.val a < s.heap.val (s.heap.next l.t)) : s.heap.dead a ∨ s.heap.val a < v := by
    rcases lt_trichotomy (s.heap.val a) (s.heap.val l.t) with lt | eq | gt
    · exact scan.passed a there ne lt
    · obtain rfl := shape.eq_of_reached there scan.reached eq
      exact (em (s.heap.dead l.t)).imp_right run
    · exact absurd below (shape.not_between scan.reached outer there gt).not_gt
  unfold Locals.advance isMarkedRef getUnmarkedRef
  split_ifs with gone
  · obtain ⟨-, -, -, found, live, below, next, frozen, head⟩ := scan
    have frozen' : s.heap.Frozen l.leftNodeNext (s.heap.next l.t) := frozen.snoc gone
    cases x <;> exact ⟨reached, inner, passed, found, live, below, next, frozen', head⟩
  · have gone : ¬ s.heap.dead l.t := gone
    cases x with
    | harris =>
      exact ⟨reached, inner, passed, scan.reached, gone, run gone, rfl, .nil _, nofun⟩
    | hpHarris =>
      exact ⟨reached, inner, passed, scan.reached, gone, run gone, rfl, .nil _, scan.head⟩

structure Stopped (x : Variant) (list : ListT) (v : Int) (s : State) (l : Locals) : Prop
    extends Scanning x list v s l where
  unmarked : ¬ s.heap.dead l.t
  le : v ≤ s.heap.val l.t

theorem Stopped.isRight (stop : Stopped x list v s l) : IsRight list v s l.t :=
  ⟨stop.reached, stop.unmarked, stop.le, stop.passed⟩

theorem IsRight.unique (shape : Shape list s) {a b : Nat} (lo : listValMin < v)
    (ha : IsRight list v s a) (hb : IsRight list v s b) : a = b := by
  have inner {c : Nat} (hc : IsRight list v s c) : c ≠ list.pHead := by
    rintro rfl
    have := hc.le
    rw [shape.headVal] at this
    omega
  have apart {c d : Nat} (hc : IsRight list v s c) (hd : IsRight list v s d) :
      ¬ s.heap.val c < s.heap.val d := fun lt => by
    rcases hd.first c hc.reached (inner hc) lt with gone | below
    · exact hc.live gone
    · exact absurd below hc.le.not_gt
  exact shape.eq_of_reached ha.reached hb.reached
    (le_antisymm (Int.not_lt.mp (apart hb ha)) (Int.not_lt.mp (apart ha hb)))

/-- A scan that meets the right node stops; before it, it goes on. -/
theorem scan_step (shape : Shape list s) (hi : v < listValMax) (scan : Scanning x list v s l) :
    Stopped x list v s l ∧ ((searchStep x list v s.heap (.checkNext l)) = (s.heap, .inl l.scanned) ∨
      (searchStep x list v s.heap (.checkNext l)) = (s.heap, .inl (.readNext l)) ∧
        searchStep x list v s.heap (.readNext l) = (s.heap, .inl l.scanned)) ∨
    l.t ≠ list.pMax ∧ Scanning x list v s (l.advance x (s.heap.pNext l.t)) ∧
      searchStep x list v s.heap (.checkNext l) = (s.heap, .inl (.readNext l)) ∧
      searchStep x list v s.heap (.readNext l) =
        (s.heap, .inl (.checkNext (l.advance x (s.heap.pNext l.t)))) := by
  have here := shape.linked_of_reached scan.reached
  by_cases isNull : s.heap.pNext l.t = null
  · have last := shape.eq_max here isNull
    refine .inl ⟨⟨scan, ?_, ?_⟩, .inl ?_⟩
    · rw [last]
      exact shape.max_live
    · rw [last, shape.maxVal]
      omega
    · simp only [searchStep, if_pos isNull]
  · have read : searchStep x list v s.heap (.checkNext l) = (s.heap, .inl (.readNext l)) := by
      simp only [searchStep, if_neg isNull]
    by_cases more : isMarkedRef (s.heap.pNext l.t) ∨ s.heap.val l.t < v
    · have outer : l.t ≠ list.pMax := by
        rcases more with gone | lt
        · exact shape.outer_of_dead gone
        · exact shape.val_lt_max ⟨here, lt⟩ hi
      refine .inr ⟨outer, scan.advance shape outer fun live => more.resolve_left live, read, ?_⟩
      simp only [searchStep, if_pos more]
    · refine .inl ⟨⟨scan, fun gone => more (.inl gone), not_lt.mp fun lt => more (.inr lt)⟩, .inr ⟨read, ?_⟩⟩
      simp only [searchStep, if_neg more]

theorem advance_t {r : Ref} : (l.advance x r).t = r.addr := by
  unfold Locals.advance getUnmarkedRef
  split_ifs
  · rfl
  · cases x <;> rfl

theorem scan_stops (shape : Shape list s) (hi : v < listValMax) {l : Locals}
    (scan : Scanning x list v s l) : ∃ n l', Stopped x list v s l' ∧
      (searchAlone x list v)^[n] (s.heap, .inl (.checkNext l)) = (s.heap, .inl l'.scanned) := by
  rcases scan_step shape hi scan with ⟨stop, once | ⟨once, twice⟩⟩ | ⟨outer, next, once, twice⟩
  · exact ⟨1, l, stop, once⟩
  · exact ⟨2, l, stop, (congrArg (searchAlone x list v) once).trans twice⟩
  · have here := shape.linked_of_reached scan.reached
    have up : s.heap.val l.t < s.heap.val (l.advance x (s.heap.pNext l.t)).t := by
      rw [advance_t]
      exact shape.sorted.key_lt l.t here outer
    have bound : s.heap.val (l.advance x (s.heap.pNext l.t)).t ≤ listValMax := by
      have := shape.sorted.key_le _ (shape.linked_of_reached next.reached)
      rwa [shape.maxVal] at this
    obtain ⟨n, l', stop, rest⟩ := scan_stops shape hi next
    refine ⟨n + 2, l', stop, ?_⟩
    rw [Function.iterate_add_apply]
    have two : (searchAlone x list v)^[2] (s.heap, .inl (.checkNext l)) =
        (s.heap, .inl (.checkNext (l.advance x (s.heap.pNext l.t)))) :=
      (congrArg (searchAlone x list v) once).trans twice
    rw [two, rest]
termination_by (listValMax - s.heap.val l.t).toNat
decreasing_by omega

theorem Stopped.found_eq {y : Variant} {l' : Locals} (shape : Shape list s) (lo : listValMin < v)
    (stop : Stopped x list v s l) (stop' : Stopped y list v s l') :
    l.t = l'.t ∧ l.found x = l'.found y ∧ l.leftNodeNext = l'.leftNodeNext := by
  have right := stop.isRight.unique shape lo stop'.isRight
  have found : l.found x = l'.found y := by
    have apart {x y : Variant} {l l' : Locals} (stop : Stopped x list v s l)
        (stop' : Stopped y list v s l') (right : l.t = l'.t) :
        s.heap.val (l'.found y) ≤ s.heap.val (l.found x) := by
      refine not_lt.mp fun lt => stop'.live (stop.between shape stop'.found lt ?_)
      rw [right]
      exact stop'.below.trans_le stop'.le
    exact shape.eq_of_reached stop.found stop'.found
      (le_antisymm (apart stop' stop right.symm) (apart stop stop' right))
  exact ⟨right, found, by rw [← stop.next, ← stop'.next, found]⟩

/-- The last test, in a heap where the right node is unmarked. -/
theorem test_returns {h : Heap} (unmarked : ¬ h.dead l.t) :
    ∃ n, (searchAlone x list v)^[n] (h, .inl (.testNull l)) = (h, .inr (l.returned x)) := by
  by_cases isNull : h.pNext l.t = null
  · refine ⟨1, ?_⟩
    show searchStep x list v h (.testNull l) = _
    simp only [searchStep, if_pos isNull]
  · have once : searchStep x list v h (.testNull l) = (h, .inl (.testMark l)) := by
      simp only [searchStep, if_neg isNull]
    have live : ¬ isMarkedRef (h.pNext l.t) = true := unmarked
    refine ⟨2, (congrArg (searchAlone x list v) once).trans ?_⟩
    show searchStep x list v h (.testMark l) = _
    simp only [searchStep, if_neg live]

def Locals.cleaned (x : Variant) (l : Locals) (h : Heap) : Heap :=
  if l.leftNodeNext = l.t then h else h.setNext (l.found x) (ref l.t)

theorem Stopped.expected (stop : Stopped x list v s l) :
    s.heap.pNext (l.found x) = ref l.leftNodeNext := by
  have next := stop.next
  have live := stop.live
  unfold Heap.next Heap.dead at *
  cases h : s.heap.pNext (l.found x) with
  | mk addr marked =>
    rw [h] at next live
    cases marked with
    | true => exact absurd rfl live
    | false =>
      obtain rfl : addr = l.leftNodeNext := next
      rfl

/-- A search whose compare-and-swap is behind the found node returns once its scan has stopped. -/
theorem Stopped.returns (stop : Stopped x list v s l)
    (target : l.leftNodeNext ≠ l.t → l.leftNode = l.found x) :
    ∃ n, (searchAlone x list v)^[n] (s.heap, .inl l.scanned) = (l.cleaned x s.heap, .inr (l.returned x)) := by
  unfold Locals.scanned Locals.cleaned
  by_cases adjacent : l.leftNodeNext = l.t
  · rw [if_pos adjacent, if_pos adjacent]
    exact test_returns stop.unmarked
  · rw [if_neg adjacent, if_neg adjacent]
    have same := target adjacent
    have expected : s.heap.pNext l.leftNode = ref l.leftNodeNext := by
      rw [same]
      exact stop.expected
    have once : searchStep x list v s.heap (.cas l) =
        (s.heap.setNext (l.found x) (ref l.t), .inl (.testNull l)) := by
      simp only [searchStep]
      rw [if_pos expected, same]
    have ne : l.t ≠ l.found x := fun e => by
      have below := stop.below
      rw [← e] at below
      exact absurd below stop.le.not_gt
    have unmarked : ¬ (s.heap.setNext (l.found x) (ref l.t)).dead l.t :=
      (Heap.setNext_dead_of_ne ne).not.mpr stop.unmarked
    obtain ⟨n, rest⟩ : ∃ n, (searchAlone x list v)^[n]
        (s.heap.setNext (l.found x) (ref l.t), .inl (.testNull l)) = (_, .inr (l.returned x)) :=
      test_returns unmarked
    refine ⟨n + 1, ?_⟩
    rw [Function.iterate_succ_apply]
    exact (congrArg ((searchAlone x list v)^[n]) once).trans rest

/-- From the start of a turn to the end of its scan. -/
theorem search_stops (shape : Shape list s) (lo : listValMin < v) (hi : v < listValMax)
    (head : x = .hpHarris → l.leftNode = list.pHead) : ∃ n l', Stopped x list v s l' ∧
      (searchAlone x list v)^[n + 1] (s.heap, .inl (.start l)) = (s.heap, .inl l'.scanned) := by
  have scan := shape.scanning_start (x := x) (l := l) lo head
  obtain ⟨n, l', stop, rest⟩ := scan_stops shape hi scan
  refine ⟨n, l', stop, ?_⟩
  rw [Function.iterate_succ_apply]
  exact rest

/-- A search whose compare-and-swap is behind the found node returns after one turn. -/
theorem search_returns (shape : Shape list s) (lo : listValMin < v) (hi : v < listValMax)
    (target : ∀ l, Stopped x list v s l → l.leftNodeNext ≠ l.t → l.leftNode = l.found x) :
    ∃ l, Stopped x list v s l ∧ Returns x list v s.heap (l.cleaned x s.heap) (l.returned x) := by
  obtain ⟨n, l, stop, scan⟩ := search_stops (l := .enter list list.pHead) shape lo hi fun _ => rfl
  obtain ⟨m, rest⟩ := stop.returns (target l stop)
  refine ⟨l, stop, m + (n + 1), ?_⟩
  rw [Function.iterate_add_apply, scan, rest]

/-- On a plain list the head is the found node where it matters. -/
theorem Plain.target (plain : Plain list v s) (shape : Shape list s)
    (stop : Stopped .hpHarris list v s l) (apart : l.leftNodeNext ≠ l.t) :
    l.leftNode = l.found .hpHarris := by
  have right := stop.isRight
  have inner : s.heap.val (l.found .hpHarris) < s.heap.val l.t := stop.below.trans_le stop.le
  rw [stop.head rfl]
  rcases plain l.t right with ⟨a, reached, next, live⟩ | marked
  · -- the node before the right one would be the found one
    refine absurd ?_ apart
    have outer : a ≠ list.pMax := by
      rintro rfl
      have zero : list.pMax ≠ s.heap.next list.pMax := fun e => by
        have := shape.maxNext
        unfold Heap.next at e
        rw [this] at e
        exact list.max_ne e
      have isNull : s.heap.next list.pMax = 0 := by
        unfold Heap.next
        rw [shape.maxNext]
        rfl
      exact shape.ne_zero (shape.linked_of_reached stop.reached) (next.symm.trans isNull)
    have up : s.heap.val a < s.heap.val l.t := by
      rw [← next]
      exact shape.sorted.key_lt a (shape.linked_of_reached reached) outer
    have same : l.found .hpHarris = a := by
      refine shape.eq_of_reached stop.found reached (le_antisymm ?_ ?_)
      · refine not_lt.mp fun above => ?_
        have := shape.not_between reached outer stop.found above
        rw [next] at this
        exact absurd inner this.not_gt
      · exact not_lt.mp fun above => live (stop.between shape reached above up)
    rw [← stop.next, same, next]
  · by_contra ne
    exact stop.live (marked _ stop.found (Ne.symm ne) inner)

theorem agree_of_plain (plain : Plain list v s) (shape : Shape list s) (lo : listValMin < v)
    (hi : v < listValMax) : Agree list v s.heap := by
  obtain ⟨l₁, stop₁, returns₁⟩ := search_returns (x := .hpHarris) shape lo hi
    fun _ stop apart => plain.target shape stop apart
  obtain ⟨l₂, stop₂, returns₂⟩ := search_returns (x := .harris) shape lo hi fun _ _ _ => rfl
  obtain ⟨right, found, next⟩ := stop₁.found_eq shape lo stop₂
  refine ⟨_, _, _, _, returns₁, returns₂, right, found, ?_⟩
  unfold Locals.cleaned
  rw [right, found, next]

/-- Where the list is not plain, the compare-and-swap at the head fails. -/
theorem Stopped.fails (shape : Shape list s) (lo : listValMin < v) (hi : v < listValMax)
    (plain : ¬ Plain list v s) (stop : Stopped .hpHarris list v s l) :
    searchAlone .hpHarris list v (s.heap, .inl l.scanned) = (s.heap, .inl (.start l)) := by
  unfold Plain at plain
  push Not at plain
  obtain ⟨b, right, noneBefore, a, reached, inner, below, live⟩ := plain
  obtain rfl := right.unique shape lo stop.isRight
  have apart : l.leftNodeNext ≠ l.t := fun adjacent =>
    stop.live (noneBefore _ stop.found (stop.next.trans adjacent))
  have other : s.heap.pNext l.leftNode ≠ ref l.leftNodeNext := fun expected => by
    have same : s.heap.next list.pHead = s.heap.next (l.found .hpHarris) := by
      rw [stop.next, ← stop.head rfl]
      unfold Heap.next
      rw [expected]
      rfl
    have upTo : s.heap.val a ≤ s.heap.val (l.found .hpHarris) :=
      not_lt.mp fun above => live (stop.between shape reached above below)
    have above : s.heap.val list.pHead < s.heap.val a := by
      rw [shape.headVal]
      exact shape.above a (shape.linked_of_reached reached) inner
    have outer : l.found .hpHarris ≠ list.pMax :=
      shape.val_lt_max ⟨shape.linked_of_reached stop.found, stop.below⟩ hi
    have first := shape.not_between (.refl _) list.ne stop.found (above.trans_le upTo)
    have second := shape.sorted.key_lt _ (shape.linked_of_reached stop.found) outer
    rw [same] at first
    exact absurd second first.not_gt
  unfold Locals.scanned
  rw [if_neg apart]
  show searchStep .hpHarris list v s.heap (.cas l) = _
  simp only [searchStep, if_neg other]

theorem starts_again (shape : Shape list s) (lo : listValMin < v) (hi : v < listValMax)
    (plain : ¬ Plain list v s) (k : Nat) : ∃ n l, k ≤ n ∧ l.leftNode = list.pHead ∧
      (searchAlone .hpHarris list v)^[n] (s.heap, .inl (.start (.enter list list.pHead))) =
        (s.heap, .inl (.start l)) := by
  induction k with
  | zero => exact ⟨0, _, le_rfl, rfl, rfl⟩
  | succ k ih =>
    obtain ⟨n, l, le, head, before⟩ := ih
    obtain ⟨m, l', stop, turn⟩ := search_stops (l := l) shape lo hi fun _ => head
    refine ⟨1 + (m + 1) + n, l', by omega, stop.head rfl, ?_⟩
    rw [Function.iterate_add_apply, before, Function.iterate_add_apply, turn]
    exact stop.fails shape lo hi plain

theorem not_returns (shape : Shape list s) (lo : listValMin < v) (hi : v < listValMax)
    (plain : ¬ Plain list v s) {h' : Heap} : ¬ Returns .hpHarris list v s.heap h' l := by
  rintro ⟨n, returned⟩
  obtain ⟨m, l', le, -, running⟩ := starts_again shape lo hi plain n
  obtain ⟨k, rfl⟩ := Nat.exists_eq_add_of_le' le
  rw [Function.iterate_add_apply, returned, Function.iterate_fixed rfl] at running
  cases congrArg Prod.snd running

end Alone

/-- In every reachable state `hp_harris_list_search` alone agrees with `harris_list_search` exactly
where the list is plain. -/
theorem hp_harris_list_search_agrees (list : ListT) (s : State)
    (h : System.Reachable (· = State.init list) (step .hpHarris list) (fun _ _ => True) s) (v : Int)
    (lo : listValMin < v) (hi : v < listValMax) : Agree list v s.heap ↔ Plain list v s := by
  have shape := (reachable_inv h).shape
  constructor
  · rintro ⟨h₁, -, l₁, -, returns, -⟩
    by_contra plain
    exact not_returns shape lo hi plain returns
  · exact fun plain => agree_of_plain plain shape lo hi

def markedRun : List Act :=
  [.call 0 .add 5, .lib 0, .lib 0, .lib 0, .malloc 0 3, .lib 0] ++
  [.call 0 .add 7, .lib 0, .lib 0, .lib 0, .lib 0, .lib 0, .malloc 0 4, .lib 0] ++
  .call 1 .remove 7 :: List.replicate 9 (.lib 1)

def Heap.isMarkedRun (h : Heap) : Bool :=
  decide (h.pNext 1 = ref 3 ∧ h.pNext 3 = ref 4 ∧ h.pNext 4 = ⟨2, true⟩ ∧ h.pNext 2 = null ∧
    h.val 3 = 5 ∧ h.val 4 = 7)

theorem exists_markedRun : ∃ s,
    System.Reachable (· = State.init emptyList) (step .hpHarris emptyList) (fun _ _ => True) s ∧
    s.heap.isMarkedRun = true :=
  have reached : ((System.run (step .hpHarris emptyList) (State.init emptyList) markedRun).any
      fun s => s.heap.isMarkedRun) = true := by
    decide +kernel
  exists_run reached

theorem hp_harris_list_search_agrees_marked : ∃ s, s.heap.isMarkedRun = true ∧
    (Agree emptyList 9 s.heap ↔ Plain emptyList 9 s) := by
  obtain ⟨s, h, list⟩ := exists_markedRun
  exact ⟨s, list, hp_harris_list_search_agrees emptyList s h 9 (by decide) (by decide)⟩

theorem markedRun_not_plain {s : State} (shape : Shape emptyList s)
    (list : s.heap.isMarkedRun = true) : ¬ Plain emptyList 9 s := by
  obtain ⟨h₁, h₃, h₄, h₂, v₃, v₄⟩ := of_decide_eq_true list
  have next₁ : s.heap.next 1 = 3 := congrArg Ref.addr h₁
  have next₃ : s.heap.next 3 = 4 := congrArg Ref.addr h₃
  have next₄ : s.heap.next 4 = 2 := congrArg Ref.addr h₄
  have next₂ : s.heap.next 2 = 0 := congrArg Ref.addr h₂
  have dead₄ : s.heap.dead 4 := congrArg Ref.marked h₄
  have live₃ : ¬ s.heap.dead 3 := by
    unfold Heap.dead
    rw [h₃]
    exact Bool.false_ne_true
  have v₂ : s.heap.val 2 = listValMax := shape.maxVal
  have reached₃ : s.Reached emptyList 3 := .head (by decide) (next₁ ▸ .refl _)
  have reached₂ : s.Reached emptyList 2 := by
    refine .head (by decide) (show Path _ _ (s.heap.next 1) 2 from ?_)
    rw [next₁]
    refine .head (by decide) ?_
    rw [next₃]
    refine .head (by decide) ?_
    rw [next₄]
    exact .refl _
  have nodes {a : Nat} (reached : s.Reached emptyList a) : a = 1 ∨ a = 3 ∨ a = 4 ∨ a = 2 := by
    rcases Path.cases reached with rfl | ⟨-, path⟩
    · exact .inl rfl
    rw [show s.heap.next emptyList.pHead = 3 from next₁] at path
    rcases path.cases with rfl | ⟨-, path⟩
    · exact .inr (.inl rfl)
    rw [next₃] at path
    rcases path.cases with rfl | ⟨-, path⟩
    · exact .inr (.inr (.inl rfl))
    rw [next₄] at path
    rcases path.cases with rfl | ⟨outer, -⟩
    · exact .inr (.inr (.inr rfl))
    · exact absurd rfl outer
  have right : IsRight emptyList 9 s 2 := by
    refine ⟨reached₂, shape.max_live, by rw [v₂]; decide, fun a reached inner below => ?_⟩
    rcases nodes reached with rfl | rfl | rfl | rfl
    · exact absurd rfl inner
    · exact .inr (by rw [v₃]; decide)
    · exact .inl dead₄
    · exact absurd below (lt_irrefl _)
  intro plain
  rcases plain 2 right with ⟨a, reached, next, live⟩ | marked
  · rcases nodes reached with rfl | rfl | rfl | rfl
    · omega
    · omega
    · exact live dead₄
    · omega
  · exact live₃ (marked 3 reached₃ (by decide) (by rw [v₃, v₂]; decide))

/-- With a marked node behind an unmarked one `hp_harris_list_search` does not agree. -/
theorem hp_harris_list_search_loops : ¬ ∀ (list : ListT) (s : State),
    System.Reachable (· = State.init list) (step .hpHarris list) (fun _ _ => True) s →
    ∀ v : Int, listValMin < v → v < listValMax → Agree list v s.heap := by
  intro claim
  obtain ⟨s, h, list⟩ := exists_markedRun
  obtain ⟨h₁, -, l₁, -, returns, -⟩ := claim emptyList s h 9 (by decide) (by decide)
  have shape := (reachable_inv h).shape
  exact not_returns shape (by decide) (by decide) (markedRun_not_plain shape list) returns

end ReadLogUpdate.Harris
