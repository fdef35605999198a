import ReadLogUpdate.Harris.Shape
import ReadLogUpdate.Sequential.Calls

/-!
# The lock-free lists with one thread

Calls of thread 0 while no other thread takes a step. Nothing that a search reads changes before it
uses it, so no comparison fails, nothing is tried twice and nothing marked stays on the list.
-/

namespace ReadLogUpdate.Sequential

open Relation
open Chain
open Harris (Heap Ref ref null isMarkedRef getMarkedRef)
export Harris (Act)

/-! ### Calls as steps -/

section Calls
variable {σ : Type*} {step : σ → Act → Option σ} {done : σ → Op → Int → Bool → Prop}

/-- Thread 0 takes a step, where `malloc` returns `a`. -/
def Moves (step : σ → Act → Option σ) (a : Nat) (s s' : σ) : Prop :=
  step s (.lib 0) = some s' ∨ step s (.malloc 0 a) = some s'

/-- A call of thread 0 alone ends, whatever it does, and it returns `r`. -/
def ThreadCall (step : σ → Act → Option σ) (done : σ → Op → Int → Bool → Prop) (op : Op) (v : Int)
    (a : Nat) (s : σ) (r : Bool) (s' : σ) : Prop :=
  ∃ s₁, step s (.call 0 op v) = some s₁ ∧ Acc (Function.swap (Moves step a)) s₁ ∧
    ReflTransGen (Moves step a) s₁ s' ∧ done s' op v r

/-- At every moment at most one step is there, and after the return there is none. -/
structure Deterministic (step : σ → Act → Option σ) (done : σ → Op → Int → Bool → Prop) : Prop where
  one : ∀ s a, step s (.lib 0) = none ∨ step s (.malloc 0 a) = none
  stops : ∀ s op v r a, done s op v r → step s (.lib 0) = none ∧ step s (.malloc 0 a) = none
  result : ∀ s op v r r', done s op v r → done s op v r' → r = r'

theorem Deterministic.unique (seq : Deterministic step done) {a : Nat} {s s' s'' : σ}
    (move : Moves step a s s') (move' : Moves step a s s'') : s' = s'' := by
  rcases seq.one s a with none | none
  · have fst := move.resolve_left (by rw [none]; rintro ⟨⟩)
    have snd := move'.resolve_left (by rw [none]; rintro ⟨⟩)
    exact Option.some.inj (fst.symm.trans snd)
  · have fst := move.resolve_right (by rw [none]; rintro ⟨⟩)
    have snd := move'.resolve_right (by rw [none]; rintro ⟨⟩)
    exact Option.some.inj (fst.symm.trans snd)

theorem Deterministic.final (seq : Deterministic step done) {op : Op} {v : Int} {r : Bool} {a : Nat}
    {s s' : σ} (ended : done s op v r) : ¬ Moves step a s s' := by
  obtain ⟨lib, malloc⟩ := seq.stops s op v r a ended
  rintro (move | move)
  · rw [lib] at move
    cases move
  · rw [malloc] at move
    cases move

theorem Deterministic.call (seq : Deterministic step done) {op : Op} {v : Int} {r : Bool} {a : Nat}
    {s s₁ s' : σ} (start : step s (.call 0 op v) = some s₁) (path : ReflTransGen (Moves step a) s₁ s')
    (ended : done s' op v r) : ThreadCall step done op v a s r s' := by
  refine ⟨s₁, start, ?_, path, ended⟩
  clear start
  induction path using ReflTransGen.head_induction_on with
  | refl => exact .intro _ fun s'' move => absurd move (seq.final ended)
  | @head s s'' move _ ih =>
    refine .intro _ fun s''' other => ?_
    obtain rfl := seq.unique move other
    exact ih

theorem Deterministic.call_unique (seq : Deterministic step done) {op : Op} {v : Int} {r r' : Bool}
    {a : Nat} {s s' s'' : σ} (call : ThreadCall step done op v a s r s')
    (call' : ThreadCall step done op v a s r' s'') : r = r' ∧ s' = s'' := by
  obtain ⟨s₁, start, -, path, ended⟩ := call
  obtain ⟨s₂, start', -, path', ended'⟩ := call'
  obtain rfl := Option.some.inj (start.symm.trans start')
  have right : Relator.RightUnique (Moves step a) := fun _ _ _ move move' => seq.unique move move'
  have same : s' = s'' := by
    rcases path.total_of_right_unique right path' with on | on
    · rcases on.cases_head with eq | ⟨_, move, -⟩
      · exact eq
      · exact absurd move (seq.final ended)
    · rcases on.cases_head with eq | ⟨_, move, -⟩
      · exact eq.symm
      · exact absurd move (seq.final ended')
  subst same
  exact ⟨seq.result s' op v r r' ended ended', rfl⟩

end Calls

/-! ### The list between the calls -/

/-- The list in memory, and no `p_next` on it is marked. -/
structure Clean (list : ListT) (h : Heap) (used : Nat → Bool) (S : Finset Int) : Prop where
  holds : Holds list h.next h.val used S
  unmarked : ∀ a, Path h.next list.pMax list.pHead a → isMarkedRef (h.pNext a) = false

section Clean
variable {list : ListT} {h : Heap} {used : Nat → Bool} {S : Finset Int} {v : Int} {a b : Nat}

theorem Clean.pNext (clean : Clean list h used S) (reached : Path h.next list.pMax list.pHead a) :
    h.pNext a = ref (h.next a) := by
  have unmarked := clean.unmarked a reached
  unfold Heap.next ref
  cases eq : h.pNext a with
  | mk addr marked =>
    rw [eq] at unmarked
    exact congrArg (Ref.mk addr) unmarked

theorem Clean.null_max (clean : Clean list h used S) : h.pNext list.pMax = null := by
  rw [clean.pNext clean.holds.lists.ends, clean.holds.maxNext]
  rfl

theorem Clean.ne_null (clean : Clean list h used S) (reached : Path h.next list.pMax list.pHead a)
    (outer : a ≠ list.pMax) : h.pNext a ≠ null := fun eq =>
  clean.holds.ne_zero (clean.holds.lists.reached_next reached outer) (congrArg Ref.addr eq)

theorem Clean.contains (clean : Clean list h used S) (lo : listValMin < v) (hi : v < listValMax)
    (place : Place h.next h.val list.pHead list.pMax v b) :
    (!(h.pNext (h.next b) = null || h.val (h.next b) ≠ v)) = decide (v ∈ S) := by
  have mem := clean.holds.mem_iff lo hi place
  by_cases present : h.val (h.next b) = v
  · have outer : h.next b ≠ list.pMax := by
      intro eq
      rw [eq, clean.holds.maxVal] at present
      exact hi.ne' present
    have inner := clean.ne_null (clean.holds.lists.reached_next place.reached place.outer) outer
    rw [decide_eq_true (mem.mpr present), decide_eq_false inner, decide_eq_false (not_not.mpr present)]
    rfl
  · rw [decide_eq_false (mem.not.mpr present), decide_eq_true present, Bool.or_true]
    rfl

/-- The node before the place still links the one behind it once a new node is filled in. -/
theorem Clean.link_filled (clean : Clean list h used S) (fresh : Fresh used a)
    (place : Place h.next h.val list.pHead list.pMax v b) (r : Ref) :
    Function.update h.pNext a r b = ref (h.next b) := by
  rw [Function.update_of_ne (clean.holds.ne_fresh fresh place.reached)]
  exact clean.pNext place.reached

theorem Clean.link_marked (clean : Clean list h used S)
    (place : Place h.next h.val list.pHead list.pMax v b) (r : Ref) :
    (h.setNext (h.next b) r).pNext b = ref (h.next b) := by
  rw [Heap.setNext_of_ne (clean.holds.ne_next place)]
  exact clean.pNext place.reached

end Clean

structure CleanAll {ι : Type*} (lists : ι → ListT) (h : Heap) (used : Nat → Bool)
    (S : ι → Finset Int) : Prop where
  holds : HoldsAll lists h.next h.val used S
  unmarked : ∀ i a, Path h.next (lists i).pMax (lists i).pHead a → isMarkedRef (h.pNext a) = false

section CleanAll
variable {ι : Type*} {lists : ι → ListT} {h : Heap} {used : Nat → Bool} {S : ι → Finset Int} {v : Int}
  {a b : Nat} {i : ι}

theorem CleanAll.each (clean : CleanAll lists h used S) (i : ι) : Clean (lists i) h used (S i) :=
  ⟨clean.holds.each i, clean.unmarked i⟩

theorem Clean.all {list : ListT} {S : Finset Int} (clean : Clean list h used S) :
    CleanAll (fun _ : Unit => list) h used fun _ => S := ⟨clean.holds.all, fun _ => clean.unmarked⟩

variable [DecidableEq ι]

theorem CleanAll.insert (clean : CleanAll lists h used S) (fresh : Fresh used a)
    (place : Place h.next h.val (lists i).pHead (lists i).pMax v b) (absent : h.val (h.next b) ≠ v) :
    CleanAll lists ((⟨Function.update h.val a v, Function.update h.pNext a (ref (h.next b))⟩ :
      Heap).setNext b (ref a)) (Function.update used a true) (Function.update S i (insert v (S i))) := by
  have filled : (⟨Function.update h.val a v, Function.update h.pNext a (ref (h.next b))⟩ : Heap).next =
      Function.update h.next a (h.next b) := Heap.setNext_next (h := h) (r := ref (h.next b))
  have links : ((⟨Function.update h.val a v, Function.update h.pNext a (ref (h.next b))⟩ : Heap).setNext
      b (ref a)).next = Function.update (Function.update h.next a (h.next b)) b a := by
    rw [Heap.setNext_next, filled]
    rfl
  constructor
  · rw [links]
    exact clean.holds.insert fresh place absent
  · intro j c path
    rw [links] at path
    show isMarkedRef (Function.update (Function.update h.pNext a _) b _ c) = false
    by_cases atB : c = b
    · rw [atB, Function.update_self]
      rfl
    · rw [Function.update_of_ne atB]
      by_cases new : c = a
      · rw [new, Function.update_self]
        rfl
      · rw [Function.update_of_ne new]
        rcases clean.holds.insert_reached fresh place path with ⟨eq, -⟩ | old
        · exact absurd eq new
        · exact clean.unmarked j c old

theorem CleanAll.erase (clean : CleanAll lists h used S)
    (place : Place h.next h.val (lists i).pHead (lists i).pMax v b) (present : h.val (h.next b) = v)
    (hi : v < listValMax) : CleanAll lists ((h.setNext (h.next b)
      (getMarkedRef (h.pNext (h.next b)))).setNext b (h.pNext (h.next b))) used
      (Function.update S i ((S i).erase v)) := by
  have marked : (h.setNext (h.next b) (getMarkedRef (h.pNext (h.next b)))).next = h.next := by
    rw [Heap.setNext_next]
    exact Function.update_eq_self _ _
  have links : ((h.setNext (h.next b) (getMarkedRef (h.pNext (h.next b)))).setNext b
      (h.pNext (h.next b))).next = Function.update h.next b (h.next (h.next b)) := by
    rw [Heap.setNext_next, marked]
    rfl
  have here := (clean.holds.each i).lists.reached_next place.reached place.outer
  constructor
  · rw [links]
    exact clean.holds.erase place present hi (fun _ _ _ _ => rfl) fun _ free => free
  · intro j c path
    rw [links] at path
    by_cases atB : c = b
    · rw [atB, Heap.setNext_self]
      exact clean.unmarked i _ here
    · have ne : c ≠ h.next b := by
        rintro rfl
        exact clean.holds.erase_gone place present hi j path
      rw [Heap.setNext_of_ne atB, Heap.setNext_of_ne ne]
      exact clean.unmarked j c (clean.holds.erase_reached place present hi path)

end CleanAll

/-! ### `harris_list_*` -/

section HarrisList
open Harris

variable {list : ListT} {s : Harris.State} {h h' : Heap} {used : Nat → Bool} {S : Finset Int} {v : Int}
  {a b c : Nat} {op : Op} {pc : Harris.Pc}

def HarrisDone (s : Harris.State) (op : Op) (v : Int) (r : Bool) : Prop := s.thread 0 = .done op v r

def HarrisCall (list : ListT) (op : Op) (v : Int) (a : Nat) (s : Harris.State) (r : Bool) (s' : Harris.State) : Prop :=
  ThreadCall (Harris.step .harris list) HarrisDone op v a s r s'

theorem step_malloc_of_lib {x : Variant} {e : Heap × Option Nat × Harris.Pc}
    (lib : Harris.libStep x list s.heap (s.thread 0) = some e) (a : Nat) :
    Harris.step x list s (.malloc 0 a) = none := by
  simp only [Harris.step]
  split
  · rename_i eq
    rw [eq] at lib
    cases lib
  · rfl

theorem harris_deterministic : Deterministic (Harris.step .harris list) HarrisDone where
  one := by
    intro s a
    cases eq : Harris.libStep .harris list s.heap (s.thread 0) with
    | none =>
      left
      simp only [Harris.step, eq, Option.map_none]
    | some e => exact .inr (step_malloc_of_lib eq a)
  stops := by
    intro s op v r a ended
    unfold HarrisDone at ended
    simp only [Harris.step, ended]
    exact ⟨rfl, trivial⟩
  result := by
    intro s op v r r' ended ended'
    have eq := ended.symm.trans ended'
    injection eq

/-- The calling thread gets to `pc` with a heap and the allocated nodes. -/
def Gets (list : ListT) (a : Nat) (s : Harris.State) (h : Heap) (used : Nat → Bool) (pc : Harris.Pc) : Prop :=
  ∃ s', ReflTransGen (Moves (Harris.step .harris list) a) s s' ∧ s'.heap = h ∧ s'.used = used ∧ s'.thread 0 = pc

theorem Gets.lib {e : Heap × Option Nat × Harris.Pc} (gets : Gets list a s h used pc)
    (eq : Harris.libStep .harris list h pc = some e) : Gets list a s e.1 used e.2.2 := by
  obtain ⟨s', path, rfl, rfl, rfl⟩ := gets
  exact ⟨_, path.tail (.inl (congrArg (Option.map _) eq)), rfl, rfl, Function.update_self 0 _ s'.thread⟩

theorem Gets.malloc {left right : Nat} (gets : Gets list a s h used (.malloc v left right))
    (fresh : Fresh used a) : Gets list a s
      ⟨Function.update h.val a v, Function.update h.pNext a (ref right)⟩ (Function.update used a true)
      (.insert v left right a) := by
  obtain ⟨s', path, rfl, rfl, eq⟩ := gets
  have stepped : Harris.step .harris list s' (.malloc 0 a) = some { s' with
      heap := ⟨Function.update s'.heap.val a v, Function.update s'.heap.pNext a (ref right)⟩
      used := Function.update s'.used a true
      thread := Function.update s'.thread 0 (.insert v left right a) } := by
    simp only [Harris.step, eq]
    exact if_pos fresh
  exact ⟨_, path.tail (.inr stepped), rfl, rfl, Function.update_self 0 _ s'.thread⟩

theorem Gets.search {p : SearchPc} (gets : Gets list a s h used (.search (.call op) v p))
    (p' : SearchPc) (eq : searchStep .harris list v h p = (h, .inl p')) :
    Gets list a s h used (.search (.call op) v p') := by
  refine gets.lib (e := (h, none, .search (.call op) v p')) ?_
  simp only [Harris.libStep, Harris.Caller.variant, eq]

theorem Gets.found {p : SearchPc} {l : Locals} (gets : Gets list a s h used (.search (.call op) v p))
    (eq : searchStep .harris list v h p = (h, .inr l)) :
    Gets list a s h used (afterSearch h v l (.call op)) := by
  refine gets.lib (e := (h, none, afterSearch h v l (.call op))) ?_
  simp only [Harris.libStep, Harris.Caller.variant, eq]

theorem Gets.scan {m : Nat} (clean : Clean list h used S) (hi : v < listValMax)
    (scan : Scan h.next h.val v c b) (reached : Path h.next list.pMax list.pHead c)
    (outer : c ≠ list.pMax)
    (gets : Gets list a s h used (.search (.call op) v (.checkNext ⟨c, m, h.next c, h.next c⟩))) :
    Gets list a s h used (.search (.call op) v (.testNull ⟨b, m, h.next b, h.next b⟩)) := by
  induction scan with
  | @here c stop =>
    have there := clean.holds.lists.reached_next reached outer
    have stopped : (⟨c, m, h.next c, h.next c⟩ : Locals).scanned =
        .testNull ⟨c, m, h.next c, h.next c⟩ := if_pos rfl
    by_cases last : h.pNext (h.next c) = null
    · refine gets.search _ ?_
      simp only [searchStep, if_pos last, stopped]
    · have on := gets.search (.readNext ⟨c, m, h.next c, h.next c⟩) (by
        simp only [searchStep, if_neg last])
      refine on.search _ ?_
      have unmarked := clean.unmarked _ there
      simp only [searchStep, unmarked, stop, or_self, Bool.false_eq_true, if_false, stopped]
  | @on c b below _ ih =>
    have there := clean.holds.lists.reached_next reached outer
    have inner : h.next c ≠ list.pMax := by
      intro eq
      rw [eq, clean.holds.maxVal] at below
      exact absurd hi below.not_gt
    have on := gets.search (.readNext ⟨c, m, h.next c, h.next c⟩) (by
      simp only [searchStep, if_neg (clean.ne_null there inner)])
    refine ih there inner (on.search _ ?_)
    have unmarked := clean.unmarked _ there
    simp only [searchStep, below, or_true, if_true, Locals.advance, unmarked]
    rfl

theorem Gets.returns {l : Locals} (clean : Clean list h used S) (lo : listValMin < v)
    (hi : v < listValMax) (gets : Gets list a s h used (.search (.call op) v (.start l))) :
    ∃ b m, Place h.next h.val list.pHead list.pMax v b ∧
      Gets list a s h used (afterSearch h v ⟨b, m, h.next b, h.next b⟩ (.call op)) := by
  obtain ⟨b, scan, place⟩ := clean.holds.scan lo hi
  refine ⟨b, l.myLeftNode, place, ?_⟩
  have unmarked := clean.unmarked _ (.refl list.pHead)
  have started := gets.search (.checkNext ⟨list.pHead, l.myLeftNode, h.next list.pHead,
    h.next list.pHead⟩) (by simp only [searchStep, Locals.advance, unmarked]; rfl)
  have scanned := started.scan clean hi scan (.refl _) clean.holds.lists.outer
  by_cases last : h.pNext (h.next b) = null
  · refine scanned.found ?_
    simp only [searchStep, if_pos last, Locals.returned]
  · have tested := scanned.search (.testMark ⟨b, l.myLeftNode, h.next b, h.next b⟩) (by
      simp only [searchStep, if_neg last])
    refine tested.found ?_
    have unmarked := clean.unmarked _ (clean.holds.lists.reached_next place.reached place.outer)
    simp only [searchStep, unmarked, Bool.false_eq_true, if_false, Locals.returned]

variable {ι : Type*} [DecidableEq ι] {lists : ι → ListT} {T : ι → Finset Int} {i : ι}

/-- A call of thread 0, from its first search to its return. -/
theorem Gets.call {l : Locals} (all : CleanAll lists h used T) (lo : listValMin < v)
    (hi : v < listValMax) (fresh : Fresh used a)
    (gets : Gets (lists i) a s h used (.search (.call op) v (.start l))) : ∃ h' used',
    Gets (lists i) a s h' used' (.done op v (apply (T i) v op).1) ∧
      CleanAll lists h' used' (Function.update T i (apply (T i) v op).2) := by
  have clean := all.each i
  obtain ⟨b, m, place, found⟩ := gets.returns clean lo hi
  have there := clean.holds.lists.reached_next place.reached place.outer
  have mem := clean.holds.mem_iff lo hi place
  have same : CleanAll lists h used (Function.update T i (T i)) := by rwa [Function.update_eq_self]
  cases op with
  | contains =>
    have tested := found.lib (e := (h, none, .done .contains v
      (!(h.pNext (h.next b) = null || h.val (h.next b) ≠ v)))) rfl
    rw [clean.contains lo hi place] at tested
    exact ⟨h, used, tested, same⟩
  | add =>
    by_cases present : h.val (h.next b) = v
    · rw [show afterSearch h v ⟨b, m, h.next b, h.next b⟩ (.call .add) = .done .add v false from
        if_pos present] at found
      rw [apply_add_of_mem (mem.mpr present)]
      exact ⟨h, used, found, same⟩
    · rw [show afterSearch h v ⟨b, m, h.next b, h.next b⟩ (.call .add) = .malloc v b (h.next b) from
        if_neg present] at found
      have linked := (found.malloc fresh).lib (e := (_, some a, .done .add v true))
        (if_pos (clean.link_filled fresh place _))
      rw [apply_add_of_notMem (mem.not.mpr present)]
      exact ⟨_, _, linked, all.insert fresh place present⟩
  | remove =>
    by_cases present : h.val (h.next b) = v
    · rw [show afterSearch h v ⟨b, m, h.next b, h.next b⟩ (.call .remove) = .loadNext v b (h.next b) from
        if_neg (not_not.mpr present)] at found
      have unmarked := clean.unmarked _ there
      have loaded := found.lib (e := (h, none, .mark v b (h.next b) (h.pNext (h.next b))))
        (if_neg (by rw [unmarked]; decide))
      have marked := loaded.lib (e := (_, none, .unlink v b (h.next b) (h.pNext (h.next b)))) (if_pos rfl)
      have unlinked := marked.lib (e := (_, none, .done .remove v true))
        (if_pos (clean.link_marked place _))
      rw [apply_remove_of_mem (mem.mpr present)]
      exact ⟨_, _, unlinked, all.erase place present hi⟩
    · rw [show afterSearch h v ⟨b, m, h.next b, h.next b⟩ (.call .remove) = .done .remove v false from
        if_pos present] at found
      rw [apply_remove_of_notMem (mem.not.mpr present)]
      exact ⟨h, used, found, same⟩

structure HarrisRep (lists : ι → ListT) (s : Harris.State) (T : ι → Finset Int) : Prop where
  rest : (s.thread 0).atRest = true
  clean : CleanAll lists s.heap s.used T

theorem harrisCall_returns (rep : HarrisRep lists s T) (lo : listValMin < v) (hi : v < listValMax)
    (fresh : Fresh s.used a) (op : Op) (i : ι) : ∃ s',
      HarrisCall (lists i) op v a s (apply (T i) v op).1 s' ∧
      HarrisRep lists s' (Function.update T i (apply (T i) v op).2) := by
  obtain ⟨s₁, start, heap, used, thread⟩ : ∃ s₁,
      Harris.step .harris (lists i) s (.call 0 op v) = some s₁ ∧
      s₁.heap = s.heap ∧ s₁.used = s.used ∧
      s₁.thread 0 = .search (.call op) v (.start (.enter (lists i) (lists i).pHead)) :=
    ⟨_, if_pos ⟨rep.rest, lo, hi⟩, rfl, rfl, Function.update_self 0 _ s.thread⟩
  obtain ⟨h', used', ⟨s', path, rfl, rfl, ended⟩, clean⟩ := Gets.call rep.clean lo hi fresh
    ⟨s₁, .refl, heap, used, thread⟩
  refine ⟨s', harris_deterministic.call start path ended, ?_, clean⟩
  rw [ended]
  rfl

theorem harrisList_implements (lists : ι → ListT) :
    ImplementsAll AlwaysAll (fun i => HarrisCall (lists i)) (fun s => Fresh s.used)
      (HarrisRep lists) where
  room := fun i _ _ rep => (rep.clean.holds.each i).fresh
  returns := by
    intro i s S op v a rep lo hi fresh _
    obtain ⟨s', call, -⟩ := harrisCall_returns rep lo hi fresh op i
    exact ⟨_, s', call⟩
  agrees := by
    intro i s S op v a r s' rep lo hi fresh _ call
    obtain ⟨s'', call', rep'⟩ := harrisCall_returns rep lo hi fresh op i
    obtain ⟨rfl, rfl⟩ := harris_deterministic.call_unique call call'
    exact ⟨rfl, rep'⟩

end HarrisList

end ReadLogUpdate.Sequential
