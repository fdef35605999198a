import ReadLogUpdate.Harris.Shape

/-!
# What a thread knows

At each control point a thread knows something of the nodes in its locals that no step of another
thread takes away. With it every step of a thread keeps the shape of the list.
-/

namespace ReadLogUpdate.Harris

open Chain

/-- A linked node with a key below `v`. -/
def State.Left (s : State) (v : Int) (a : Nat) : Prop := s.Linked a ∧ s.heap.val a < v

def Locals.found (x : Variant) (l : Locals) : Nat :=
  match x with
  | .harris => l.leftNode
  | .hpHarris => l.myLeftNode

/-- The nodes from `left_node_next` to `t` are marked. -/
def State.Scanned (s : State) (l : Locals) : Prop :=
  s.Linked l.leftNodeNext ∧ s.Linked l.t ∧ s.heap.Frozen l.leftNodeNext l.t

def SearchKnows (s : State) (v : Int) : SearchPc → Prop
  | .start l => s.Left v l.leftNode ∧ s.Left v l.myLeftNode
  | .checkNext l | .readNext l => s.Left v l.leftNode ∧ s.Left v l.myLeftNode ∧ s.Scanned l
  | .cas l => s.Left v l.leftNode ∧ s.Left v l.myLeftNode ∧ s.Scanned l ∧ v ≤ s.heap.val l.t
  | .testNull l | .testMark l => s.Left v l.leftNode ∧ s.Left v l.myLeftNode ∧ s.Linked l.t ∧
      v ≤ s.heap.val l.t

def Knows (s : State) : Pc → Prop
  | .idle | .done _ _ _ => True
  | .search _ v pc => listValMin < v ∧ v < listValMax ∧ SearchKnows s v pc
  | .containsTest v right => listValMin < v ∧ v < listValMax ∧ s.Linked right ∧ v ≤ s.heap.val right
  | .malloc v left right => listValMin < v ∧ v < listValMax ∧ s.Left v left ∧ s.Linked right ∧
      v < s.heap.val right
  | .insert v left right new => listValMin < v ∧ v < listValMax ∧ s.Left v left ∧ s.Linked right ∧
      v < s.heap.val right ∧ s.used new = true ∧ ¬ s.Linked new ∧ s.heap.pNext new = ref right ∧
      s.heap.val new = v
  | .loadNext v left right => listValMin < v ∧ v < listValMax ∧ s.Left v left ∧ s.Linked right ∧
      s.heap.val right = v
  | .mark v left right next => listValMin < v ∧ v < listValMax ∧ s.Left v left ∧ s.Linked right ∧
      s.heap.val right = v ∧ next.marked = false
  | .unlink v left right next => listValMin < v ∧ v < listValMax ∧ s.Left v left ∧ s.Linked right ∧
      s.heap.val right = v ∧ next.marked = false ∧ s.heap.pNext right = getMarkedRef next

def Pc.newNode : Pc → Option Nat
  | .insert _ _ _ new => some new
  | _ => none

structure Inv (list : ListT) (s : State) : Prop where
  shape : Shape list s
  knows : ∀ t, Knows s (s.thread t)
  apart : ∀ t u a, (s.thread t).newNode = some a → (s.thread u).newNode = some a → t = u

section Stable
variable {list : ListT} {s s' : State} {v : Int}

theorem State.Left.mono (shape : Shape list s) (grows : Grows s s') {a : Nat} (left : s.Left v a) :
    s'.Left v a :=
  ⟨grows.linked a left.1, by rw [grows.val a (shape.used a left.1)]; exact left.2⟩

theorem Heap.Frozen.mono (shape : Shape list s) (grows : Grows s s') {a b : Nat} (here : s.Linked a)
    (frozen : s.heap.Frozen a b) : s'.heap.Frozen a b := by
  unfold Heap.Frozen at *
  induction frozen with
  | nil => exact .nil _
  | @cons a b gone rest ih =>
    have same := grows.frozen a (shape.used a here) gone
    have gone' : s'.heap.dead a := by
      unfold Heap.dead
      rw [same]
      exact gone
    have next : s'.heap.next a = s.heap.next a := by
      unfold Heap.next
      rw [same]
    refine .cons gone' ?_
    rw [next]
    exact ih (shape.sorted.next_linked a here (shape.outer_of_dead gone))

theorem State.Scanned.mono (shape : Shape list s) (grows : Grows s s') {l : Locals}
    (scanned : s.Scanned l) : s'.Scanned l :=
  ⟨grows.linked _ scanned.1, grows.linked _ scanned.2.1, scanned.2.2.mono shape grows scanned.1⟩

theorem SearchKnows.mono (shape : Shape list s) (grows : Grows s s') {pc : SearchPc}
    (knows : SearchKnows s v pc) : SearchKnows s' v pc := by
  have val {a : Nat} (here : s.Linked a) := grows.val a (shape.used a here)
  cases pc with
  | start l => exact ⟨knows.1.mono shape grows, knows.2.mono shape grows⟩
  | checkNext l | readNext l =>
    exact ⟨knows.1.mono shape grows, knows.2.1.mono shape grows, knows.2.2.mono shape grows⟩
  | cas l =>
    exact ⟨knows.1.mono shape grows, knows.2.1.mono shape grows, knows.2.2.1.mono shape grows,
      by rw [val knows.2.2.1.2.1]; exact knows.2.2.2⟩
  | testNull l | testMark l =>
    exact ⟨knows.1.mono shape grows, knows.2.1.mono shape grows, grows.linked _ knows.2.2.1,
      by rw [val knows.2.2.1]; exact knows.2.2.2⟩

theorem Knows.mono (shape : Shape list s) (grows : Grows s s') {pc : Pc} (knows : Knows s pc)
    (unlinked : ∀ a, pc.newNode = some a → ¬ s'.Linked a) : Knows s' pc := by
  have val {a : Nat} (here : s.Linked a) := grows.val a (shape.used a here)
  cases pc with
  | idle | done op v r => trivial
  | search k v pc => exact ⟨knows.1, knows.2.1, knows.2.2.mono shape grows⟩
  | containsTest v right =>
    obtain ⟨lo, hi, here, le⟩ := knows
    exact ⟨lo, hi, grows.linked _ here, by rwa [val here]⟩
  | malloc v left right =>
    obtain ⟨lo, hi, left, here, lt⟩ := knows
    exact ⟨lo, hi, left.mono shape grows, grows.linked _ here, by rwa [val here]⟩
  | insert v left right new =>
    obtain ⟨lo, hi, left, here, lt, used, private_, next, key⟩ := knows
    exact ⟨lo, hi, left.mono shape grows, grows.linked _ here, by rwa [val here], grows.used _ used,
      unlinked new rfl, by rwa [grows.alone new used private_], by rwa [grows.val new used]⟩
  | loadNext v left right =>
    obtain ⟨lo, hi, left, here, key⟩ := knows
    exact ⟨lo, hi, left.mono shape grows, grows.linked _ here, by rwa [val here]⟩
  | mark v left right next =>
    obtain ⟨lo, hi, left, here, key, unmarked⟩ := knows
    exact ⟨lo, hi, left.mono shape grows, grows.linked _ here, by rwa [val here], unmarked⟩
  | unlink v left right next =>
    obtain ⟨lo, hi, left, here, key, unmarked, marked⟩ := knows
    refine ⟨lo, hi, left.mono shape grows, grows.linked _ here, by rwa [val here], unmarked, ?_⟩
    rw [grows.frozen right (shape.used right here) ?_]
    · exact marked
    · unfold Heap.dead
      rw [marked]
      rfl

end Stable

section Search
variable {x : Variant} {list : ListT} {s s' : State} {v : Int} {l : Locals}

theorem Shape.live_of_ref (shape : Shape list s) {a b : Nat} (here : s.Linked a)
    (next : s.heap.pNext a = ref b) (there : s.Linked b) :
    ¬ s.heap.dead a ∧ a ≠ list.pMax ∧ s.heap.next a = b := by
  refine ⟨?_, ?_, ?_⟩
  · unfold Heap.dead
    rw [next]
    nofun
  · rintro rfl
    have zero := congrArg Ref.addr (shape.maxNext.symm.trans next)
    exact shape.ne_zero there zero.symm
  · unfold Heap.next
    rw [next]
    rfl

theorem Shape.val_lt_max (shape : Shape list s) {a : Nat} (left : s.Left v a) (hi : v < listValMax) :
    a ≠ list.pMax := by
  rintro rfl
  have := left.2
  rw [shape.maxVal] at this
  omega

/-- The loop body past a node that is not the max sentinel. -/
theorem Shape.advance (shape : Shape list s) (left : s.Left v l.leftNode)
    (mine : s.Left v l.myLeftNode) (here : s.Linked l.t) (outer : l.t ≠ list.pMax)
    (run : ¬ s.heap.dead l.t → s.heap.val l.t < v)
    (scanned : s.heap.dead l.t → s.Linked l.leftNodeNext ∧ s.heap.Frozen l.leftNodeNext l.t) :
    SearchKnows s v (.checkNext (l.advance x (s.heap.pNext l.t))) := by
  have there := shape.sorted.next_linked l.t here outer
  unfold Locals.advance isMarkedRef getUnmarkedRef
  split_ifs with gone
  · obtain ⟨first, frozen⟩ := scanned gone
    exact ⟨left, mine, first, there, frozen.snoc gone⟩
  · have found : s.Left v l.t := ⟨here, run gone⟩
    cases x with
    | harris => exact ⟨found, mine, there, there, .nil _⟩
    | hpHarris => exact ⟨left, found, there, there, .nil _⟩

theorem SearchKnows.scanned (left : s.Left v l.leftNode) (mine : s.Left v l.myLeftNode)
    (scanned : s.Scanned l) (le : v ≤ s.heap.val l.t) : SearchKnows s v l.scanned := by
  unfold Locals.scanned
  split_ifs
  · exact ⟨left, mine, scanned.2.1, le⟩
  · exact ⟨left, mine, scanned, le⟩

def SearchEnds (s : State) (v : Int) : SearchPc ⊕ Locals → Prop
  | .inl pc => SearchKnows s v pc
  | .inr l => s.Left v l.leftNode ∧ s.Linked l.t ∧ v ≤ s.heap.val l.t

theorem SearchEnds.mono (shape : Shape list s) (grows : Grows s s') {r : SearchPc ⊕ Locals}
    (ends : SearchEnds s v r) : SearchEnds s' v r := by
  cases r with
  | inl pc => exact SearchKnows.mono shape grows ends
  | inr l =>
    obtain ⟨left, here, le⟩ := ends
    exact ⟨left.mono shape grows, grows.linked _ here, by rwa [grows.val _ (shape.used _ here)]⟩

/-- A step of the search that finds the heap as it is. -/
theorem searchStep_ends (shape : Shape list s) (lo : listValMin < v) (hi : v < listValMax)
    {pc : SearchPc} (knows : SearchKnows s v pc) : SearchEnds s v (searchStep x list v s.heap pc).2 := by
  have returns {l : Locals} (left : s.Left v l.leftNode) (mine : s.Left v l.myLeftNode)
      (here : s.Linked l.t) (le : v ≤ s.heap.val l.t) : SearchEnds s v (.inr (l.returned x)) := by
    cases x with
    | harris => exact ⟨left, here, le⟩
    | hpHarris => exact ⟨mine, here, le⟩
  cases pc with
  | start l =>
    obtain ⟨left, mine⟩ := knows
    have first : s.heap.val list.pHead < v := by rw [shape.headVal]; exact lo
    exact Shape.advance (l := { l with leftNodeNext := list.pHead, t := list.pHead }) shape left mine
      shape.head list.ne (fun _ => first) fun gone => absurd gone shape.headLive
  | checkNext l =>
    obtain ⟨left, mine, scanned⟩ := knows
    simp only [searchStep]
    split_ifs with isNull
    · refine SearchKnows.scanned left mine scanned ?_
      rw [shape.eq_max scanned.2.1 isNull, shape.maxVal]
      omega
    · exact ⟨left, mine, scanned⟩
  | readNext l =>
    obtain ⟨left, mine, scanned⟩ := knows
    simp only [searchStep]
    split_ifs with more
    · refine shape.advance left mine scanned.2.1 ?_ (fun live => more.resolve_left live)
        fun _ => ⟨scanned.1, scanned.2.2⟩
      rcases more with gone | lt
      · exact shape.outer_of_dead gone
      · exact shape.val_lt_max ⟨scanned.2.1, lt⟩ hi
    · exact SearchKnows.scanned left mine scanned (Int.not_lt.mp fun lt => more (.inr lt))
  | cas l =>
    obtain ⟨left, mine, scanned, le⟩ := knows
    simp only [searchStep]
    split_ifs
    · exact ⟨left, mine, scanned.2.1, le⟩
    · exact ⟨left, mine⟩
  | testNull l =>
    obtain ⟨left, mine, here, le⟩ := knows
    simp only [searchStep]
    split_ifs
    · exact returns left mine here le
    · exact ⟨left, mine, here, le⟩
  | testMark l =>
    obtain ⟨left, mine, here, le⟩ := knows
    simp only [searchStep]
    split_ifs
    · exact ⟨left, mine⟩
    · exact returns left mine here le

/-- A step of the search unlinks marked nodes, or changes nothing. -/
theorem searchStep_heap (shape : Shape list s) {pc : SearchPc} (knows : SearchKnows s v pc)
    (heap : s'.heap = (searchStep x list v s.heap pc).1) (used : s'.used = s.used)
    (linked : s'.linked = s.linked) : HeapStep list s s' := by
  cases pc with
  | cas l =>
    obtain ⟨left, mine, scanned, le⟩ := knows
    simp only [searchStep] at heap
    split_ifs at heap with expected
    · obtain ⟨live, outer, next⟩ := shape.live_of_ref left.1 expected scanned.1
      exact .unlink l.leftNode l.t left.1 live outer (next ▸ scanned.2.2) heap used linked
    · exact .same heap used linked
  | start l => exact .same heap used linked
  | checkNext l | readNext l | testNull l | testMark l =>
    refine .same (heap.trans ?_) used linked
    simp only [searchStep]
    split_ifs <;> rfl

end Search

/-! ### The steps of a thread -/

section Step
variable {x : Variant} {list : ListT} {s s' : State} {a : Act}

def State.after (s : State) (t : Nat) (e : Heap × Option Nat × Pc) : State :=
  { s with
    heap := e.1
    linked := match e.2.1 with
      | some a => Function.update s.linked a true
      | none => s.linked
    thread := Function.update s.thread t e.2.2 }

theorem again_knows (shape : Shape list s) {op : Op} {v : Int} {left : Nat} (lo : listValMin < v)
    (hi : v < listValMax) (knows : s.Left v left) : Knows s (again x list op v left) := by
  have first : s.Left v list.pHead := ⟨shape.head, by rw [shape.headVal]; exact lo⟩
  cases x with
  | harris => exact ⟨lo, hi, knows, knows⟩
  | hpHarris => exact ⟨lo, hi, first, first⟩

theorem again_newNode {op : Op} {v : Int} {left : Nat} : (again x list op v left).newNode = none := by
  cases x <;> rfl

theorem afterSearch_knows {k : Caller} {v : Int} {l : Locals} (lo : listValMin < v)
    (hi : v < listValMax) (ends : SearchEnds s v (.inr l)) : Knows s (afterSearch s.heap v l k) := by
  obtain ⟨left, here, le⟩ := ends
  cases k with
  | cleanup => trivial
  | call op =>
    cases op with
    | contains => exact ⟨lo, hi, here, le⟩
    | add =>
      simp only [afterSearch]
      split_ifs with found
      · trivial
      · exact ⟨lo, hi, left, here, by omega⟩
    | remove =>
      simp only [afterSearch]
      split_ifs with found
      · trivial
      · exact ⟨lo, hi, left, here, not_not.mp found⟩

theorem afterSearch_newNode {h : Heap} {k : Caller} {v : Int} {l : Locals} :
    (afterSearch h v l k).newNode = none := by
  rcases k with (_ | _ | _) | _ <;> simp only [afterSearch] <;> (try split_ifs) <;> rfl

/-- A step of a call on the heap, and what its thread knows then. -/
theorem libStep_heap (shape : Shape list s) {t : Nat} {e : Heap × Option Nat × Pc}
    (knows : Knows s (s.thread t)) (stepped : libStep x list s.heap (s.thread t) = some e) :
    HeapStep list s (s.after t e) ∧ Knows (s.after t e) e.2.2 ∧ e.2.2.newNode = none := by
  -- a step that leaves the heap alone
  have quiet {pc : Pc} (effect : e = (s.heap, none, pc)) (next : Knows s pc) (none : pc.newNode = none) :
      HeapStep list s (s.after t e) ∧ Knows (s.after t e) e.2.2 ∧ e.2.2.newNode = .none := by
    subst effect
    have step : HeapStep list s (s.after t (s.heap, .none, pc)) := .same rfl rfl rfl
    exact ⟨step, next.mono shape step.grows fun a new => absurd (none.symm.trans new) nofun, none⟩
  cases hpc : s.thread t with
  | idle | done op v r | malloc v left right =>
    rw [hpc] at stepped
    cases stepped
  | search k v pc =>
    rw [hpc] at stepped knows
    obtain ⟨lo, hi, knows⟩ := knows
    have ends := searchStep_ends (x := k.variant x) shape lo hi knows
    simp only [libStep] at stepped
    split at stepped
    · rename_i h' pc' returned
      obtain rfl := Option.some.inj stepped
      have step : HeapStep list s (s.after t (h', none, .search k v pc')) :=
        searchStep_heap (x := k.variant x) shape knows (by rw [returned]; rfl) rfl rfl
      rw [returned] at ends
      exact ⟨step, ⟨lo, hi, SearchEnds.mono shape step.grows ends⟩, rfl⟩
    · rename_i h' l returned
      obtain rfl := Option.some.inj stepped
      have step : HeapStep list s (s.after t (h', none, afterSearch s.heap v l k)) :=
        searchStep_heap (x := k.variant x) shape knows (by rw [returned]; rfl) rfl rfl
      rw [returned] at ends
      refine ⟨step, (afterSearch_knows lo hi ends).mono shape step.grows fun a new => ?_,
        afterSearch_newNode⟩
      rw [afterSearch_newNode] at new
      cases new
  | containsTest v right =>
    rw [hpc] at stepped
    exact quiet (Option.some.inj stepped).symm trivial rfl
  | loadNext v left right =>
    rw [hpc] at stepped knows
    obtain ⟨lo, hi, left', here, key⟩ := knows
    simp only [libStep] at stepped
    split_ifs at stepped with gone
    · exact quiet (Option.some.inj stepped).symm (again_knows shape lo hi left') again_newNode
    · exact quiet (Option.some.inj stepped).symm ⟨lo, hi, left', here, key, by simpa [isMarkedRef] using gone⟩ rfl
  | insert v left right new =>
    rw [hpc] at stepped knows
    obtain ⟨lo, hi, left', here, lt, used, private_, next, key⟩ := knows
    simp only [libStep] at stepped
    split_ifs at stepped with expected
    · obtain rfl := Option.some.inj stepped
      obtain ⟨live, outer, leads⟩ := shape.live_of_ref left'.1 expected here
      refine ⟨.link left new left'.1 live outer ⟨used, private_⟩ (by rw [next, leads]) ?_ ?_ rfl rfl rfl,
        trivial, rfl⟩
      · rw [key]
        exact left'.2
      · rw [key, leads]
        exact lt
    · exact quiet (Option.some.inj stepped).symm (again_knows shape lo hi left') again_newNode
  | mark v left right next =>
    rw [hpc] at stepped knows
    obtain ⟨lo, hi, left', here, key, unmarked⟩ := knows
    simp only [libStep] at stepped
    split_ifs at stepped with expected
    · obtain rfl := Option.some.inj stepped
      have live : ¬ s.heap.dead right := by
        unfold Heap.dead
        rw [expected, unmarked]
        nofun
      have step : HeapStep list s (s.after t (s.heap.setNext right (getMarkedRef next), none,
          .unlink v left right next)) := by
        refine .mark right here live ?_ ?_ ?_ rfl rfl
        · rintro rfl
          rw [shape.headVal] at key
          omega
        · rintro rfl
          rw [shape.maxVal] at key
          omega
        · unfold Heap.next
          rw [expected]
          rfl
      refine ⟨step, ⟨lo, hi, left'.mono shape step.grows, step.grows.linked _ here, ?_, unmarked,
        Heap.setNext_self⟩, rfl⟩
      rw [step.grows.val right (shape.used right here)]
      exact key
    · exact quiet (Option.some.inj stepped).symm (again_knows shape lo hi left') again_newNode
  | unlink v left right next =>
    rw [hpc] at stepped knows
    obtain ⟨lo, hi, left', here, key, unmarked, marked⟩ := knows
    simp only [libStep] at stepped
    split_ifs at stepped with expected
    · obtain rfl := Option.some.inj stepped
      obtain ⟨live, outer, leads⟩ := shape.live_of_ref left'.1 expected here
      have gone : s.heap.dead right := by
        unfold Heap.dead
        rw [marked]
        rfl
      have run : s.heap.Frozen (s.heap.next left) next.addr := by
        rw [leads]
        have one : s.heap.Frozen right (s.heap.next right) := .cons gone (.nil _)
        rwa [show s.heap.next right = next.addr by unfold Heap.next; rw [marked]; rfl] at one
      refine ⟨.unlink left next.addr left'.1 live outer run ?_ rfl rfl, trivial, rfl⟩
      have same : next = ref next.addr := by
        cases next
        cases unmarked
        rfl
      exact congrArg (s.heap.setNext left) same
    · exact quiet (Option.some.inj stepped).symm ⟨lo, hi, left', left'⟩ rfl

/-- A step links a node only for the thread that allocated it. -/
theorem libStep_links {h h' : Heap} {new : Nat} {pc pc' : Pc}
    (stepped : libStep x list h pc = some (h', some new, pc')) : pc.newNode = some new := by
  cases pc with
  | search k v pc =>
    simp only [libStep] at stepped
    split at stepped <;> cases stepped
  | insert v left right a =>
    simp only [libStep] at stepped
    split_ifs at stepped <;> cases stepped
    rfl
  | loadNext | mark | unlink =>
    simp only [libStep] at stepped
    split_ifs at stepped <;> cases stepped
  | _ => cases stepped

theorem Inv.next (inv : Inv list s) {t : Nat} {pc : Pc} (step : HeapStep list s s')
    (thread : s'.thread = Function.update s.thread t pc) (knows : Knows s' pc)
    (fresh : ∀ u a, u ≠ t → (s.thread u).newNode = some a → ¬ s'.Linked a ∧ pc.newNode ≠ some a) :
    Inv list s' := by
  refine ⟨step.shape inv.shape, fun u => ?_, fun u w a hu hw => ?_⟩
  · rw [thread]
    by_cases own : u = t
    · subst own
      rw [Function.update_self]
      exact knows
    · rw [Function.update_of_ne own]
      exact (inv.knows u).mono inv.shape step.grows fun a new => (fresh u a own new).1
  · rw [thread] at hu hw
    by_cases own : u = t <;> by_cases own' : w = t
    · rw [own, own']
    · subst own
      rw [Function.update_self] at hu
      rw [Function.update_of_ne own'] at hw
      exact absurd hu (fresh w a own' hw).2
    · subst own'
      rw [Function.update_self] at hw
      rw [Function.update_of_ne own] at hu
      exact absurd hw (fresh u a own hu).2
    · rw [Function.update_of_ne own] at hu
      rw [Function.update_of_ne own'] at hw
      exact inv.apart u w a hu hw

/-- A node that a thread has allocated is used and not linked. -/
theorem Inv.newNode (inv : Inv list s) {t a : Nat} (new : (s.thread t).newNode = some a) :
    s.used a = true ∧ ¬ s.Linked a := by
  have knows := inv.knows t
  cases hpc : s.thread t with
  | insert v left right b =>
    rw [hpc] at new knows
    obtain rfl := Option.some.inj new
    exact ⟨knows.2.2.2.2.2.1, knows.2.2.2.2.2.2.1⟩
  | _ =>
    rw [hpc] at new
    cases new

theorem step_inv (inv : Inv list s) (hs : step x list s a = some s') :
    Inv list s' ∧ HeapStep list s s' := by
  cases a with
  | call t op v =>
    simp only [step] at hs
    split_ifs at hs with free
    have after := (Option.some.inj hs).symm
    have step : HeapStep list s s' := by
      rw [after]
      exact .same rfl rfl rfl
    subst after
    have first : s.Left v list.pHead := ⟨inv.shape.head, by rw [inv.shape.headVal]; exact free.2.1⟩
    exact ⟨inv.next step rfl ⟨free.2.1, free.2.2, first, first⟩ fun u a _ new =>
      ⟨(inv.newNode new).2, nofun⟩, step⟩
  | lib t =>
    obtain ⟨e, stepped, rfl⟩ := Option.map_eq_some_iff.mp hs
    obtain ⟨step, knows, none⟩ := libStep_heap inv.shape (inv.knows t) stepped
    refine ⟨inv.next step rfl knows fun u a ne new => ⟨fun there => ?_, by rw [none]; nofun⟩, step⟩
    obtain ⟨h', linked, pc'⟩ := e
    have private_ := (inv.newNode new).2
    cases linked with
    | none => exact private_ there
    | some b =>
      have there : Function.update s.linked b true a = true := there
      by_cases eq : a = b
      · exact ne (inv.apart u t a new (eq ▸ libStep_links stepped))
      · rw [Function.update_of_ne eq] at there
        exact private_ there
  | malloc t b =>
    simp only [step] at hs
    split at hs
    · rename_i v left right hpc
      split_ifs at hs with free
      have after := (Option.some.inj hs).symm
      have knows := inv.knows t
      rw [hpc] at knows
      obtain ⟨lo, hi, left', here, lt⟩ := knows
      have step : HeapStep list s s' := by
        rw [after]
        exact .malloc b v (ref right) free.1 free.2 rfl rfl rfl
      subst after
      refine ⟨inv.next step rfl ⟨lo, hi, left'.mono inv.shape step.grows, here, ?_,
        Function.update_self _ _ _, fun there => ?_, Function.update_self _ _ _,
        Function.update_self _ _ _⟩ fun u a ne new => ⟨(inv.newNode new).2, fun same => ?_⟩, step⟩
      · rw [step.grows.val right (inv.shape.used right here)]
        exact lt
      · have taken := inv.shape.used b there
        rw [free.2] at taken
        cases taken
      · have taken := (inv.newNode new).1
        rw [← Option.some.inj same, free.2] at taken
        cases taken
    · cases hs

theorem init_inv (list : ListT) : Inv list (State.init list) := by
  have linked {a : Nat} : (State.init list).Linked a ↔ a = list.pHead ∨ a = list.pMax := by
    unfold State.Linked State.init
    simp
  have nextHead : (State.init list).heap.next list.pHead = list.pMax := by
    unfold Heap.next State.init
    simp [ref]
  have other {a : Nat} (here : (State.init list).Linked a) (outer : a ≠ list.pMax) :
      a = list.pHead := (linked.mp here).resolve_right outer
  have headVal : (State.init list).heap.val list.pHead = listValMin := by
    unfold State.init
    simp
  have maxVal : (State.init list).heap.val list.pMax = listValMax := by
    unfold State.init
    simp [list.ne.symm]
  have order : listValMin < listValMax := by decide
  have sorted : Sorted (State.init list).heap.next (State.init list).Linked list.pMax
      (State.init list).heap.val := by
    refine ⟨fun a here outer => ?_, fun a here outer => ?_, fun a here => ?_⟩
    · rw [other here outer, nextHead]
      exact linked.mpr (.inr rfl)
    · rw [other here outer, nextHead, headVal, maxVal]
      exact order
    · rcases linked.mp here with rfl | rfl
      · rw [headVal, maxVal]
        exact order.le
      · exact le_rfl
  refine ⟨⟨linked.mpr (.inl rfl), linked.mpr (.inr rfl), fun a here => ?_, ?_, ?_, headVal, maxVal,
    fun a here inner => ?_, fun a here outer => ?_, sorted, ?_, fun a here live => ?_⟩,
    fun t => trivial, fun t u a new => absurd new nofun⟩
  · simpa [State.init] using linked.mp here
  · simp [State.init, list.head_ne.symm, list.max_ne.symm]
  · simp [State.init, list.ne.symm]
  · rw [(linked.mp here).resolve_left inner, maxVal]
    exact order
  · rw [other here outer, headVal]
    exact order
  · simp [Heap.dead, State.init, ref]
  · rcases linked.mp here with rfl | rfl
    · exact .refl _
    · exact sorted.path_last (linked.mpr (.inl rfl))

theorem reachable_inv {ok : State → Act → Prop}
    (h : System.Reachable (· = State.init list) (step x list) ok s) : Inv list s :=
  System.Reachable.invariant (Inv list) (by rintro _ rfl; exact init_inv list)
    (fun _ _ _ inv _ hs => (step_inv inv hs).1) h

end Step

end ReadLogUpdate.Harris
