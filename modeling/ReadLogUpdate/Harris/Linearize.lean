import ReadLogUpdate.Harris.Knowledge

/-!
# The abstract set

The set of unmarked keys changes at the insertion and the marking alone, and the answers of the
other calls are those of the set at a state between their call and their return.
-/

namespace ReadLogUpdate.Harris

open Chain

def Shown (list : ListT) (vs : List State) (v : Int) : Prop := ∃ m ∈ vs, v ∈ m.keys list

def Hidden (list : ListT) (vs : List State) (v : Int) : Prop := ∃ m ∈ vs, v ∉ m.keys list

/-- In some visited state a live node with a key below `v` had `b` as its next node. -/
def Gap (list : ListT) (s : State) (vs : List State) (v : Int) (b : Nat) : Prop :=
  s.Linked b ∧ ∃ m ∈ vs, Shape list m ∧ ∃ a, m.Left v a ∧ m.heap.pNext a = ref b ∧ m.Linked b ∧
    m.heap.val b = s.heap.val b

def Tells (list : ListT) (s : State) (vs : List State) (v : Int) (right : Nat) : Prop :=
  (s.heap.val right = v → Shown list vs v) ∧ (v < s.heap.val right → Hidden list vs v)

def SearchSaw (list : ListT) (s : State) (vs : List State) (v : Int) : SearchPc → Prop
  | .checkNext l | .readNext l => Gap list s vs v l.leftNodeNext
  | .testNull l | .testMark l => Gap list s vs v l.t
  | .start _ | .cas _ => True

/-- The answer is that of some visited state. -/
def Answers (list : ListT) (vs : List State) (v : Int) (r : Bool) : Op → Prop
  | .contains => if r then Shown list vs v else Hidden list vs v
  | .add => r = false → Shown list vs v
  | .remove => r = false → Hidden list vs v

/-- What a call of `op` with key `v` has seen so far. -/
def Saw (list : ListT) (s : State) (vs : List State) (op : Op) (v : Int) : Pc → Prop
  | .idle => False
  | .done op' v' r => op' = op ∧ v' = v ∧ Answers list vs v r op
  | .search (.call op') v' pc => op' = op ∧ v' = v ∧ SearchSaw list s vs v pc
  | .search .cleanup v' _ => op = .remove ∧ v' = v
  | .containsTest v' right => op = .contains ∧ v' = v ∧ Tells list s vs v right
  | .malloc v' _ _ | .insert v' _ _ _ => op = .add ∧ v' = v
  | .loadNext v' _ _ | .mark v' _ _ _ | .unlink v' _ _ _ => op = .remove ∧ v' = v

section Stable
variable {list : ListT} {s s' : State} {vs : List State} {v : Int} {b : Nat}

theorem Shown.cons (shown : Shown list vs v) : Shown list (s :: vs) v := by
  obtain ⟨m, mem, has⟩ := shown
  exact ⟨m, List.mem_cons_of_mem _ mem, has⟩

theorem Hidden.cons (hidden : Hidden list vs v) : Hidden list (s :: vs) v := by
  obtain ⟨m, mem, has⟩ := hidden
  exact ⟨m, List.mem_cons_of_mem _ mem, has⟩

theorem Gap.mono (shape : Shape list s) (grows : Grows s s') (gap : Gap list s vs v b) :
    Gap list s' (s' :: vs) v b := by
  obtain ⟨here, m, mem, shape', a, left, next, there, val⟩ := gap
  exact ⟨grows.linked b here, m, List.mem_cons_of_mem _ mem, shape', a, left, next, there,
    by rw [val, grows.val b (shape.used b here)]⟩

theorem Gap.hidden (gap : Gap list s vs v b) (lt : v < s.heap.val b) : Hidden list vs v := by
  obtain ⟨-, m, mem, shape, a, left, next, there, val⟩ := gap
  obtain ⟨live, outer, leads⟩ := shape.live_of_ref left.1 next there
  exact ⟨m, mem, shape.absent left.1 live outer left.2 (by rw [leads, val]; exact lt)⟩

theorem Answers.cons {op : Op} {r : Bool} (answers : Answers list vs v r op) :
    Answers list (s :: vs) v r op := by
  cases op with
  | contains =>
    unfold Answers at *
    split_ifs at *
    · exact answers.cons
    · exact answers.cons
  | add => exact fun no => (answers no).cons
  | remove => exact fun no => (answers no).cons

/-- What a call has seen it has seen after the steps of the others. -/
theorem Saw.mono (shape : Shape list s) (grows : Grows s s') {op : Op} {pc : Pc}
    (knows : Knows s pc) (saw : Saw list s vs op v pc) : Saw list s' (s' :: vs) op v pc := by
  cases pc with
  | idle => exact saw
  | done op' v' r => exact ⟨saw.1, saw.2.1, saw.2.2.cons⟩
  | search k v' pc =>
    cases k with
    | cleanup => exact saw
    | call op' =>
      refine ⟨saw.1, saw.2.1, ?_⟩
      cases pc with
      | start | cas => trivial
      | _ => exact Gap.mono shape grows saw.2.2
  | containsTest v' right =>
    obtain ⟨rfl, rfl, tells⟩ := saw
    have same := grows.val right (shape.used right knows.2.2.1)
    exact ⟨rfl, rfl, fun eq => (tells.1 (same ▸ eq)).cons, fun lt => (tells.2 (same ▸ lt)).cons⟩
  | _ => exact saw

end Stable

section Search
variable {x : Variant} {list : ListT} {s s' : State} {vs : List State} {v : Int} {l : Locals}

def SearchTells (list : ListT) (s : State) (vs : List State) (v : Int) : SearchPc ⊕ Locals → Prop
  | .inl pc => SearchSaw list s vs v pc
  | .inr l => Tells list s vs v l.t

theorem SearchTells.mono (shape : Shape list s) (grows : Grows s s') {r : SearchPc ⊕ Locals}
    (ends : SearchEnds s v r) (tells : SearchTells list s vs v r) :
    SearchTells list s' (s' :: vs) v r := by
  cases r with
  | inl pc =>
    cases pc with
    | start | cas => trivial
    | _ => exact Gap.mono shape grows tells
  | inr l =>
    have same := grows.val l.t (shape.used l.t ends.2.1)
    exact ⟨fun eq => (tells.1 (same ▸ eq)).cons, fun lt => (tells.2 (same ▸ lt)).cons⟩

theorem Shape.advance_saw (shape : Shape list s) (mem : s ∈ vs) (here : s.Linked l.t)
    (outer : l.t ≠ list.pMax) (run : ¬ s.heap.dead l.t → s.heap.val l.t < v)
    (saw : s.heap.dead l.t → Gap list s vs v l.leftNodeNext) :
    SearchSaw list s vs v (.checkNext (l.advance x (s.heap.pNext l.t))) := by
  have there := shape.sorted.next_linked l.t here outer
  unfold Locals.advance isMarkedRef getUnmarkedRef
  split_ifs with gone
  · exact saw gone
  · have next : s.heap.pNext l.t = ref (s.heap.pNext l.t).addr := by
      cases h : s.heap.pNext l.t with
      | mk addr marked =>
        rw [h] at gone
        cases marked with
        | false => rfl
        | true => exact absurd rfl gone
    have gap : Gap list s vs v (s.heap.pNext l.t).addr :=
      ⟨there, s, mem, shape, l.t, ⟨here, run gone⟩, next, there, rfl⟩
    cases x <;> exact gap

theorem SearchSaw.scanned (gap : Gap list s vs v l.leftNodeNext) : SearchSaw list s vs v l.scanned := by
  unfold Locals.scanned
  split_ifs with adjacent
  · rw [SearchSaw, ← adjacent]
    exact gap
  · trivial

/-- What a search has seen, where its step leaves the heap alone. -/
theorem searchStep_tells (shape : Shape list s) (mem : s ∈ vs) (lo : listValMin < v)
    (hi : v < listValMax) {pc : SearchPc} (knows : SearchKnows s v pc)
    (saw : SearchSaw list s vs v pc) (other : ∀ l, pc ≠ .cas l) :
    SearchTells list s vs v (searchStep x list v s.heap pc).2 := by
  have returns {l : Locals} (tells : Tells list s vs v l.t) :
      SearchTells list s vs v (.inr (l.returned x)) := by
    cases x <;> exact tells
  cases pc with
  | cas l => exact absurd rfl (other l)
  | start l =>
    refine Shape.advance_saw (l := { l with leftNodeNext := list.pHead, t := list.pHead }) shape mem
      shape.head list.ne (fun _ => ?_) fun gone => absurd gone shape.headLive
    rw [shape.headVal]
    exact lo
  | checkNext l =>
    simp only [searchStep]
    split_ifs
    · exact SearchSaw.scanned saw
    · exact saw
  | readNext l =>
    obtain ⟨left, mine, scanned⟩ := knows
    simp only [searchStep]
    split_ifs with more
    · refine shape.advance_saw mem scanned.2.1 ?_ (fun live => more.resolve_left live) fun _ => saw
      rcases more with gone | lt
      · exact shape.outer_of_dead gone
      · exact shape.val_lt_max ⟨scanned.2.1, lt⟩ hi
    · exact SearchSaw.scanned saw
  | testNull l =>
    obtain ⟨left, mine, here, le⟩ := knows
    simp only [searchStep]
    split_ifs with isNull
    · refine returns ⟨fun eq => ?_, saw.hidden⟩
      rw [shape.eq_max here isNull, shape.maxVal] at eq
      omega
    · exact saw
  | testMark l =>
    obtain ⟨left, mine, here, le⟩ := knows
    simp only [searchStep]
    split_ifs with gone
    · trivial
    · exact returns ⟨fun eq => ⟨s, mem, shape.present here gone eq lo hi⟩, saw.hidden⟩

theorem searchStep_saw (shape : Shape list s) (mem : s ∈ vs) (lo : listValMin < v)
    (hi : v < listValMax) {pc : SearchPc} (knows : SearchKnows s v pc)
    (saw : SearchSaw list s vs v pc) (step : HeapStep list s s')
    (heap : s'.heap = (searchStep x list v s.heap pc).1) :
    SearchTells list s' (s' :: vs) v (searchStep x list v s.heap pc).2 := by
  have ends := searchStep_ends (x := x) shape lo hi knows
  by_cases cas : ∃ l, pc = .cas l
  · obtain ⟨l, rfl⟩ := cas
    obtain ⟨left, mine, scanned, le⟩ := knows
    have grows := step.grows
    simp only [searchStep] at heap ⊢
    split_ifs at heap ⊢ with expected
    · -- the unlink closes the gap
      have there := grows.linked _ scanned.2.1
      refine ⟨there, s', List.mem_cons_self, step.shape shape, l.leftNode, left.mono shape grows, ?_, there,
        rfl⟩
      rw [heap]
      exact Heap.setNext_self
    · trivial
  · exact (searchStep_tells shape mem lo hi knows saw fun l e => cas ⟨l, e⟩).mono shape step.grows ends

end Search

section Step
variable {x : Variant} {list : ListT} {s s' : State} {vs : List State} {op : Op} {v : Int} {t : Nat}

theorem again_saw {left : Nat} : Saw list s vs op v (again x list op v left) := by
  cases x <;> exact ⟨rfl, rfl, trivial⟩

theorem afterSearch_saw {l : Locals} (tells : Tells list s vs v l.t) (le : v ≤ s.heap.val l.t) :
    Saw list s vs op v (afterSearch s.heap v l (.call op)) := by
  cases op with
  | contains => exact ⟨rfl, rfl, tells⟩
  | add =>
    simp only [afterSearch]
    split_ifs with found
    · exact ⟨rfl, rfl, fun _ => tells.1 found⟩
    · exact ⟨rfl, rfl⟩
  | remove =>
    simp only [afterSearch]
    split_ifs with found
    · exact ⟨rfl, rfl, fun _ => tells.2 (lt_of_le_of_ne le (Ne.symm found))⟩
    · exact ⟨rfl, rfl⟩

theorem libStep_saw (inv : Inv list s) (mem : s ∈ vs) {e : Heap × Option Nat × Pc}
    (saw : Saw list s vs op v (s.thread t)) (stepped : libStep x list s.heap (s.thread t) = some e) :
    Saw list (s.after t e) (s.after t e :: vs) op v e.2.2 := by
  have shape := inv.shape
  have knows := inv.knows t
  have step := (libStep_heap shape knows stepped).1
  cases hpc : s.thread t with
  | idle | done op' v' r | malloc v' left right =>
    rw [hpc] at stepped
    cases stepped
  | search k v' pc =>
    rw [hpc] at stepped knows saw
    obtain ⟨lo, hi, knows⟩ := knows
    simp only [libStep] at stepped
    split at stepped
    · rename_i h' pc' returned
      obtain rfl := Option.some.inj stepped
      cases k with
      | cleanup => exact saw
      | call op' =>
        obtain ⟨rfl, rfl, saw⟩ := saw
        have tells := searchStep_saw (x := (Caller.call op').variant x) shape mem lo hi knows saw step
          (by rw [returned]; rfl)
        rw [returned] at tells
        exact ⟨rfl, rfl, tells⟩
    · rename_i h' l returned
      obtain rfl := Option.some.inj stepped
      cases k with
      | cleanup =>
        obtain ⟨rfl, rfl⟩ := saw
        exact ⟨rfl, rfl, by rintro ⟨⟩⟩
      | call op' =>
        obtain ⟨rfl, rfl, saw⟩ := saw
        have other (l' : Locals) : pc ≠ .cas l' := by
          rintro rfl
          simp only [searchStep] at returned
          split_ifs at returned <;> cases returned
        have tells := searchStep_tells (x := (Caller.call op').variant x) shape mem lo hi knows saw other
        have ends := searchStep_ends (x := (Caller.call op').variant x) shape lo hi knows
        rw [returned] at tells ends
        exact (afterSearch_saw tells ends.2.2).mono shape step.grows (afterSearch_knows lo hi ends)
  | containsTest v' right =>
    rw [hpc] at stepped knows saw
    obtain ⟨rfl, rfl, tells⟩ := saw
    obtain ⟨lo, hi, here, le⟩ := knows
    obtain rfl := Option.some.inj stepped
    refine ⟨rfl, rfl, ?_⟩
    unfold Answers
    by_cases found : s.heap.val right = v'
    · have inner : s.heap.pNext right ≠ null := fun isNull => by
        rw [shape.eq_max here isNull, shape.maxVal] at found
        omega
      rw [if_pos (by simp [inner, found])]
      exact (tells.1 found).cons
    · rw [if_neg (by simp [found])]
      exact (tells.2 (lt_of_le_of_ne le (Ne.symm found))).cons
  | loadNext v' left right =>
    rw [hpc] at stepped saw
    obtain ⟨rfl, rfl⟩ := saw
    simp only [libStep] at stepped
    split_ifs at stepped
    · obtain rfl := Option.some.inj stepped
      exact again_saw
    · obtain rfl := Option.some.inj stepped
      exact ⟨rfl, rfl⟩
  | insert v' left right new =>
    rw [hpc] at stepped saw
    obtain ⟨rfl, rfl⟩ := saw
    simp only [libStep] at stepped
    split_ifs at stepped
    · obtain rfl := Option.some.inj stepped
      exact ⟨rfl, rfl, by rintro ⟨⟩⟩
    · obtain rfl := Option.some.inj stepped
      exact again_saw
  | mark v' left right next =>
    rw [hpc] at stepped saw
    obtain ⟨rfl, rfl⟩ := saw
    simp only [libStep] at stepped
    split_ifs at stepped
    · obtain rfl := Option.some.inj stepped
      exact ⟨rfl, rfl⟩
    · obtain rfl := Option.some.inj stepped
      exact again_saw
  | unlink v' left right next =>
    rw [hpc] at stepped saw
    obtain ⟨rfl, rfl⟩ := saw
    simp only [libStep] at stepped
    split_ifs at stepped
    · obtain rfl := Option.some.inj stepped
      exact ⟨rfl, rfl, by rintro ⟨⟩⟩
    · obtain rfl := Option.some.inj stepped
      exact ⟨rfl, rfl⟩

/-- What a step does to a thread: it leaves it alone, or it is the thread's own step, call or `malloc`. -/
theorem step_thread {a : Act} (hs : step x list s a = some s') (t : Nat) :
    s'.thread t = s.thread t ∨
    (∃ e, libStep x list s.heap (s.thread t) = some e ∧ s' = s.after t e) ∨
    (∃ op v, a = .call t op v ∧ (s.thread t).atRest = true ∧
      s'.thread t = .search (.call op) v (.start (.enter list list.pHead))) ∨
    ∃ v left right b, s.thread t = .malloc v left right ∧ s'.thread t = .insert v left right b := by
  cases a with
  | call u op v =>
    simp only [step] at hs
    split_ifs at hs with free
    obtain rfl := Option.some.inj hs
    by_cases own : t = u
    · subst own
      exact .inr (.inr (.inl ⟨op, v, rfl, free.1, Function.update_self _ _ _⟩))
    · exact .inl (Function.update_of_ne own _ _)
  | lib u =>
    obtain ⟨e, stepped, rfl⟩ := Option.map_eq_some_iff.mp hs
    by_cases own : t = u
    · subst own
      exact .inr (.inl ⟨e, stepped, rfl⟩)
    · exact .inl (Function.update_of_ne own _ _)
  | malloc u b =>
    simp only [step] at hs
    split at hs
    · rename_i v left right hpc
      split_ifs at hs
      obtain rfl := Option.some.inj hs
      by_cases own : t = u
      · subst own
        exact .inr (.inr (.inr ⟨v, left, right, b, hpc, Function.update_self _ _ _⟩))
      · exact .inl (Function.update_of_ne own _ _)
    · cases hs

@[simp] theorem State.after_thread {e : Heap × Option Nat × Pc} : (s.after t e).thread t = e.2.2 :=
  Function.update_self _ _ _

/-- No step but a call of thread `t` ends what the running call has seen. -/
theorem step_saw {a : Act} (inv : Inv list s) (mem : s ∈ vs) (saw : Saw list s vs op v (s.thread t))
    (running : ∀ op v, a ≠ .call t op v) (hs : step x list s a = some s') :
    Saw list s' (s' :: vs) op v (s'.thread t) := by
  have grows := (step_inv inv hs).2.grows
  rcases step_thread hs t with same | ⟨e, stepped, rfl⟩ | ⟨op', v', called, -⟩ |
    ⟨v', left, right, b, before, after⟩
  · rw [same]
    exact saw.mono inv.shape grows (inv.knows t)
  · rw [State.after_thread]
    exact libStep_saw inv mem saw stepped
  · exact absurd called (running op' v')
  · rw [before] at saw
    rw [after]
    exact saw

/-- The end of a remove that has marked its node. -/
def Pc.Removing (v : Int) : Pc → Prop
  | .unlink v' _ _ _ | .search .cleanup v' _ => v' = v
  | _ => False

/-- What a step does to the set, and who does it. While the set stays no add comes to return 1 and no
remove has marked its node. -/
inductive SetStep (list : ListT) (s : State) (a : Act) (s' : State) : Prop
  | same (keys : s'.keys list = s.keys list)
      (adds : ∀ t v, s'.thread t = .done .add v true → s.thread t = .done .add v true)
      (marks : ∀ t v, (s'.thread t).Removing v → (s.thread t).Removing v)
  | add (t : Nat) (v : Int) (left right new : Nat) (act : a = .lib t)
      (pc : s.thread t = .insert v left right new) (returns : s'.thread t = .done .add v true)
      (absent : v ∉ s.keys list) (keys : s'.keys list = insert v (s.keys list))
      (others : ∀ u, u ≠ t → s'.thread u = s.thread u)
  | remove (t : Nat) (v : Int) (left right : Nat) (next : Ref) (act : a = .lib t)
      (pc : s.thread t = .mark v left right next) (goes : (s'.thread t).Removing v)
      (present : v ∈ s.keys list) (keys : s'.keys list = s.keys list \ {v})
      (others : ∀ u, u ≠ t → s'.thread u = s.thread u)

theorem libStep_dead {e : Heap × Option Nat × Pc} (knows : Knows s (s.thread t))
    (stepped : libStep x list s.heap (s.thread t) = some e) {a : Nat} (gone : e.1.dead a) :
    s.heap.dead a ∨ ∃ v left next, s.thread t = .mark v left a next ∧ e.2.2 = .unlink v left a next := by
  have store {b : Nat} {r : Ref} (unmarked : r.marked = false) (gone : (s.heap.setNext b r).dead a) :
      s.heap.dead a := by
    by_cases eq : a = b
    · rw [eq, Heap.setNext_dead_self, unmarked] at gone
      cases gone
    · exact (Heap.setNext_dead_of_ne eq).mp gone
  cases hpc : s.thread t with
  | idle | done op' v' r | malloc v' left right =>
    rw [hpc] at stepped
    cases stepped
  | search k v' pc =>
    rw [hpc] at stepped
    have heap : e.1 = (searchStep (k.variant x) list v' s.heap pc).1 := by
      simp only [libStep] at stepped
      split at stepped <;> rename_i returned <;> rw [returned] <;> obtain rfl := Option.some.inj stepped <;>
        rfl
    rw [heap] at gone
    cases pc with
    | cas l =>
      simp only [searchStep] at gone
      split_ifs at gone
      · exact .inl (store rfl gone)
      · exact .inl gone
    | start l => exact .inl gone
    | checkNext l | readNext l | testNull l | testMark l =>
      simp only [searchStep] at gone
      split_ifs at gone <;> exact .inl gone
  | containsTest v' right =>
    rw [hpc] at stepped
    obtain rfl := Option.some.inj stepped
    exact .inl gone
  | loadNext v' left right =>
    rw [hpc] at stepped
    simp only [libStep] at stepped
    split_ifs at stepped <;> obtain rfl := Option.some.inj stepped <;> exact .inl gone
  | insert v' left right new =>
    rw [hpc] at stepped
    simp only [libStep] at stepped
    split_ifs at stepped <;> obtain rfl := Option.some.inj stepped
    · exact .inl (store rfl gone)
    · exact .inl gone
  | mark v' left right next =>
    rw [hpc] at stepped
    simp only [libStep] at stepped
    split_ifs at stepped <;> obtain rfl := Option.some.inj stepped
    · by_cases eq : a = right
      · rw [eq]
        exact .inr ⟨v', left, next, rfl, rfl⟩
      · exact .inl ((Heap.setNext_dead_of_ne eq).mp gone)
    · exact .inl gone
  | unlink v' left right next =>
    rw [hpc] at stepped knows
    simp only [libStep] at stepped
    split_ifs at stepped <;> obtain rfl := Option.some.inj stepped
    · exact .inl (store knows.2.2.2.2.2.1 gone)
    · exact .inl gone

/-- A linked node that has just been marked takes its key out of the set. -/
theorem Shape.marked (shape : Shape list s) (shape' : Shape list s') (grows : Grows s s')
    (linked : s'.linked = s.linked) {a : Nat} (here : s.Linked a) (live : ¬ s.heap.dead a)
    (dead : ∀ b, s.heap.dead b → s'.heap.dead b) (gone : s'.heap.dead a) :
    s.heap.val a ∉ s'.keys list := by
  rw [shape'.mem_keys, State.linked_congr linked]
  rintro ⟨b, there, -, -, live', key⟩
  rw [grows.val b (shape.used b there)] at key
  obtain rfl := shape.eq_of_val there here (fun d => live' (dead b d)) live key
  exact live' gone

/-- What a step that returns 1, or marks a node, does to the set. -/
theorem libStep_returns (inv : Inv list s) {e : Heap × Option Nat × Pc}
    (stepped : libStep x list s.heap (s.thread t) = some e) :
    (e.2.2 = .done .add v true → v ∉ s.keys list ∧ v ∈ (s.after t e).keys list) ∧
    (e.2.2.Removing v → (s.thread t).Removing v ∨ v ∈ s.keys list ∧ v ∉ (s.after t e).keys list) ∧
    (e.2.2 = .done .remove v true → (s.thread t).Removing v) := by
  have shape := inv.shape
  have knows := inv.knows t
  obtain ⟨step, -, -⟩ := libStep_heap shape knows stepped
  have shape' := step.shape shape
  have retries (op : Op) (v' : Int) (left : Nat) : again x list op v' left ≠ .done .add v true ∧
      again x list op v' left ≠ .done .remove v true ∧ ¬ (again x list op v' left).Removing v := by
    cases x <;> exact ⟨(by intro h; cases h), (by intro h; cases h), id⟩
  cases hpc : s.thread t with
  | idle | done op' v' r | malloc v' left right =>
    rw [hpc] at stepped
    cases stepped
  | search k v' pc =>
    rw [hpc] at stepped
    simp only [libStep] at stepped
    split at stepped
    · obtain rfl := Option.some.inj stepped
      cases k with
      | call op => exact ⟨(by intro h; cases h), fun h => h.elim, (by intro h; cases h)⟩
      | cleanup => exact ⟨(by intro h; cases h), .inl, (by intro h; cases h)⟩
    · obtain rfl := Option.some.inj stepped
      cases k with
      | call op =>
        cases op <;> simp only [afterSearch] <;> (try split_ifs) <;>
          exact ⟨by simp, fun h => h.elim, by simp⟩
      | cleanup =>
        refine ⟨(by intro h; cases h), fun h => h.elim, fun h => ?_⟩
        cases h
        rfl
  | containsTest v' right =>
    rw [hpc] at stepped
    obtain rfl := Option.some.inj stepped
    exact ⟨(by intro h; cases h), fun h => h.elim, (by intro h; cases h)⟩
  | loadNext v' left right =>
    rw [hpc] at stepped
    simp only [libStep] at stepped
    split_ifs at stepped <;> obtain rfl := Option.some.inj stepped
    · obtain ⟨a, b, c⟩ := retries .remove v' left
      exact ⟨fun h => absurd h a, fun h => absurd h c, fun h => absurd h b⟩
    · exact ⟨(by intro h; cases h), fun h => h.elim, (by intro h; cases h)⟩
  | insert v' left right new =>
    rw [hpc] at stepped knows
    obtain ⟨lo, hi, left', here, lt, used, private_, next, key⟩ := knows
    simp only [libStep] at stepped
    split_ifs at stepped with expected <;> obtain rfl := Option.some.inj stepped
    · refine ⟨fun h => ?_, fun h => h.elim, (by intro h; cases h)⟩
      cases h
      obtain ⟨live, outer, leads⟩ := shape.live_of_ref left'.1 expected here
      refine ⟨shape.absent left'.1 live outer left'.2 (by rw [leads]; exact lt),
        shape'.present (Function.update_self _ _ _) ?_ key lo hi⟩
      have other : new ≠ left := by
        rintro rfl
        exact private_ left'.1
      refine (Heap.setNext_dead_of_ne other).not.mpr ?_
      unfold Heap.dead
      rw [next]
      exact Bool.false_ne_true
    · obtain ⟨a, b, c⟩ := retries .add v' left
      exact ⟨fun h => absurd h a, fun h => absurd h c, fun h => absurd h b⟩
  | mark v' left right next =>
    rw [hpc] at stepped knows
    obtain ⟨lo, hi, left', here, key, unmarked⟩ := knows
    simp only [libStep] at stepped
    split_ifs at stepped with expected <;> obtain rfl := Option.some.inj stepped
    · refine ⟨(by intro h; cases h), fun h => .inr ?_, (by intro h; cases h)⟩
      obtain rfl : v' = v := h
      have live : ¬ s.heap.dead right := by
        unfold Heap.dead
        rw [expected, unmarked]
        exact Bool.false_ne_true
      have dead (b : Nat) (gone : s.heap.dead b) : (s.heap.setNext right (getMarkedRef next)).dead b := by
        by_cases eq : b = right
        · rw [eq]
          exact Heap.setNext_dead_self.mpr rfl
        · exact (Heap.setNext_dead_of_ne eq).mpr gone
      have absent := shape.marked shape' step.grows rfl here live dead (Heap.setNext_dead_self.mpr rfl)
      rw [key] at absent
      exact ⟨shape.present here live key lo hi, absent⟩
    · obtain ⟨a, b, c⟩ := retries .remove v' left
      exact ⟨fun h => absurd h a, fun h => absurd h c, fun h => absurd h b⟩
  | unlink v' left right next =>
    rw [hpc] at stepped
    simp only [libStep] at stepped
    split_ifs at stepped <;> obtain rfl := Option.some.inj stepped
    · refine ⟨(by intro h; cases h), fun h => h.elim, fun h => ?_⟩
      cases h
      rfl
    · exact ⟨(by intro h; cases h), .inl, (by intro h; cases h)⟩

/-- What a thread's coming to a return of 1, or to the end of a remove, says of the step. -/
theorem step_returns {a : Act} (inv : Inv list s) (hs : step x list s a = some s') (t : Nat) (v : Int) :
    (s'.thread t = .done .add v true →
      s.thread t = .done .add v true ∨ v ∉ s.keys list ∧ v ∈ s'.keys list) ∧
    ((s'.thread t).Removing v → (s.thread t).Removing v ∨ v ∈ s.keys list ∧ v ∉ s'.keys list) ∧
    (s'.thread t = .done .remove v true →
      s.thread t = .done .remove v true ∨ (s.thread t).Removing v) := by
  rcases step_thread hs t with same | ⟨e, stepped, rfl⟩ | ⟨op, w, -, -, enters⟩ |
    ⟨w, left, right, new, -, inserts⟩
  · rw [same]
    exact ⟨.inl, .inl, .inl⟩
  · obtain ⟨added, marked, removed⟩ := libStep_returns (v := v) inv stepped
    rw [State.after_thread]
    exact ⟨fun h => .inr (added h), marked, fun h => .inr (removed h)⟩
  · rw [enters]
    exact ⟨by simp, fun h => h.elim, by simp⟩
  · rw [inserts]
    exact ⟨by simp, fun h => h.elim, by simp⟩

theorem step_set {a : Act} (inv : Inv list s) (hs : step x list s a = some s') :
    SetStep list s a s' := by
  have shape := inv.shape
  have heapStep := (step_inv inv hs).2
  rcases heapStep.keys shape with same | ⟨new, linked, fresh, absent, keys⟩ |
    ⟨b, here, live, gone, present, keys⟩
  · refine .same same (fun t v returns => ?_) fun t v goes => ?_
    · refine ((step_returns inv hs t v).1 returns).resolve_right ?_
      rintro ⟨absent, present⟩
      exact absent (same ▸ present)
    · refine ((step_returns inv hs t v).2.1 goes).resolve_right ?_
      rintro ⟨present, absent⟩
      exact absent (same.symm ▸ present)
  · -- the step links a node
    have moved : s'.linked ≠ s.linked := fun same => fresh (by
      unfold State.Linked
      rw [← same, linked, Function.update_self])
    cases a with
    | call u op' v' =>
      simp only [step] at hs
      split_ifs at hs
      obtain rfl := Option.some.inj hs
      exact absurd rfl moved
    | malloc u b =>
      simp only [step] at hs
      split at hs
      · split_ifs at hs
        obtain rfl := Option.some.inj hs
        exact absurd rfl moved
      · cases hs
    | lib u =>
      obtain ⟨⟨h', none_, pc'⟩, stepped, rfl⟩ := Option.map_eq_some_iff.mp hs
      cases none_ with
      | none => exact absurd rfl moved
      | some node =>
        obtain rfl : node = new := by
          by_contra ne
          have at_new := congrFun linked new
          change Function.update s.linked node true new = _ at at_new
          rw [Function.update_of_ne (Ne.symm ne), Function.update_self] at at_new
          exact fresh at_new
        have owner := libStep_links stepped
        have knows := inv.knows u
        cases hpc : s.thread u with
        | insert v' left right new' =>
          rw [hpc] at owner knows stepped
          obtain rfl := Option.some.inj owner
          obtain ⟨-, -, -, -, -, -, -, -, key⟩ := knows
          simp only [libStep] at stepped
          split_ifs at stepped <;> cases stepped
          rw [key] at absent keys
          exact .add u v' left right new' rfl hpc (Function.update_self _ _ _) absent keys fun w ne =>
            Function.update_of_ne ne _ _
        | _ =>
          rw [hpc] at owner
          cases owner
  · -- the step marks a node
    have moved : s'.heap ≠ s.heap := fun same => live (same ▸ gone)
    cases a with
    | call u op' v' =>
      simp only [step] at hs
      split_ifs at hs
      obtain rfl := Option.some.inj hs
      exact absurd rfl moved
    | malloc u c =>
      have grows := heapStep.grows
      simp only [step] at hs
      split at hs
      · split_ifs at hs with free
        obtain rfl := Option.some.inj hs
        have other : b ≠ c := by
          rintro rfl
          have taken := shape.used b here
          rw [free.2] at taken
          cases taken
        refine absurd ?_ live
        change (Function.update s.heap.pNext c _ b).marked = true at gone
        rwa [Function.update_of_ne other] at gone
      · cases hs
    | lib u =>
      obtain ⟨e, stepped, rfl⟩ := Option.map_eq_some_iff.mp hs
      rcases libStep_dead (inv.knows u) stepped gone with before | ⟨v', left, next, hpc, goes⟩
      · exact absurd before live
      · have knows := inv.knows u
        rw [hpc] at knows
        rw [knows.2.2.2.2.1] at present keys
        refine .remove u v' left b next rfl hpc ?_ present keys fun w ne => Function.update_of_ne ne _ _
        show Pc.Removing v' (Function.update s.thread u e.2.2 u)
        rw [Function.update_self, goes]
        rfl

theorem step_removing {a : Act} (hs : step x list s a = some s') (removing : (s.thread t).Removing v) :
    (s'.thread t).Removing v ∨ s'.thread t = .done .remove v true := by
  rcases step_thread hs t with same | ⟨e, stepped, rfl⟩ | ⟨op', v', -, rest, -⟩ |
    ⟨v', left, right, b, before, -⟩
  · rw [same]
    exact .inl removing
  · rw [State.after_thread]
    cases hpc : s.thread t with
    | search k v' pc =>
      rw [hpc] at stepped removing
      cases k with
      | call op' => exact removing.elim
      | cleanup =>
        obtain rfl : v' = v := removing
        simp only [libStep] at stepped
        split at stepped <;> obtain rfl := Option.some.inj stepped
        · exact .inl rfl
        · exact .inr rfl
    | unlink v' left right next =>
      rw [hpc] at stepped removing
      obtain rfl : v' = v := removing
      simp only [libStep] at stepped
      split_ifs at stepped <;> obtain rfl := Option.some.inj stepped
      · exact .inr rfl
      · exact .inl rfl
    | _ =>
      rw [hpc] at removing
      exact removing.elim
  · cases hpc : s.thread t with
    | idle | done =>
      rw [hpc] at removing
      exact removing.elim
    | _ =>
      rw [hpc] at rest
      cases rest
  · rw [before] at removing
    exact removing.elim

end Step

section Effect
variable {x : Variant} {list : ListT} {s s₁ : State} {vs : List State} {t : Nat} {v : Int}

/-- One of the steps of the run is the insertion of `v` by thread `t`. -/
def Inserts (list : ListT) (t : Nat) (vs : List State) (v : Int) : Prop :=
  ∃ m m', [m', m] <:+: vs ∧ (∃ left right new, m.thread t = .insert v left right new) ∧
    v ∉ m.keys list ∧ m'.keys list = insert v (m.keys list)

/-- One of the steps of the run is the marking of the node with `v` by thread `t`. -/
def Deletes (list : ListT) (t : Nat) (vs : List State) (v : Int) : Prop :=
  ∃ m m', [m', m] <:+: vs ∧ (∃ left right next, m.thread t = .mark v left right next) ∧
    v ∈ m.keys list ∧ m'.keys list = m.keys list \ {v}

theorem Inserts.cons (inserts : Inserts list t vs v) : Inserts list t (s :: vs) v := by
  obtain ⟨m, m', inside, facts⟩ := inserts
  exact ⟨m, m', List.infix_cons inside, facts⟩

theorem Deletes.cons (deletes : Deletes list t vs v) : Deletes list t (s :: vs) v := by
  obtain ⟨m, m', inside, facts⟩ := deletes
  exact ⟨m, m', List.infix_cons inside, facts⟩

/-- Thread `t` has inserted its key where it has returned 1 from an add, and has marked its node where
a remove is past the marking. -/
structure Effective (list : ListT) (t : Nat) (vs : List State) (s : State) : Prop where
  inserted : ∀ v, s.thread t = .done .add v true → Inserts list t vs v
  marked : ∀ v, (s.thread t).Removing v → Deletes list t vs v
  removed : ∀ v, s.thread t = .done .remove v true → Deletes list t vs v

theorem step_effective {a : Act} {s' : State} (inv : Inv list s) (hs : step x list s a = some s')
    (effective : Effective list t (s :: vs) s) : Effective list t (s' :: s :: vs) s' := by
  have last : [s', s] <:+: s' :: s :: vs := ⟨[], vs, rfl⟩
  have set := step_set inv hs
  refine ⟨fun v returns => ?_, fun v goes => ?_, fun v returns => ?_⟩
  · cases set with
    | same _ adds => exact (effective.inserted v (adds t v returns)).cons
    | add u w left right new act pc inserts absent keys others =>
      by_cases own : t = u
      · subst own
        cases inserts.symm.trans returns
        exact ⟨s, s', last, ⟨left, right, new, pc⟩, absent, keys⟩
      · exact (effective.inserted v (others t own ▸ returns)).cons
    | remove u w left right next act pc goes present keys others =>
      by_cases own : t = u
      · subst own
        rw [returns] at goes
        exact goes.elim
      · exact (effective.inserted v (others t own ▸ returns)).cons
  · cases set with
    | same _ _ marks => exact (effective.marked v (marks t v goes)).cons
    | add u w left right new act pc inserts absent keys others =>
      by_cases own : t = u
      · subst own
        rw [inserts] at goes
        exact goes.elim
      · exact (effective.marked v (others t own ▸ goes)).cons
    | remove u w left right next act pc ends present keys others =>
      by_cases own : t = u
      · subst own
        rcases (step_returns inv hs t v).2.1 goes with before | ⟨has, lacks⟩
        · rw [pc] at before
          exact before.elim
        · obtain rfl : v = w := by
            by_contra ne
            rw [keys] at lacks
            exact lacks ⟨has, ne⟩
          exact ⟨s, s', last, ⟨left, right, next, pc⟩, present, keys⟩
      · exact (effective.marked v (others t own ▸ goes)).cons
  · rcases (step_returns inv hs t v).2.2 returns with before | before
    · exact (effective.removed v before).cons
    · exact (effective.marked v before).cons

/-- From a call on, a thread returns 1 from an add or a remove by its own change of the set. -/
theorem visits_effective {ok : State → Act → Prop} (inv : Inv list s₁) (start : Effective list t [s₁] s₁)
    (run : System.Visits (step x list) ok s₁ vs s) : Inv list s ∧ Effective list t vs s := by
  induction run with
  | start => exact ⟨inv, start⟩
  | step run _ hs ih =>
    obtain ⟨inv, effective⟩ := ih
    refine ⟨(step_inv inv hs).1, ?_⟩
    cases run with
    | start => exact step_effective inv hs effective
    | step => exact step_effective inv hs effective

end Effect

/-- What the run of a call of thread `t` shows at its return: an insertion or a marking of its own for
a change, and a state with the answer otherwise. -/
def Justified (list : ListT) (t : Nat) (vs : List State) (v : Int) (r : Bool) : Op → Prop
  | .contains => if r then Shown list vs v else Hidden list vs v
  | .add => if r then Inserts list t vs v else Shown list vs v
  | .remove => if r then Deletes list t vs v else Hidden list vs v

theorem Effective.justified {list : ListT} {s : State} {vs : List State} {t : Nat} {v : Int} {op : Op}
    {r : Bool} (effective : Effective list t vs s) (returned : s.thread t = .done op v r)
    (answers : Answers list vs v r op) : Justified list t vs v r op := by
  cases op with
  | contains => exact answers
  | add =>
    cases r with
    | false => exact answers rfl
    | true => exact effective.inserted v returned
  | remove =>
    cases r with
    | false => exact answers rfl
    | true => exact effective.removed v returned

/-- The list stays sorted up to the max sentinel, a marked `p_next` never changes, the set changes
at the insertion of an add and the marking of a remove that return 1 alone, an add or a remove returns
1 by such a step of its own alone, and every other answer is that of the set at a state between the
call and its return. -/
theorem harris_list_set (list : ListT) (s : State)
    (h : System.Reachable (· = State.init list) (step .harris list) (fun _ _ => True) s) :
    (s.Reached list list.pMax ∧
      ∀ a, s.Reached list a → a ≠ list.pMax → s.heap.val a < s.heap.val (s.heap.next a)) ∧
    (∀ s', System.Through (step .harris list) (fun _ _ => True) (fun _ => True) s s' →
      ∀ a, s.used a = true → s.heap.dead a → s'.heap.pNext a = s.heap.pNext a) ∧
    (∀ a s', step .harris list s a = some s' → SetStep list s a s' ∧ ∀ t v,
      ((s.thread t).Removing v → (s'.thread t).Removing v ∨ s'.thread t = .done .remove v true) ∧
      (s'.thread t = .done .remove v true →
        s.thread t = .done .remove v true ∨ (s.thread t).Removing v)) ∧
    ∀ t op v s₁ vs s₂ op' v' r, step .harris list s (.call t op v) = some s₁ →
      System.Visits (step .harris list) (fun _ a => ∀ op v, a ≠ .call t op v) s₁ vs s₂ →
      s₂.thread t = .done op' v' r → op' = op ∧ v' = v ∧ Justified list t vs v r op := by
  have inv := reachable_inv h
  have sorted := inv.shape.sorted
  refine ⟨⟨sorted.path_last inv.shape.head, fun a reached outer =>
    sorted.key_lt a (sorted.path inv.shape.head reached).1 outer⟩, fun s' run a used gone => ?_,
    fun a s' hs => ⟨step_set inv hs, fun t v => ⟨step_removing hs, (step_returns inv hs t v).2.2⟩⟩,
    fun t op v s₁ vs s₂ op' v' r called run returned => ?_⟩
  · have kept := run.invariant h
      (fun s' => s'.used a = true ∧ s'.heap.pNext a = s.heap.pNext a) ⟨used, rfl⟩
      fun m act m' reached _ _ _ hs ⟨used, same⟩ => by
        have grows := (step_inv (reachable_inv reached) hs).2.grows
        have gone' : m.heap.dead a := by
          unfold Heap.dead
          rw [same]
          exact gone
        exact ⟨grows.used a used, (grows.frozen a used gone').trans same⟩
    exact kept.2
  · have enters : s₁.thread t = .search (.call op) v (.start (.enter list list.pHead)) := by
      simp only [step] at called
      split_ifs at called
      obtain rfl := Option.some.inj called
      exact Function.update_self _ _ _
    have inv₁ := (step_inv inv called).1
    have saw : Inv list s₂ ∧ Saw list s₂ vs op v (s₂.thread t) := by
      clear returned
      induction run with
      | start =>
        rw [enters]
        exact ⟨inv₁, rfl, rfl, trivial⟩
      | step run allowed hs ih =>
        obtain ⟨inv, saw⟩ := ih
        exact ⟨(step_inv inv hs).1, step_saw inv run.last_mem saw allowed hs⟩
    have start : Effective list t [s₁] s₁ := by
      refine ⟨fun w returns => ?_, fun w goes => ?_, fun w returns => ?_⟩
      · cases enters.symm.trans returns
      · rw [enters] at goes
        exact goes.elim
      · cases enters.symm.trans returns
    have effective := (visits_effective inv₁ start run).2
    have answer := saw.2
    rw [returned] at answer
    obtain ⟨rfl, rfl, answers⟩ := answer
    exact ⟨rfl, rfl, effective.justified returned answers⟩

def emptyList : ListT := ⟨1, 2, by decide, by decide, by decide⟩

def addRun : List Act :=
  [.call 0 .add 5, .lib 0, .lib 0, .lib 0, .malloc 0 3, .lib 0]

theorem exists_run {x : Variant} {as : List Act} {good : State → Bool}
    (reached : ((System.run (step x emptyList) (State.init emptyList) as).any good) = true) :
    ∃ s, System.Reachable (· = State.init emptyList) (step x emptyList) (fun _ _ => True) s ∧
      good s = true := by
  obtain ⟨s, ran, facts⟩ := (Option.any_eq_true _ _).mp reached
  have start : System.Reachable (· = State.init emptyList) (step x emptyList) (fun _ _ => True)
      (State.init emptyList) := .start rfl
  exact ⟨s, start.follows (System.follows_true_iff.mpr ran), facts⟩

/-- The list that thread 0 has added 5 to has 5. -/
theorem harris_list_set_added : ∃ (vs : List State) (s : State), s.thread 0 = .done .add 5 true ∧ 5 ∈ s.keys emptyList ∧
    Inserts emptyList 0 vs 5 ∧ s.Reached emptyList emptyList.pMax ∧
    ∀ a, s.Reached emptyList a → a ≠ emptyList.pMax → s.heap.val a < s.heap.val (s.heap.next a) := by
  have reached : ((step .harris emptyList (State.init emptyList) (.call 0 .add 5)).any fun s₁ =>
      (System.run (step .harris emptyList) s₁ addRun.tail).any fun s =>
        decide (s.thread 0 = .done .add 5 true) && s.linked 3 && !(s.heap.pNext 3).marked &&
          decide (s.heap.val 3 = 5)) = true := by
    decide +kernel
  obtain ⟨s₁, called, reached⟩ := (Option.any_eq_true _ _).mp reached
  obtain ⟨s, ran, facts⟩ := (Option.any_eq_true _ _).mp reached
  simp only [Bool.and_eq_true, Bool.not_eq_true', decide_eq_true_eq] at facts
  obtain ⟨⟨⟨returned, here⟩, live⟩, key⟩ := facts
  have start : System.Reachable (· = State.init emptyList) (step .harris emptyList) (fun _ _ => True)
      (State.init emptyList) := .start rfl
  have h := (start.step trivial called).follows (System.follows_true_iff.mpr ran)
  have others : ∀ a ∈ addRun.tail, ∀ op v, a ≠ .call 0 op v := by
    simp [addRun]
  have entry : System.Visits (step .harris emptyList) (fun _ a => ∀ op v, a ≠ .call 0 op v) s₁ [s₁] s₁ :=
    .start
  obtain ⟨vs, run⟩ := entry.run (fun a mem _ => others a mem) ran
  obtain ⟨-, -, inserts⟩ := (harris_list_set emptyList _ start).2.2.2 0 .add 5 s₁ vs s .add 5 true called
    run returned
  refine ⟨vs, s, returned, ?_, inserts, (harris_list_set emptyList s h).1⟩
  exact (reachable_inv h).shape.present here (by simp [Heap.dead, live]) key (by decide) (by decide)

end ReadLogUpdate.Harris
