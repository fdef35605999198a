import ReadLogUpdate.Harris.Linearize

/-!
# Marked nodes leave the chain

A marked node that is still reached is the business of a remove that has not returned: it is about
to unlink the node, or its last search has not passed the node yet.
-/

namespace ReadLogUpdate.Harris

open Chain Relation

/-- What the last search of a remove knows of a node that it has to unlink. -/
def SearchOwes (list : ListT) (s : State) (a : Nat) : SearchPc → Prop
  | .start _ => True
  | .checkNext l | .readNext l | .cas l => Path s.heap.next list.pMax l.leftNodeNext a
  | .testNull l | .testMark l => Path s.heap.next list.pMax l.t a

/-- The thread has not unlinked the marked node `a` yet. -/
def Owes (list : ListT) (s : State) (a : Nat) : Pc → Prop
  | .unlink _ _ right _ => right = a
  | .search .cleanup v pc => s.heap.val a = v ∧ SearchOwes list s a pc
  | _ => False

def Owed (list : ListT) (s : State) : Prop :=
  ∀ a, s.Reached list a → s.heap.dead a → ∃ t, Owes list s a (s.thread t)

section Chains
variable {list : ListT} {s s' : State} {a b c x : Nat}

theorem Shape.path_of_run (shape : Shape list s) (run : s.heap.Frozen a b) :
    Path s.heap.next list.pMax a b := by
  unfold Heap.Frozen at run
  induction run with
  | nil => exact .refl _
  | cons gone _ ih => exact .head (shape.outer_of_dead gone) ih

/-- A run of marked nodes passes a node or does not. -/
theorem Heap.Frozen.split {h : Heap} (run : h.Frozen b c) (a : Nat) :
    Run h.next (fun n => h.dead n ∧ n ≠ a) b c ∨ h.Frozen b a ∧ h.dead a ∧ h.Frozen (h.next a) c := by
  unfold Heap.Frozen at run
  induction run with
  | nil => exact .inl (.nil _)
  | @cons b c gone rest ih =>
    by_cases eq : b = a
    · subst eq
      exact .inr ⟨.nil _, gone, rest⟩
    · rcases ih with avoids | ⟨first, there, last⟩
      · exact .inl (.cons ⟨gone, eq⟩ avoids)
      · exact .inr ⟨.cons gone first, there, last⟩

/-- The marked nodes behind a node are off the chain when they are unlinked. -/
theorem Shape.not_reached (shape : Shape list s) (shape' : Shape list s') (grows : Grows s s')
    (here : s.Linked x) (live : ¬ s.heap.dead x) (live' : ¬ s'.heap.dead x) (outer : x ≠ list.pMax)
    (next : s'.heap.next x = c) (first : s.heap.Frozen (s.heap.next x) a) (gone : s.heap.dead a)
    (last : s.heap.Frozen (s.heap.next a) c) : ¬ s'.Reached list a := by
  have val {b : Nat} (h : s.Linked b) := grows.val b (shape.used b h)
  have behind := shape.sorted.next_linked x here outer
  have passed := shape.of_run first behind
  have inner := shape.outer_of_dead gone
  have ends := shape.of_run last (shape.sorted.next_linked a passed.1 inner)
  have above : s.heap.val x < s.heap.val a := (shape.sorted.key_lt x here outer).trans_le passed.2
  have below : s.heap.val a < s.heap.val c := (shape.sorted.key_lt a passed.1 inner).trans_le ends.2
  intro reached
  have linked' := shape'.sorted.path shape'.head reached
  rcases reached.total (shape'.reached x (grows.linked x here) live') with path | path
  · have le := shape'.sorted.key_le_of_path linked'.1 path
    rw [val here, val passed.1] at le
    omega
  · rcases path.cases with rfl | ⟨-, rest⟩
    · exact live gone
    · rw [next] at rest
      have le := shape'.sorted.key_le_of_path (grows.linked c ends.1) rest
      rw [val ends.1, val passed.1] at le
      omega

/-- A path to a marked node stays while the node is on the chain. -/
theorem HeapStep.path (shape : Shape list s) (step : HeapStep list s s') (here : s.Linked b)
    (gone : s.heap.dead a) (reached : s'.Reached list a) (path : Path s.heap.next list.pMax b a) :
    Path s'.heap.next list.pMax b a := by
  have shape' := step.shape shape
  have grows := step.grows
  cases step with
  | same heap used linked => rwa [heap]
  | malloc x v r ne unused heap used linked =>
    refine shape.sorted.path_congr here path fun y there => ?_
    have other : y ≠ x := by
      rintro rfl
      have taken := shape.used y there
      rw [unused] at taken
      cases taken
    unfold Heap.next
    rw [heap]
    exact congrArg Ref.addr (Function.update_of_ne other _ _)
  | link x new there live outer private_ next above below heap used linked =>
    have next' : s'.heap.next = Function.update s.heap.next x new := by
      rw [heap]
      exact Heap.setNext_next
    rw [next']
    refine path.insert ?_ ?_ ?_
    · rintro rfl
      exact private_.2 there
    · rintro rfl
      exact private_.2 shape.max
    · show (s.heap.pNext new).addr = _
      rw [next]
      rfl
  | mark x there live inner outer heap used linked =>
    have next' : s'.heap.next = s.heap.next := by
      rw [heap, Heap.setNext_next, Function.update_eq_self]
    rwa [next']
  | unlink x c there live outer run heap used linked =>
    have next' : s'.heap.next = Function.update s.heap.next x c := by
      rw [heap]
      exact Heap.setNext_next
    rcases run.split a with avoids | ⟨first, -, last⟩
    · rw [next']
      exact path.unlink (fun dead => dead.2 rfl) (fun dead => live dead.1) avoids
    · refine absurd reached (shape.not_reached shape' grows there live ?_ outer ?_ first gone last)
      · rw [heap]
        exact Heap.setNext_dead_self.not.mpr Bool.false_ne_true
      · rw [next', Function.update_self]

theorem HeapStep.reached_back (shape : Shape list s) (step : HeapStep list s s')
    (gone : s'.heap.dead a) (reached : s'.Reached list a) : s.Reached list a := by
  have onward {b : Nat} (reached : s.Reached list b) (outer : b ≠ list.pMax) :
      s.Reached list (s.heap.next b) := reached.tail ⟨outer, rfl⟩
  -- links that lead from the chain to the chain
  have back (next : ∀ b, s.Reached list b → b ≠ list.pMax → s.Reached list (s'.heap.next b)) :
      s.Reached list a := by
    clear gone
    unfold State.Reached at reached
    induction reached with
    | refl => exact .refl _
    | @tail b c _ edge ih =>
      obtain ⟨outer, rfl⟩ := edge
      exact next b ih outer
  cases step with
  | same heap used linked =>
    refine back fun b here outer => ?_
    rw [heap]
    exact onward here outer
  | malloc x v r ne unused heap used linked =>
    refine back fun b here outer => ?_
    have other : b ≠ x := by
      rintro rfl
      have taken := shape.used b (shape.sorted.path shape.head here).1
      rw [unused] at taken
      cases taken
    have same : s'.heap.next b = s.heap.next b := by
      unfold Heap.next
      rw [heap]
      exact congrArg Ref.addr (Function.update_of_ne other _ _)
    rw [same]
    exact onward here outer
  | link x new there live outer private_ next above below heap used linked =>
    have next' : s'.heap.next = Function.update s.heap.next x new := by
      rw [heap]
      exact Heap.setNext_next
    have other : new ≠ x := by
      rintro rfl
      exact private_.2 there
    have either : a = new ∨ s.Reached list a := by
      clear gone back
      unfold State.Reached at reached
      induction reached with
      | refl => exact .inr (.refl _)
      | @tail b c _ edge ih =>
        obtain ⟨inner, rfl⟩ := edge
        rw [next']
        by_cases eq : b = x
        · rw [eq, Function.update_self]
          exact .inl rfl
        · rw [Function.update_of_ne eq]
          rcases ih with rfl | here
          · have same : s.heap.next b = s.heap.next x := by
              show (s.heap.pNext b).addr = _
              rw [next]
              rfl
            rw [same]
            exact .inr (onward (shape.reached x there live) outer)
          · exact .inr (onward here inner)
    rcases either with rfl | here
    · unfold Heap.dead at gone
      rw [heap, Heap.setNext_of_ne other, next] at gone
      cases gone
    · exact here
  | mark x there live inner outer heap used linked =>
    refine back fun b here outer => ?_
    rw [heap, Heap.setNext_next, Function.update_eq_self]
    exact onward here outer
  | unlink x c there live outer run heap used linked =>
    have next' : s'.heap.next = Function.update s.heap.next x c := by
      rw [heap]
      exact Heap.setNext_next
    refine back fun b here inner => ?_
    rw [next']
    by_cases eq : b = x
    · subst eq
      rw [Function.update_self]
      exact (onward here outer).trans (shape.path_of_run run)
    · rw [Function.update_of_ne eq]
      exact onward here inner

end Chains

section Step
variable {x : Variant} {list : ListT} {s s' : State} {t a : Nat}

/-- A search that has not passed the node has it behind a node that it knows. -/
theorem Owes.mono (shape : Shape list s) (step : HeapStep list s s') (gone : s.heap.dead a)
    (reached : s.Reached list a) (reached' : s'.Reached list a) {pc : Pc} (knows : Knows s pc)
    (owes : Owes list s a pc) : Owes list s' a pc := by
  have here := (shape.sorted.path shape.head reached).1
  cases pc with
  | search k v pc =>
    cases k with
    | call op => exact owes
    | cleanup =>
      obtain ⟨key, owes⟩ := owes
      obtain ⟨-, -, knows⟩ := knows
      refine ⟨(step.grows.val a (shape.used a here)).trans key, ?_⟩
      cases pc with
      | start l => trivial
      | checkNext l | readNext l => exact step.path shape knows.2.2.1 gone reached' owes
      | cas l => exact step.path shape knows.2.2.1.1 gone reached' owes
      | testNull l | testMark l => exact step.path shape knows.2.2.1 gone reached' owes
  | _ => exact owes

/-- A marked node behind a live one is behind its next node. -/
theorem Shape.path_next (shape : Shape list s) (here : s.Linked b) (live : ¬ s.heap.dead b)
    (gone : s.heap.dead a) (reached : s.Reached list a) (le : s.heap.val b ≤ s.heap.val a) :
    Path s.heap.next list.pMax (s.heap.next b) a := by
  have there := (shape.sorted.path shape.head reached).1
  rcases (shape.reached b here live).total reached with path | path
  · rcases path.cases with rfl | ⟨-, rest⟩
    · exact absurd gone live
    · exact rest
  · rcases (shape.sorted.path there path).2 with rfl | lt
    · exact absurd gone live
    · exact absurd lt le.not_gt

theorem Shape.advance_owes (shape : Shape list s) (gone : s.heap.dead a) (reached : s.Reached list a)
    {l : Locals} (here : s.Linked l.t) (run : ¬ s.heap.dead l.t → s.heap.val l.t ≤ s.heap.val a)
    (owes : s.heap.dead l.t → Path s.heap.next list.pMax l.leftNodeNext a) :
    SearchOwes list s a (.checkNext (l.advance .harris (s.heap.pNext l.t))) := by
  unfold Locals.advance isMarkedRef
  split_ifs with marked
  · exact owes marked
  · exact shape.path_next here marked gone reached (run marked)

theorem SearchOwes.scanned {l : Locals} (owes : Path s.heap.next list.pMax l.leftNodeNext a) :
    SearchOwes list s a l.scanned := by
  unfold Locals.scanned
  split_ifs with adjacent
  · rw [SearchOwes, ← adjacent]
    exact owes
  · exact owes

/-- Nothing from a live node with a key from `v` on is a marked node with key `v`. -/
theorem Shape.not_path (shape : Shape list s) {b : Nat} (here : s.Linked b) (live : ¬ s.heap.dead b)
    (gone : s.heap.dead a) (le : s.heap.val a ≤ s.heap.val b) :
    ¬ Path s.heap.next list.pMax b a := by
  intro path
  rcases (shape.sorted.path here path).2 with rfl | lt
  · exact live gone
  · exact absurd lt le.not_gt

/-- The last search of a remove returns only when the node is off the chain. -/
theorem searchStep_owes (shape : Shape list s) (step : HeapStep list s s') (gone : s.heap.dead a)
    (reached : s.Reached list a) (reached' : s'.Reached list a) {v : Int} {pc : SearchPc}
    (knows : SearchKnows s v pc) (lo : listValMin < v) (key : s.heap.val a = v)
    (owes : SearchOwes list s a pc)
    (heap : s'.heap = (searchStep .harris list v s.heap pc).1) :
    ∃ pc', (searchStep .harris list v s.heap pc).2 = .inl pc' ∧ SearchOwes list s' a pc' := by
  cases pc with
  | start l =>
    refine ⟨_, rfl, ?_⟩
    have same : s'.heap = s.heap := heap
    have next := shape.advance_owes (l := { l with leftNodeNext := list.pHead, t := list.pHead }) gone
      reached shape.head (fun _ => ?_) fun dead => absurd dead shape.headLive
    · unfold SearchOwes
      rw [same]
      exact next
    · rw [shape.headVal, key]
      exact lo.le
  | checkNext l =>
    have same : s'.heap = s.heap := by
      rw [heap]
      simp only [searchStep]
      split_ifs <;> rfl
    unfold SearchOwes at owes
    rw [← same] at owes
    simp only [searchStep]
    split_ifs
    · exact ⟨_, rfl, SearchOwes.scanned owes⟩
    · exact ⟨_, rfl, owes⟩
  | readNext l =>
    have same : s'.heap = s.heap := by
      rw [heap]
      simp only [searchStep]
      split_ifs <;> rfl
    obtain ⟨left, mine, scanned⟩ := knows
    simp only [searchStep]
    split_ifs with more
    · refine ⟨_, rfl, ?_⟩
      have next := shape.advance_owes gone reached scanned.2.1
        (fun live => key ▸ (more.resolve_left live).le) fun _ => owes
      unfold SearchOwes
      rw [same]
      exact next
    · unfold SearchOwes at owes
      rw [← same] at owes
      exact ⟨_, rfl, SearchOwes.scanned owes⟩
  | cas l =>
    obtain ⟨left, mine, scanned, le⟩ := knows
    simp only [searchStep] at heap ⊢
    split_ifs at heap ⊢ with expected
    · refine ⟨_, rfl, ?_⟩
      obtain ⟨live, outer, next⟩ := shape.live_of_ref left.1 expected scanned.1
      rcases scanned.2.2.split a with avoids | ⟨first, -, last⟩
      · have behind : Path s.heap.next list.pMax l.t a := avoids.skip owes fun dead => dead.2 rfl
        exact step.path shape scanned.2.1 gone reached' behind
      · -- the store has just taken the node off the chain
        rw [← next] at first
        refine absurd reached' (shape.not_reached (step.shape shape) step.grows left.1 live ?_ outer ?_
          first gone last)
        · rw [heap]
          exact Heap.setNext_dead_self.not.mpr Bool.false_ne_true
        · rw [heap, Heap.setNext_next, Function.update_self]
          rfl
    · exact ⟨_, rfl, trivial⟩
  | testNull l =>
    obtain ⟨left, mine, here, le⟩ := knows
    simp only [searchStep] at heap ⊢
    split_ifs at heap ⊢ with isNull
    · have live : ¬ s.heap.dead l.t := by
        rw [shape.eq_max here isNull]
        exact shape.max_live
      exact absurd owes (shape.not_path here live gone (by rw [key]; exact le))
    · refine ⟨_, rfl, ?_⟩
      unfold SearchOwes
      rw [heap]
      exact owes
  | testMark l =>
    obtain ⟨left, mine, here, le⟩ := knows
    simp only [searchStep]
    split_ifs with marked
    · exact ⟨_, rfl, trivial⟩
    · exact absurd owes (shape.not_path here marked gone (by rw [key]; exact le))

/-- What a thread has to unlink is off the chain after its step, or still its business. -/
theorem libStep_owes (inv : Inv list s) {e : Heap × Option Nat × Pc} (gone : s.heap.dead a)
    (reached : s.Reached list a) (reached' : (s.after t e).Reached list a)
    (owes : Owes list s a (s.thread t)) (stepped : libStep x list s.heap (s.thread t) = some e) :
    Owes list (s.after t e) a e.2.2 := by
  have shape := inv.shape
  have knows := inv.knows t
  obtain ⟨step, -, -⟩ := libStep_heap shape knows stepped
  cases hpc : s.thread t with
  | search k v pc =>
    rw [hpc] at stepped knows owes
    cases k with
    | call op => exact owes.elim
    | cleanup =>
      obtain ⟨key, owes⟩ := owes
      obtain ⟨lo, hi, knows⟩ := knows
      simp only [libStep, Caller.variant] at stepped
      have heap : (s.after t e).heap = (searchStep .harris list v s.heap pc).1 := by
        split at stepped <;> rename_i returned <;> rw [returned] <;>
          obtain rfl := Option.some.inj stepped <;> rfl
      obtain ⟨pc', goes, owes'⟩ :=
        searchStep_owes shape step gone reached reached' knows lo key owes heap
      split at stepped
      · rename_i h' pc'' returned
        obtain rfl := Option.some.inj stepped
        rw [returned] at goes
        obtain rfl := Sum.inl.inj goes
        have here := (shape.sorted.path shape.head reached).1
        exact ⟨(step.grows.val a (shape.used a here)).trans key, owes'⟩
      · rename_i h' l returned
        rw [returned] at goes
        cases goes
  | unlink v left right next =>
    rw [hpc] at stepped knows owes
    obtain ⟨lo, hi, left', here, key, unmarked, marked⟩ := knows
    obtain rfl : right = a := owes
    simp only [libStep] at stepped
    split_ifs at stepped with expected
    · obtain rfl := Option.some.inj stepped
      obtain ⟨live, outer, leads⟩ := shape.live_of_ref left'.1 expected here
      have first : s.heap.Frozen (s.heap.next left) right := by
        rw [leads]
        exact .nil _
      have last : s.heap.Frozen (s.heap.next right) next.addr := by
        unfold Heap.next
        rw [marked]
        exact .nil _
      refine absurd reached' (shape.not_reached (step.shape shape) step.grows left'.1 live ?_ outer ?_
        first gone last)
      · exact Heap.setNext_dead_self.not.mpr (by rw [unmarked]; exact Bool.false_ne_true)
      · show (s.heap.setNext left next).next left = _
        rw [Heap.setNext_next, Function.update_self]
    · obtain rfl := Option.some.inj stepped
      exact ⟨key, trivial⟩
  | _ =>
    rw [hpc] at owes
    exact owes.elim

theorem step_owed {act : Act} (inv : Inv list s) (owed : Owed list s)
    (hs : step x list s act = some s') : Owed list s' := by
  have heapStep := (step_inv inv hs).2
  intro a reached' gone'
  have reached := heapStep.reached_back inv.shape gone' reached'
  have kept {t : Nat} (gone : s.heap.dead a) (owes : Owes list s a (s.thread t)) :
      Owes list s' a (s.thread t) :=
    owes.mono inv.shape heapStep gone reached reached' (inv.knows t)
  have others {u : Nat} {pc : Pc} (thread : s'.thread = Function.update s.thread u pc)
      (gone : s.heap.dead a) (free : ¬ Owes list s a (s.thread u)) :
      ∃ t, Owes list s' a (s'.thread t) := by
    obtain ⟨t, owes⟩ := owed a reached gone
    refine ⟨t, ?_⟩
    rw [thread, Function.update_of_ne (by rintro rfl; exact free owes)]
    exact kept gone owes
  cases act with
  | call u op v =>
    simp only [step] at hs
    split_ifs at hs with free
    obtain rfl := Option.some.inj hs
    refine others (u := u) rfl gone' fun owes => ?_
    cases hpc : s.thread u with
    | idle | done =>
      rw [hpc] at owes
      exact owes
    | _ =>
      rw [hpc] at free
      cases free.1
  | malloc u b =>
    have here := (inv.shape.sorted.path inv.shape.head reached).1
    simp only [step] at hs
    split at hs
    · rename_i v left right hpc
      split_ifs at hs with free
      obtain rfl := Option.some.inj hs
      refine others (u := u) rfl ?_ (by rw [hpc]; exact id)
      have other : a ≠ b := by
        rintro rfl
        have taken := inv.shape.used a here
        rw [free.2] at taken
        cases taken
      change (Function.update s.heap.pNext b _ a).marked = true at gone'
      rwa [Function.update_of_ne other] at gone'
    · cases hs
  | lib u =>
    obtain ⟨e, stepped, rfl⟩ := Option.map_eq_some_iff.mp hs
    rcases libStep_dead (inv.knows u) stepped gone' with gone | ⟨v, left, next, -, goes⟩
    · by_cases mine : Owes list s a (s.thread u)
      · refine ⟨u, ?_⟩
        show Owes list _ a (Function.update s.thread u e.2.2 u)
        rw [Function.update_self]
        exact libStep_owes inv gone reached reached' mine stepped
      · exact others rfl gone mine
    · -- the node has just been marked
      refine ⟨u, ?_⟩
      show Owes list _ a (Function.update s.thread u e.2.2 u)
      rw [Function.update_self, goes]
      rfl

theorem reachable_owed {ok : State → Act → Prop}
    (h : System.Reachable (· = State.init list) (step x list) ok s) : Owed list s := by
  refine System.Reachable.invariant_of (Owed list) (fun _ => reachable_inv) ?_
    (fun _ _ _ inv _ owed _ hs => step_owed inv owed hs) h
  rintro _ rfl a reached gone
  have shape := (init_inv list).shape
  have linked := (shape.sorted.path shape.head reached).1
  simp [State.Linked, State.init] at linked
  rcases linked with rfl | rfl
  · exact absurd gone shape.headLive
  · exact absurd gone shape.max_live

end Step

end ReadLogUpdate.Harris
