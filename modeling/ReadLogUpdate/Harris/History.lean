import ReadLogUpdate.Atomic
import ReadLogUpdate.Harris.Accounting

/-!
# Linearizability

Every history of calls and returns of the lock-free lists is one of a set on which each call takes
effect at one point between its call and its return.
-/

namespace ReadLogUpdate.Harris

open ReadLogUpdate.Sequential Atomic

def event : Act → State → Option (Event (Op × Int) Bool)
  | .call t op v, _ => some (.call t (op, v))
  | .lib t, s' => (s'.thread t).returned.map fun r => .ret t r.result
  | .malloc _ _, _ => none

def setApply (S : Finset Int) (op : Op × Int) : Bool × Finset Int := apply S op.2 op.1

/-- `S` is the set of the list. -/
def Represents (list : ListT) (s : State) (S : Finset Int) : Prop := ∀ v, v ∈ S ↔ v ∈ s.keys list

def Fits (list : ListT) (s : State) (pc : Pc) : Progress (Finset Int) (Op × Int) Bool → Prop
  | .idle => pc.atRest = true
  | .pending op seen => pc.atRest = false ∧ ¬ pc.Removing op.2 ∧ ∃ vs, s ∈ vs ∧
      (∀ m ∈ vs, ∃ S ∈ seen, Represents list m S) ∧ Saw list s vs op.1 op.2 pc
  | .committed r => r = true ∧ ∃ v, pc.Removing v

theorem Pc.Removing.not_rest {pc : Pc} {v : Int} (h : pc.Removing v) : pc.atRest = false := by
  cases pc with
  | idle | done => exact h.elim
  | _ => rfl

section Step
variable {x : Variant} {list : ListT} {s s' : State} {a : Act} {t : Nat} {v : Int} {S : Finset Int}
  {c : Progress (Finset Int) (Op × Int) Bool} {g : Nat → Progress (Finset Int) (Op × Int) Bool}

theorem Fits.idle {pc : Pc} (fits : Fits list s pc c) (rest : pc.atRest = true) : c = .idle := by
  cases c with
  | idle => rfl
  | pending op seen =>
    rw [fits.1] at rest
    cases rest
  | committed r =>
    obtain ⟨-, v, removing⟩ := fits
    rw [removing.not_rest] at rest
    cases rest

/-- A set that a call has seen gives it the answer. -/
theorem answers_of_saw {vs : List State} {seen : List (Finset Int)} {op : Op} {r : Bool}
    (matched : ∀ m ∈ vs, ∃ S ∈ seen, Represents list m S) (answers : Harris.Answers list vs v r op)
    (notAdd : op = .add → r = false) (notRemove : op = .remove → r = false) :
    ∃ S ∈ seen, setApply S (op, v) = (r, S) := by
  have shown (h : Shown list vs v) : ∃ S ∈ seen, v ∈ S := by
    obtain ⟨m, mem, has⟩ := h
    obtain ⟨S, inside, represents⟩ := matched m mem
    exact ⟨S, inside, (represents v).mpr has⟩
  have hidden (h : Hidden list vs v) : ∃ S ∈ seen, v ∉ S := by
    obtain ⟨m, mem, lacks⟩ := h
    obtain ⟨S, inside, represents⟩ := matched m mem
    exact ⟨S, inside, fun has => lacks ((represents v).mp has)⟩
  cases op with
  | contains =>
    unfold Harris.Answers at answers
    split_ifs at answers with yes
    · obtain ⟨S, inside, has⟩ := shown answers
      exact ⟨S, inside, by simp [setApply, Sequential.apply, has, yes]⟩
    · obtain ⟨S, inside, lacks⟩ := hidden answers
      exact ⟨S, inside, by simp [setApply, Sequential.apply, lacks, yes]⟩
  | add =>
    obtain rfl := notAdd rfl
    obtain ⟨S, inside, has⟩ := shown (answers rfl)
    exact ⟨S, inside, apply_add_of_mem has⟩
  | remove =>
    obtain rfl := notRemove rfl
    obtain ⟨S, inside, lacks⟩ := hidden (answers rfl)
    exact ⟨S, inside, apply_remove_of_notMem lacks⟩

theorem seen_step (inv : Inv list s) (hs : step x list s a = some s') {op : Op × Int}
    {vs : List State} {seen seen' : List (Finset Int)} (mem : s ∈ vs)
    (matched : ∀ m ∈ vs, ∃ S ∈ seen, Represents list m S) (saw : Saw list s vs op.1 op.2 (s.thread t))
    (running : ∀ op v, a ≠ .call t op v) (more : ∀ S ∈ seen, S ∈ seen')
    (here : ∃ S ∈ seen', Represents list s' S) : ∃ vs', s' ∈ vs' ∧
      (∀ m ∈ vs', ∃ S ∈ seen', Represents list m S) ∧ Saw list s' vs' op.1 op.2 (s'.thread t) := by
  refine ⟨s' :: vs, List.mem_cons_self, fun m mem' => ?_, step_saw inv mem saw running hs⟩
  rcases List.mem_cons.mp mem' with rfl | mem'
  · exact here
  · obtain ⟨S, inside, represents⟩ := matched m mem'
    exact ⟨S, more S inside, represents⟩

/-- The set is still among those that a call has seen. -/
theorem seen_same {vs : List State} {seen : List (Finset Int)} (mem : s ∈ vs)
    (matched : ∀ m ∈ vs, ∃ S ∈ seen, Represents list m S) (keys : s'.keys list = s.keys list) :
    ∃ S ∈ seen, Represents list s' S := by
  obtain ⟨S, inside, represents⟩ := matched s mem
  exact ⟨S, inside, fun v => (represents v).trans (by rw [keys])⟩

theorem Fits.same (inv : Inv list s) (hs : step x list s a = some s')
    (fits : Fits list s (s.thread t) c) (thread : s'.thread t = s.thread t)
    (running : ∀ op v, a ≠ .call t op v) (keys : s'.keys list = s.keys list) :
    Fits list s' (s'.thread t) c := by
  cases c with
  | idle | committed r =>
    rw [thread]
    exact fits
  | pending op seen =>
    obtain ⟨active, notRemoving, vs, mem, matched, saw⟩ := fits
    refine ⟨by rwa [thread], by rwa [thread], ?_⟩
    exact seen_step inv hs mem matched saw running (fun _ => id) (seen_same mem matched keys)

theorem Fits.see (inv : Inv list s) (hs : step x list s a = some s')
    (fits : Fits list s (s.thread t) c) (thread : s'.thread t = s.thread t)
    (running : ∀ op v, a ≠ .call t op v) (represents : Represents list s' S) :
    Fits list s' (s'.thread t) (c.see S) := by
  cases c with
  | idle | committed r =>
    rw [thread]
    exact fits
  | pending op seen =>
    obtain ⟨active, notRemoving, vs, mem, matched, saw⟩ := fits
    refine ⟨by rwa [thread], by rwa [thread], ?_⟩
    exact seen_step inv hs mem matched saw running (fun _ => List.mem_cons_of_mem _)
      ⟨S, List.mem_cons_self, represents⟩

/-- The object behind a state of the lists, after history `es`. -/
def Behind (list : ListT) (es : List (Event (Op × Int) Bool)) (s : State) : Prop :=
  ∃ S g, Explained setApply ∅ es S g ∧ Represents list s S ∧ ∀ t, Fits list s (s.thread t) (g t)

theorem step_other_call {u : Nat} (ne : u ≠ a.thread) (op : Op) (v : Int) : a ≠ .call u op v := by
  rintro rfl
  exact ne rfl

theorem Behind.quiet {es : List (Event (Op × Int) Bool)} (inv : Inv list s)
    (hs : step x list s a = some s') (explained : Explained setApply ∅ es S g)
    (represents : Represents list s S) (fits : ∀ t, Fits list s (s.thread t) (g t))
    (keys : s'.keys list = s.keys list) (mine : Fits list s' (s'.thread a.thread) (g a.thread)) :
    Behind list es s' := by
  refine ⟨S, g, explained, fun v => (represents v).trans (by rw [keys]), fun u => ?_⟩
  by_cases eq : u = a.thread
  · rw [eq]
    exact mine
  · exact (fits u).same inv hs (step_other hs eq) (step_other_call eq) keys

/-- A step that leaves the set, and ends a call with an answer that it has seen. -/
theorem Behind.ret {es : List (Event (Op × Int) Bool)} {r : Bool} (inv : Inv list s)
    (hs : step x list s a = some s') (explained : Explained setApply ∅ es S g)
    (represents : Represents list s S) (fits : ∀ t, Fits list s (s.thread t) (g t))
    (keys : s'.keys list = s.keys list) (answers : (g a.thread).Answers setApply r)
    (rest : (s'.thread a.thread).atRest = true) : Behind list (.ret a.thread r :: es) s' := by
  refine ⟨S, _, explained.ret a.thread r answers, fun v => (represents v).trans (by rw [keys]),
    fun u => ?_⟩
  by_cases eq : u = a.thread
  · rw [eq, Function.update_self]
    exact rest
  · rw [Function.update_of_ne eq]
    exact (fits u).same inv hs (step_other hs eq) (step_other_call eq) keys

theorem Behind.commit {es : List (Event (Op × Int) Bool)} {op : Op × Int} {seen : List (Finset Int)}
    (inv : Inv list s) (hs : step x list s a = some s') (explained : Explained setApply ∅ es S g)
    (fits : ∀ t, Fits list s (s.thread t) (g t)) (pending : g a.thread = .pending op seen)
    (represents' : Represents list s' (setApply S op).2) :
    ∃ g', Explained setApply ∅ es (setApply S op).2 g' ∧ g' a.thread = .committed (setApply S op).1 ∧
      ∀ u, u ≠ a.thread → Fits list s' (s'.thread u) (g' u) := by
  refine ⟨_, explained.commit a.thread op seen pending, Function.update_self _ _ _, fun u ne => ?_⟩
  rw [Function.update_of_ne ne]
  exact (fits u).see inv hs (step_other hs ne) (step_other_call ne) represents'

theorem Pc.returned_of_active {pc : Pc} (active : pc.atRest = false) : pc.returned = none := by
  cases pc with
  | idle | done => cases active
  | _ => rfl

theorem libStep_active {pc : Pc} {e : Heap × Option Nat × Pc} (stepped : libStep x list s.heap pc = some e) :
    pc.atRest = false := by
  cases pc with
  | idle | done => cases stepped
  | _ => rfl

theorem libStep_committed {es : List (Event (Op × Int) Bool)} {r : Bool} (inv : Inv list s)
    (hs : step x list s (.lib t) = some s') (explained : Explained setApply ∅ es S g)
    (represents : Represents list s S) (fits : ∀ t, Fits list s (s.thread t) (g t))
    (committed : g t = .committed r) :
    Behind list ((event (.lib t) s').toList ++ es) s' := by
  have mine := fits t
  rw [committed] at mine
  obtain ⟨rfl, v, removing⟩ := mine
  have keys : s'.keys list = s.keys list := by
    cases step_set inv hs with
    | same keys => exact keys
    | add t' w left right new act pc =>
      obtain rfl := Act.lib.inj act
      rw [pc] at removing
      exact removing.elim
    | remove t' w left right next act pc =>
      obtain rfl := Act.lib.inj act
      rw [pc] at removing
      exact removing.elim
  rcases step_removing hs removing with goes | returns
  · have none : event (.lib t) s' = none := by
      simp only [event, Pc.returned_of_active goes.not_rest, Option.map_none]
    rw [none]
    refine Behind.quiet inv hs explained represents fits keys ?_
    show Fits list s' (s'.thread t) (g t)
    rw [committed]
    exact ⟨rfl, v, goes⟩
  · have some : event (.lib t) s' = some (.ret t true) := by
      simp only [event, returns, Pc.returned, Option.map_some]
    rw [some]
    refine Behind.ret inv hs explained represents fits keys ?_ (by rw [Act.thread, returns]; rfl)
    show (g t).Answers setApply true
    rw [committed]
    rfl

theorem libStep_pending {es : List (Event (Op × Int) Bool)} {op : Op} {v : Int}
    {seen : List (Finset Int)} (inv : Inv list s)
    (hs : step x list s (.lib t) = some s') (explained : Explained setApply ∅ es S g)
    (represents : Represents list s S) (fits : ∀ t, Fits list s (s.thread t) (g t))
    (pending : g t = .pending (op, v) seen) :
    Behind list ((event (.lib t) s').toList ++ es) s' := by
  have mine := fits t
  rw [pending] at mine
  obtain ⟨active, notRemoving, vs, mem, matched, saw⟩ := mine
  have running (op' : Op) (v' : Int) : Act.lib t ≠ .call t op' v' := by simp
  have saw' := step_saw inv mem saw running hs
  have set := step_set inv hs
  obtain ⟨added, marked, removed⟩ : (s'.thread t = .done .add v true → v ∉ s.keys list ∧ v ∈ s'.keys list) ∧
      ((s'.thread t).Removing v → (s.thread t).Removing v ∨ v ∈ s.keys list ∧ v ∉ s'.keys list) ∧
      (s'.thread t = .done .remove v true → (s.thread t).Removing v) := by
    obtain ⟨e, stepped, rfl⟩ := Option.map_eq_some_iff.mp hs
    have returns := libStep_returns (v := v) inv stepped
    rw [← show (s.after t e).thread t = e.2.2 from Function.update_self _ _ _] at returns
    exact returns
  cases set with
  | same keys =>
    by_cases rest : (s'.thread t).atRest = true
    · cases hpc : s'.thread t with
      | done op' v' r =>
        rw [hpc] at saw' added removed
        obtain ⟨rfl, rfl, answers⟩ := saw'
        have some : event (.lib t) s' = some (.ret t r) := by
          simp only [event, hpc, Pc.returned, Option.map_some]
        rw [some]
        refine Behind.ret inv hs explained represents fits keys ?_ (by rw [Act.thread, hpc]; rfl)
        show (g t).Answers setApply r
        rw [pending]
        have matched' (m : State) (mem' : m ∈ s' :: vs) : ∃ S ∈ seen, Represents list m S := by
          rcases List.mem_cons.mp mem' with rfl | mem'
          · exact seen_same mem matched keys
          · exact matched m mem'
        refine answers_of_saw matched' answers (fun isAdd => ?_) fun isRemove => ?_
        · cases r with
          | false => rfl
          | true =>
            obtain ⟨absent, present⟩ := added (by rw [isAdd])
            rw [keys] at present
            exact absurd present absent
        · cases r with
          | false => rfl
          | true => exact absurd (removed (by rw [isRemove])) notRemoving
      | idle =>
        rw [hpc] at saw'
        exact saw'.elim
      | _ =>
        rw [hpc] at rest
        cases rest
    · have active' : (s'.thread t).atRest = false := by simpa using rest
      have none : event (.lib t) s' = none := by
        simp only [event, Pc.returned_of_active active', Option.map_none]
      rw [none]
      refine Behind.quiet inv hs explained represents fits keys ?_
      show Fits list s' (s'.thread t) (g t)
      rw [pending]
      refine ⟨active', fun goes => ?_, ?_⟩
      · rcases marked goes with before | ⟨present, absent⟩
        · exact notRemoving before
        · rw [keys] at absent
          exact absent present
      · exact seen_step inv hs mem matched saw running (fun _ => id) (seen_same mem matched keys)
  | add t' w left right new act pc returns absent keys =>
    obtain rfl := Act.lib.inj act
    rw [pc] at saw
    obtain ⟨rfl, rfl⟩ : op = .add ∧ w = v := saw
    have effect : setApply S (.add, w) = (true, insert w S) :=
      apply_add_of_notMem fun has => absent ((represents w).mp has)
    have represents' : Represents list s' (setApply S (.add, w)).2 := by
      rw [effect]
      intro v
      rw [keys, Finset.mem_insert, Set.mem_insert_iff, represents v]
    obtain ⟨g', explained', committed, others⟩ :=
      Behind.commit inv hs explained fits pending represents'
    have some : event (.lib t) s' = some (.ret t true) := by
      simp only [event, returns, Pc.returned, Option.map_some]
    rw [some]
    refine ⟨_, _, explained'.ret t true ?_, represents', fun u => ?_⟩
    · rw [show g' t = _ from committed, effect]
      rfl
    · by_cases eq : u = t
      · rw [eq, Function.update_self, returns]
        rfl
      · rw [Function.update_of_ne eq]
        exact others u eq
  | remove t' w left right next act pc goes present keys =>
    obtain rfl := Act.lib.inj act
    rw [pc] at saw
    obtain ⟨rfl, rfl⟩ : op = .remove ∧ w = v := saw
    have effect : setApply S (.remove, w) = (true, S.erase w) :=
      apply_remove_of_mem ((represents w).mpr present)
    have represents' : Represents list s' (setApply S (.remove, w)).2 := by
      rw [effect]
      intro v
      rw [keys, Finset.mem_erase, Set.mem_sdiff, Set.mem_singleton_iff, represents v]
      exact and_comm
    obtain ⟨g', explained', committed, others⟩ :=
      Behind.commit inv hs explained fits pending represents'
    have none : event (.lib t) s' = none := by
      simp only [event, Pc.returned_of_active goes.not_rest, Option.map_none]
    rw [none]
    refine ⟨_, g', explained', represents', fun u => ?_⟩
    by_cases eq : u = t
    · rw [eq, show g' t = _ from committed, effect]
      exact ⟨rfl, w, goes⟩
    · exact others u eq

theorem step_behind {es : List (Event (Op × Int) Bool)} (inv : Inv list s)
    (hs : step x list s a = some s') (behind : Behind list es s) :
    Behind list ((event a s').toList ++ es) s' := by
  obtain ⟨S, g, explained, represents, fits⟩ := behind
  -- a step outside the calls changes no set
  have keys (notLib : ∀ t, a ≠ .lib t) : s'.keys list = s.keys list := by
    cases step_set inv hs with
    | same keys => exact keys
    | add t v left right new act => exact absurd act (notLib t)
    | remove t v left right next act => exact absurd act (notLib t)
  cases a with
  | call t op v =>
    have same := keys (by intro t h; cases h)
    have called := hs
    simp only [step] at hs
    split_ifs at hs with free
    have idle : g t = .idle := (fits t).idle free.1
    refine ⟨S, _, explained.call t (op, v) idle, fun w => (represents w).trans (by rw [same]), fun u => ?_⟩
    by_cases eq : u = t
    · subst eq
      obtain rfl := Option.some.inj hs
      rw [Function.update_self]
      show Fits list _ (Function.update s.thread u _ u) _
      rw [Function.update_self]
      exact ⟨rfl, id, [_], List.mem_singleton_self _, fun m mem => ⟨S, List.mem_singleton_self S,
        fun w => (represents w).trans (by rw [List.mem_singleton.mp mem, same])⟩, rfl, rfl, trivial⟩
    · rw [Function.update_of_ne eq]
      exact (fits u).same inv called (step_other called eq) (step_other_call eq) same
  | malloc t b =>
    refine Behind.quiet inv hs explained represents fits (keys (by intro t h; cases h)) ?_
    show Fits list s' (s'.thread t) (g t)
    have mine := fits t
    have same := keys (by intro t h; cases h)
    have stepped := hs
    simp only [step] at hs
    split at hs
    · rename_i v left right hpc
      split_ifs at hs
      obtain rfl := Option.some.inj hs
      rw [hpc] at mine
      cases hg : g t with
      | idle =>
        rw [hg] at mine
        cases mine
      | committed r =>
        rw [hg] at mine
        exact mine.2.elim fun v removing => removing.elim
      | pending op seen =>
        rw [hg] at mine
        obtain ⟨-, -, vs, mem, matched, saw⟩ := mine
        rw [← hpc] at saw
        have seen' := seen_step (t := t) inv stepped mem matched saw (by simp) (fun _ => id)
          (seen_same mem matched same)
        refine ⟨?_, ?_, seen'⟩
        · show (Function.update s.thread t _ t).atRest = false
          rw [Function.update_self]
          rfl
        · show ¬ Pc.Removing op.2 (Function.update s.thread t _ t)
          rw [Function.update_self]
          exact id
    · cases hs
  | lib t =>
    cases hg : g t with
    | idle =>
      have mine := fits t
      rw [hg] at mine
      obtain ⟨e, stepped, -⟩ := Option.map_eq_some_iff.mp hs
      have active := libStep_active stepped
      rw [show (s.thread t).atRest = true from mine] at active
      cases active
    | committed r => exact libStep_committed inv hs explained represents fits hg
    | pending op seen => exact libStep_pending inv hs explained represents fits hg

end Step

/-- The lock-free lists are linearizable: every history of their calls and returns, of any number
of threads, is one of a set on which each call takes effect at one point between its call and its
return, and this set is the one that the list holds in the end. -/
theorem lock_free_linearizable (x : Variant) (list : ListT) (es : List (Event (Op × Int) Bool))
    (s : State)
    (run : System.Records (step x list) (fun _ _ => True) event (State.init list) es s) :
    ∃ S p, Moves setApply ∅ es S p ∧ ∀ v, v ∈ S ↔ v ∈ s.keys list := by
  have behind : Behind list es s := by
    induction run with
    | start =>
      refine ⟨∅, _, .start, fun v => iff_of_false (Finset.notMem_empty v) ?_, fun t => rfl⟩
      rintro ⟨a, reached, inner, outer, -⟩
      have shape := (init_inv list).shape
      have linked := (shape.sorted.path shape.head reached).1
      simp [State.Linked, State.init, inner, outer] at linked
    | step run _ hs ih => exact step_behind (reachable_inv (run.reachable (.start rfl))) hs ih
  obtain ⟨S, g, explained, represents, fits⟩ := behind
  exact ⟨S, _, explained.moves fun t => (g t).choice_status, represents⟩

/-- Thread 2 looks for 5 while thread 0 adds it and thread 1 takes it away again. -/
def overlappingRun : List Act :=
  [.call 2 .contains 5, .lib 2] ++ addRemoveRun ++ List.replicate 3 (.lib 2)

theorem lock_free_linearizable_overlapping : ∃ es s,
    System.Records (step .hpHarris emptyList) (fun _ _ => True) event (State.init emptyList) es s ∧
    es.length = 5 ∧ ∃ S p, Moves setApply ∅ es S p ∧ ∀ v, v ∈ S ↔ v ∈ s.keys emptyList := by
  have reached : ((System.record (step .hpHarris emptyList) event [] (State.init emptyList)
      overlappingRun).any fun r => decide (r.1.length = 5)) = true := by
    decide +kernel
  obtain ⟨⟨es, s⟩, ran, facts⟩ := (Option.any_eq_true _ _).mp reached
  have run := System.Records.of_record ran
  exact ⟨es, s, run, of_decide_eq_true facts, lock_free_linearizable .hpHarris emptyList es s run⟩

end ReadLogUpdate.Harris
