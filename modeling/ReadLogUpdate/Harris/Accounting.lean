import Mathlib.Data.Set.Card
import ReadLogUpdate.Harris.Cleanup
import ReadLogUpdate.Sequential.Calls

/-!
# What `bench.c` expects

The calls that returned 1 account for the set: a key is there when it was added once more than it
was removed, up to the removes that have marked their node and not returned. After the last return
`list_size` is what `bench.c` adds up.
-/

namespace ReadLogUpdate.Harris

open Chain ReadLogUpdate.Sequential

structure Return where
  op : Op
  key : Int
  result : Bool
  deriving DecidableEq

/-- What the loop of `bench.c` adds to `d->diff` after a call. -/
def Return.diff (r : Return) : Int :=
  match r.op, r.result with
  | .add, true => 1
  | .remove, true => -1
  | _, _ => 0

/-- The expected size: the successful adds that fill the set first count as the initial size. -/
def expectedSize (es : List Return) : Int := (es.map Return.diff).sum

/-- The keys of the calls of `op` that returned 1. -/
def keysOf (op : Op) (es : List Return) : List Int :=
  es.filterMap fun r => if r.op = op ∧ r.result = true then some r.key else none

theorem count_keysOf (op : Op) (es : List Return) (v : Int) :
    (keysOf op es).count v = es.count ⟨op, v, true⟩ := by
  induction es with
  | nil => rfl
  | cons r es ih =>
    obtain ⟨op', w, b⟩ := r
    unfold keysOf at *
    rw [List.filterMap_cons, List.count_cons, ← ih]
    by_cases here : op' = op ∧ b = true
    · obtain ⟨rfl, rfl⟩ := here
      simp [List.count_cons]
    · rw [if_neg here, if_neg (by simp only [beq_iff_eq, Return.mk.injEq]; tauto), Nat.add_zero]

theorem expectedSize_eq (es : List Return) :
    expectedSize es = (keysOf .add es).length - (keysOf .remove es).length := by
  induction es with
  | nil => rfl
  | cons r es ih =>
    obtain ⟨op, w, b⟩ := r
    unfold expectedSize keysOf at *
    rw [List.map_cons, List.sum_cons, ih, List.filterMap_cons, List.filterMap_cons]
    cases op <;> cases b <;> simp [Return.diff] <;> omega

def Pc.returned : Pc → Option Return
  | .done op v r => some ⟨op, v, r⟩
  | _ => none

def returned : Act → State → Option Return
  | .lib t, s' => (s'.thread t).returned
  | .call _ _ _, _ | .malloc _ _, _ => none

section Step
variable {x : Variant} {list : ListT} {s s' : State} {t : Nat} {v w : Int}

theorem Pc.count_returned (pc : Pc) (r : Return) :
    pc.returned.toList.count r = if pc = .done r.op r.key r.result then 1 else 0 := by
  obtain ⟨op, v, b⟩ := r
  cases pc with
  | done op' v' b' => simp [Pc.returned, List.count_singleton]
  | _ => simp [Pc.returned]

open Classical in
theorem libStep_tally {u : Nat} {e : Heap × Option Nat × Pc} (inv : Inv list s)
    (stepped : libStep x list s.heap (s.thread u) = some e)
    (set : SetStep list s (.lib u) (s.after u e))
    (kept : (s.thread u).Removing v → e.2.2.Removing v ∨ e.2.2 = .done .remove v true)
    {R : Finset Nat} (removing : ∀ t, t ∈ R ↔ (s.thread t).Removing v) :
    ∃ R' : Finset Nat, (∀ t, t ∈ R' ↔ ((s.after u e).thread t).Removing v) ∧
      e.2.2.returned.toList.count ⟨.add, v, true⟩ + R.card + (if v ∈ s.keys list then 1 else 0) =
      e.2.2.returned.toList.count ⟨.remove, v, true⟩ + R'.card +
        if v ∈ (s.after u e).keys list then 1 else 0 := by
  obtain ⟨added, marked, removed⟩ := libStep_returns (v := v) inv stepped
  have own : (s.after u e).thread u = e.2.2 := Function.update_self _ _ _
  have other {t : Nat} (ne : t ≠ u) : (s.after u e).thread t = s.thread t :=
    Function.update_of_ne ne _ _
  rw [Pc.count_returned, Pc.count_returned]
  -- the set has the key after the step as before, unless the step adds or marks it
  have keys (notAdded : e.2.2 ≠ .done .add v true)
      (notMarked : (s.thread u).Removing v ∨ ¬ e.2.2.Removing v) :
      v ∈ (s.after u e).keys list ↔ v ∈ s.keys list := by
    cases set with
    | same keys => rw [keys]
    | add t w left right new act pc returns absent keys =>
      obtain rfl := Act.lib.inj act
      rw [own] at returns
      have ne : v ≠ w := by
        rintro rfl
        exact notAdded returns
      rw [keys, Set.mem_insert_iff, or_iff_right ne]
    | remove t w left right next act pc goes present keys =>
      obtain rfl := Act.lib.inj act
      rw [own] at goes
      have ne : v ≠ w := by
        rintro rfl
        rcases notMarked with before | after
        · rw [pc] at before
          exact before
        · exact after goes
      rw [keys, Set.mem_sdiff, Set.mem_singleton_iff, and_iff_left ne]
  have notDone {op : Op} (h : e.2.2.Removing v) : e.2.2 ≠ .done op v true := by
    intro returns
    rw [returns] at h
    exact h
  have members {R' : Finset Nat} (mine : u ∈ R' ↔ e.2.2.Removing v)
      (others : ∀ t, t ≠ u → (t ∈ R' ↔ t ∈ R)) (t : Nat) :
      t ∈ R' ↔ ((s.after u e).thread t).Removing v := by
    by_cases eq : t = u
    · rw [eq, own]
      exact mine
    · rw [other eq, others t eq, removing]
  by_cases before : (s.thread u).Removing v <;> by_cases after : e.2.2.Removing v
  · refine ⟨R, members (iff_of_true ((removing u).mpr before) after) fun _ _ => Iff.rfl, ?_⟩
    rw [if_neg (notDone after), if_neg (notDone after), if_congr (keys (notDone after) (.inl before)) rfl rfl]
  · -- the remove returns
    have returns := (kept before).resolve_left after
    have notAdded : e.2.2 ≠ .done .add v true := by
      rw [returns]
      simp
    refine ⟨R.erase u, members (iff_of_false (Finset.notMem_erase u R) after) fun t ne => ?_, ?_⟩
    · rw [Finset.mem_erase, and_iff_right ne]
    · rw [if_neg notAdded, if_pos returns, if_congr (keys notAdded (.inl before)) rfl rfl,
        ← Finset.card_erase_add_one ((removing u).mpr before)]
      omega
  · -- the node is marked
    obtain ⟨present, absent⟩ := (marked after).resolve_left before
    have out : u ∉ R := fun mem => before ((removing u).mp mem)
    refine ⟨insert u R, members (iff_of_true (Finset.mem_insert_self u R) after) fun t ne => ?_, ?_⟩
    · rw [Finset.mem_insert, or_iff_right ne]
    · rw [if_neg (notDone after), if_neg (notDone after), if_pos present, if_neg absent,
        Finset.card_insert_of_notMem out]
      omega
  · have notRemoved : e.2.2 ≠ .done .remove v true := fun h => before (removed h)
    refine ⟨R, members (iff_of_false (fun mem => before ((removing u).mp mem)) after)
      fun _ _ => Iff.rfl, ?_⟩
    rw [if_neg notRemoved]
    by_cases returns : e.2.2 = .done .add v true
    · obtain ⟨absent, present⟩ := added returns
      rw [if_pos returns, if_neg absent, if_pos present]
      omega
    · rw [if_neg returns, if_congr (keys returns (.inr after)) rfl rfl]

open Classical in
theorem step_tally {a : Act} (inv : Inv list s) (hs : step x list s a = some s') (v : Int)
    {R : Finset Nat} (removing : ∀ t, t ∈ R ↔ (s.thread t).Removing v) :
    ∃ R' : Finset Nat, (∀ t, t ∈ R' ↔ (s'.thread t).Removing v) ∧
      (returned a s').toList.count ⟨.add, v, true⟩ + R.card + (if v ∈ s.keys list then 1 else 0) =
      (returned a s').toList.count ⟨.remove, v, true⟩ + R'.card +
        if v ∈ s'.keys list then 1 else 0 := by
  have set := step_set inv hs
  -- a step outside the calls
  have quiet {u : Nat} {pc : Pc} (none : returned a s' = none) (notLib : ∀ t, a ≠ .lib t)
      (thread : s'.thread = Function.update s.thread u pc) (before : ¬ (s.thread u).Removing v)
      (after : ¬ pc.Removing v) : ∃ R' : Finset Nat, (∀ t, t ∈ R' ↔ (s'.thread t).Removing v) ∧
        (returned a s').toList.count ⟨.add, v, true⟩ + R.card + (if v ∈ s.keys list then 1 else 0) =
        (returned a s').toList.count ⟨.remove, v, true⟩ + R'.card +
          if v ∈ s'.keys list then 1 else 0 := by
    have keys : s'.keys list = s.keys list := by
      cases set with
      | same keys => exact keys
      | add t v left right new act => exact absurd act (notLib t)
      | remove t v left right next act => exact absurd act (notLib t)
    refine ⟨R, fun t => ?_, by rw [none, keys]; rfl⟩
    rw [thread, removing]
    by_cases own : t = u
    · rw [own, Function.update_self]
      exact iff_of_false before after
    · rw [Function.update_of_ne own]
  cases a with
  | call u op w =>
    simp only [step] at hs
    split_ifs at hs with free
    obtain rfl := Option.some.inj hs
    refine quiet (u := u) rfl (by intro t h; cases h) rfl (fun h => ?_) id
    cases hpc : s.thread u with
    | idle | done =>
      rw [hpc] at h
      exact h
    | _ =>
      rw [hpc] at free
      cases free.1
  | malloc u b =>
    simp only [step] at hs
    split at hs
    · rename_i w left right hpc
      split_ifs at hs
      obtain rfl := Option.some.inj hs
      exact quiet (u := u) rfl (by intro t h; cases h) rfl (by rw [hpc]; exact id) id
    · cases hs
  | lib u =>
    have kept := step_removing (t := u) (v := v) hs
    obtain ⟨e, stepped, rfl⟩ := Option.map_eq_some_iff.mp hs
    have own : (s.after u e).thread u = e.2.2 := Function.update_self _ _ _
    change (s.thread u).Removing v → ((s.after u e).thread u).Removing v ∨ (s.after u e).thread u = _
      at kept
    rw [own] at kept
    show ∃ R' : Finset Nat, (∀ t, t ∈ R' ↔ ((s.after u e).thread t).Removing v) ∧
      ((s.after u e).thread u).returned.toList.count _ + R.card + _ =
      ((s.after u e).thread u).returned.toList.count _ + R'.card + _
    rw [own]
    exact libStep_tally inv stepped set kept removing

end Step

/-! ### The whole run -/

section Run
variable {x : Variant} {list : ListT} {s : State} {es : List Return}

open Classical in
theorem run_tally (run : System.Records (step x list) (fun _ _ => True) returned (State.init list) es s)
    (v : Int) : ∃ R : Finset Nat, (∀ t, t ∈ R ↔ (s.thread t).Removing v) ∧
      es.count ⟨.add, v, true⟩ = es.count ⟨.remove, v, true⟩ + R.card +
        if v ∈ s.keys list then 1 else 0 := by
  induction run with
  | start =>
    refine ⟨∅, fun t => iff_of_false (Finset.notMem_empty t) id, ?_⟩
    have empty : v ∉ (State.init list).keys list := by
      have shape := (init_inv list).shape
      rw [shape.mem_keys]
      rintro ⟨a, here, inner, outer, -⟩
      simp [State.Linked, State.init, inner, outer] at here
    rw [if_neg empty]
    rfl
  | @step es s s' a run _ hs ih =>
    have inv := reachable_inv (run.reachable (.start rfl))
    obtain ⟨R, removing, counted⟩ := ih
    obtain ⟨R', removing', counts⟩ := step_tally inv hs v removing
    refine ⟨R', removing', ?_⟩
    rw [List.count_append, List.count_append, counted]
    omega

open Classical in
/-- Of every key the calls that returned 1 added one more than they removed if the set has it, and
as many otherwise, up to the removes that have marked their node and not returned. -/
theorem lock_free_tally (x : Variant) (list : ListT) (es : List Return) (s : State)
    (run : System.Records (step x list) (fun _ _ => True) returned (State.init list) es s) (v : Int) :
    {t | (s.thread t).Removing v}.Finite ∧
      es.count ⟨.add, v, true⟩ = es.count ⟨.remove, v, true⟩ +
        {t | (s.thread t).Removing v}.ncard + if v ∈ s.keys list then 1 else 0 := by
  obtain ⟨R, removing, counted⟩ := run_tally run v
  have same : {t | (s.thread t).Removing v} = R := Set.ext fun t => (removing t).symm
  rw [same, Set.ncard_coe_finset]
  exact ⟨R.finite_toSet, counted⟩

def addRemoveRun : List Act :=
  addRun ++ [.call 1 .remove 5] ++ List.replicate 7 (.lib 1)

theorem lock_free_tally_marked : ∃ es s,
    System.Records (step .harris emptyList) (fun _ _ => True) returned (State.init emptyList) es s ∧
    s.thread 1 = .unlink 5 1 3 ⟨2, false⟩ ∧ es.count ⟨.add, 5, true⟩ = 1 ∧
    es.count ⟨.remove, 5, true⟩ = 0 ∧ {t | (s.thread t).Removing 5}.ncard = 1 ∧
    5 ∉ s.keys emptyList := by
  have reached : ((System.record (step .harris emptyList) returned [] (State.init emptyList)
      addRemoveRun).any fun r => decide (r.2.thread 1 = .unlink 5 1 3 ⟨2, false⟩) &&
        decide (r.1.count ⟨.add, 5, true⟩ = 1)) = true := by
    decide +kernel
  obtain ⟨⟨es, s⟩, ran, facts⟩ := (Option.any_eq_true _ _).mp reached
  have run := System.Records.of_record ran
  simp only [Bool.and_eq_true, decide_eq_true_eq] at facts
  obtain ⟨unlinks, added⟩ := facts
  obtain ⟨finite, counted⟩ := lock_free_tally .harris emptyList es s run 5
  have here : (1 : Nat) ∈ {t | (s.thread t).Removing 5} := by
    rw [Set.mem_ofPred_eq, unlinks]
    rfl
  have marked : 0 < {t | (s.thread t).Removing 5}.ncard := (Set.ncard_pos finite).mpr ⟨1, here⟩
  rw [added] at counted
  by_cases has : 5 ∈ s.keys emptyList
  · rw [if_pos has] at counted
    omega
  · rw [if_neg has] at counted
    exact ⟨es, s, run, unlinks, added, by omega, by omega, has⟩

theorem keys_finite (shape : Shape list s) : (s.keys list).Finite := by
  refine (Set.finite_Ioo listValMin listValMax).subset fun v mem => ?_
  obtain ⟨a, here, inner, outer, -, rfl⟩ := shape.mem_keys.mp mem
  exact ⟨shape.above a here inner, shape.below a here outer⟩

/-- No node on the chain is marked when every call has returned. -/
theorem Owed.live (owed : Owed list s) (rest : ∀ t, (s.thread t).atRest = true) {a : Nat}
    (reached : s.Reached list a) : ¬ s.heap.dead a := by
  intro gone
  obtain ⟨t, owes⟩ := owed a reached gone
  have resting := rest t
  cases hpc : s.thread t with
  | idle | done =>
    rw [hpc] at owes
    exact owes
  | _ =>
    rw [hpc] at resting
    cases resting

theorem Shape.lists (shape : Shape list s) (live : ∀ a, s.Reached list a → ¬ s.heap.dead a)
    {S : Finset Int} (mem : ∀ v, v ∈ S ↔ v ∈ s.keys list) :
    Lists s.heap.next s.heap.val list.pHead list.pMax S := by
  have linked {a : Nat} (reached : s.Reached list a) := (shape.sorted.path shape.head reached).1
  refine ⟨⟨fun a reached outer => reached.tail ⟨outer, rfl⟩,
    fun a reached => shape.sorted.key_lt a (linked reached),
    fun a reached => shape.sorted.key_le a (linked reached)⟩, shape.sorted.path_last shape.head,
    list.ne, fun v => (mem v).trans ⟨?_, ?_⟩⟩
  · rintro ⟨a, reached, inner, outer, -, key⟩
    exact ⟨a, reached, inner, outer, key⟩
  · rintro ⟨a, reached, inner, outer, key⟩
    exact ⟨a, reached, inner, outer, live a reached, key⟩

theorem Shape.listSize_iff (shape : Shape list s) {S : Finset Int}
    (lists : Lists s.heap.next s.heap.val list.pHead list.pMax S) (r : Int) :
    ListSize list s.heap.next r ↔ r = S.card ∧ r < 2 ^ 31 := by
  have last : s.heap.next list.pMax = 0 := by
    unfold Heap.next
    rw [shape.maxNext]
    rfl
  have inner (b : Nat) (path : Path s.heap.next list.pMax (s.heap.next list.pHead) b)
      (outer : b ≠ list.pMax) : s.heap.next b ≠ 0 := by
    have here := (shape.sorted.path shape.head (.head list.ne path)).1
    exact shape.ne_zero (shape.sorted.next_linked b here outer)
  obtain ⟨enough, exact_⟩ := listSizeLoop_counts lists.counts 0 last inner
  constructor
  · rintro ⟨fuel, found⟩
    obtain ⟨rfl, none | small⟩ := exact_ fuel r found <;> omega
  · rintro ⟨rfl, small⟩
    refine ⟨S.card + 1, ?_⟩
    rw [enough (by omega)]
    exact congrArg some (Int.zero_add _)

/-- When every call has returned, no node on the chain is marked, and `list_size` returns what
`bench.c` adds up from the results, as long as an `int` holds it. -/
theorem bench_size_expected (x : Variant) (list : ListT) (es : List Return) (s : State)
    (run : System.Records (step x list) (fun _ _ => True) returned (State.init list) es s)
    (rest : ∀ t, (s.thread t).atRest = true) :
    (∀ a, s.Reached list a → ¬ s.heap.dead a) ∧
    ((s.keys list).ncard : Int) = expectedSize es ∧
    ∀ r, ListSize list s.heap.next r ↔ r = expectedSize es ∧ r < 2 ^ 31 := by
  classical
  have reached : System.Reachable (· = State.init list) (step x list) (fun _ _ => True) s :=
    run.reachable (.start rfl)
  have shape := (reachable_inv reached).shape
  have live (a : Nat) (here : s.Reached list a) := (reachable_owed reached).live rest here
  have finite := keys_finite shape
  have mem (v : Int) : v ∈ finite.toFinset ↔ v ∈ s.keys list := finite.mem_toFinset
  -- the keys added are those removed and those that are left
  have perm : (keysOf .add es).Perm (keysOf .remove es ++ finite.toFinset.toList) := by
    rw [List.perm_iff_count]
    intro v
    obtain ⟨R, removing, counted⟩ := run_tally run v
    have none : R = ∅ := by
      refine Finset.eq_empty_of_forall_notMem fun t inside => ?_
      have removing := (removing t).mp inside
      have resting := rest t
      cases hpc : s.thread t with
      | idle | done =>
        rw [hpc] at removing
        exact removing
      | _ =>
        rw [hpc] at resting
        cases resting
    rw [List.count_append, count_keysOf, count_keysOf, counted, none, Finset.card_empty, Nat.add_zero,
      List.Nodup.count (Finset.nodup_toList _)]
    simp only [Finset.mem_toList, mem]
  have size : (finite.toFinset.card : Int) = expectedSize es := by
    have length := perm.length_eq
    rw [List.length_append, Finset.length_toList] at length
    rw [expectedSize_eq]
    omega
  refine ⟨live, ?_, fun r => ?_⟩
  · rw [Set.ncard_eq_toFinset_card _ finite]
    exact size
  · rw [shape.listSize_iff (shape.lists live mem) r, size]

def Act.thread : Act → Nat
  | .call t _ _ | .lib t | .malloc t _ => t

theorem step_other {s' : State} {a : Act} {t : Nat} (hs : step x list s a = some s')
    (ne : t ≠ a.thread) : s'.thread t = s.thread t := by
  cases a with
  | call u op v =>
    simp only [step] at hs
    split_ifs at hs
    obtain rfl := Option.some.inj hs
    exact Function.update_of_ne ne _ _
  | lib u =>
    obtain ⟨e, -, rfl⟩ := Option.map_eq_some_iff.mp hs
    exact Function.update_of_ne ne _ _
  | malloc u b =>
    simp only [step] at hs
    split at hs
    · split_ifs at hs
      obtain rfl := Option.some.inj hs
      exact Function.update_of_ne ne _ _
    · cases hs

theorem record_other {as : List Act} {s' : State} {es' : List Return} {t : Nat}
    (ne : ∀ a ∈ as, t ≠ a.thread)
    (hr : System.record (step x list) returned es s as = some (es', s')) :
    s'.thread t = s.thread t := by
  induction as generalizing es s with
  | nil =>
    cases hr
    rfl
  | cons a as ih =>
    obtain ⟨u, hs, hr⟩ := Option.bind_eq_some_iff.mp hr
    rw [ih (fun b mem => ne b (List.mem_cons_of_mem _ mem)) hr]
    exact step_other hs (ne a List.mem_cons_self)

/-- Both calls of the run have returned. -/
theorem bench_size_expected_removed : ∃ es s,
    System.Records (step .hpHarris emptyList) (fun _ _ => True) returned (State.init emptyList) es s ∧
    es.length = 2 ∧ ∀ r, ListSize emptyList s.heap.next r ↔ r = expectedSize es ∧ r < 2 ^ 31 := by
  have reached : ((System.record (step .hpHarris emptyList) returned [] (State.init emptyList)
      (addRemoveRun ++ [.lib 1])).any fun r => decide (r.1.length = 2) && (r.2.thread 0).atRest &&
        (r.2.thread 1).atRest) = true := by
    decide +kernel
  obtain ⟨⟨es, s⟩, ran, facts⟩ := (Option.any_eq_true _ _).mp reached
  have run := System.Records.of_record ran
  simp only [Bool.and_eq_true, decide_eq_true_eq] at facts
  have rest (t : Nat) : (s.thread t).atRest = true := by
    by_cases first : t = 0
    · rw [first]
      exact facts.1.2
    · by_cases second : t = 1
      · rw [second]
        exact facts.2
      · rw [record_other (fun a mem => ?_) ran]
        · rfl
        · simp only [addRemoveRun, addRun, List.mem_append, List.mem_cons, List.mem_replicate,
            List.not_mem_nil, or_false] at mem
          rcases mem with ((((_ | rfl | _ | _ | _ | _) | _) | _) | _) <;> simp_all [Act.thread]
  exact ⟨es, s, run, facts.1.1, (bench_size_expected .hpHarris emptyList es s run rest).2.2⟩

end Run

end ReadLogUpdate.Harris
