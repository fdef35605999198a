import ReadLogUpdate.Sequential.Locked
import ReadLogUpdate.Sequential.HpHarris

/-!
# Sequential agreement

Any sequence of calls on an empty list, made by one thread with any of the four variants, does what
it does on a set. `list_size` counts the keys as long as an `int` holds their number.
-/

namespace ReadLogUpdate.Sequential

open Chain
open Harris (Heap Ref ref null isMarkedRef)
open Rcu (maxSpinLocks)

structure SortedList (list : ListT) (h : Heap) : Prop where
  ends : Path h.next list.pMax list.pHead list.pMax
  up : ∀ a, Path h.next list.pMax list.pHead a → a ≠ list.pMax → h.val a < h.val (h.next a)
  headVal : h.val list.pHead = listValMin
  maxVal : h.val list.pMax = listValMax
  last : h.pNext list.pMax = null

section Runs
variable {σ : Type*} {call : Op → Int → Nat → σ → Bool → σ → Prop} {fresh : σ → Nat → Prop}
  {Rep : σ → Finset Int → Prop} {heap : σ → Heap} {list : ListT} {s₀ : σ} {ops : List (Op × Int)}

/-- A sequence of calls from `s₀` does what it does on the empty set, every call on the way and after
it returns, and the list it leaves is sorted, unmarked and of the size of the set. -/
structure Agreement (call : Op → Int → Nat → σ → Bool → σ → Prop) (fresh : σ → Nat → Prop)
    (heap : σ → Heap) (list : ListT) (s₀ : σ) (ops : List (Op × Int)) : Prop where
  runs : ∃ rs s', Runs call fresh s₀ ops rs s'
  returns : ∀ ops₁ ops₂ rs s', ops = ops₁ ++ ops₂ → Runs call fresh s₀ ops₁ rs s' →
    ∀ op v a, listValMin < v → v < listValMax → fresh s' a → ∃ r s'', call op v a s' r s''
  same : ∀ rs s', Runs call fresh s₀ ops rs s' → rs = (results ∅ ops).1
  sorted : ∀ rs s', Runs call fresh s₀ ops rs s' → SortedList list (heap s')
  unmarked : ∀ rs s', Runs call fresh s₀ ops rs s' →
    ∀ a, Path (heap s').next list.pMax list.pHead a → isMarkedRef ((heap s').pNext a) = false
  size : ∀ rs s', Runs call fresh s₀ ops rs s' →
    ListSize list (heap s').next (results ∅ ops).2.card

theorem Clean.sortedList {h : Heap} {used : Nat → Bool} {S : Finset Int}
    (clean : Clean list h used S) : SortedList list h where
  ends := clean.holds.lists.ends
  up := clean.holds.lists.sorted.key_lt
  headVal := clean.holds.headVal
  maxVal := clean.holds.maxVal
  last := clean.null_max

theorem Implements.agreement_iff (impl : Implements Always call fresh Rep)
    (clean : ∀ s S, Rep s S → ∃ used, Clean list (heap s) used S) (init : Rep s₀ ∅)
    (inRange : InRange ops) :
    Agreement call fresh heap list s₀ ops ↔ (results ∅ ops).2.card < 2 ^ 31 := by
  have after {rs : List Bool} {s' : σ} (run : Runs call fresh s₀ ops rs s') :
      ∃ used, Clean list (heap s') used (results ∅ ops).2 :=
    clean s' _ (impl.runs init inRange meets_always run).2
  constructor
  · intro agreement
    obtain ⟨rs, s', run⟩ := agreement.runs
    obtain ⟨used, clean⟩ := after run
    exact clean.holds.listSize.mp (agreement.size rs s' run)
  · intro small
    refine ⟨impl.total init inRange meets_always, ?_, ?_, ?_, ?_, ?_⟩
    · rintro ops₁ ops₂ rs s' rfl run op v a lo hi malloc
      have inRange₁ : InRange ops₁ := fun p mem => inRange p (List.mem_append_left _ mem)
      exact impl.returns s' _ op v a (impl.runs init inRange₁ meets_always run).2 lo hi malloc trivial
    · intro rs s' run
      exact (impl.runs init inRange meets_always run).1
    · intro rs s' run
      obtain ⟨used, clean⟩ := after run
      exact clean.sortedList
    · intro rs s' run
      obtain ⟨used, clean⟩ := after run
      exact clean.unmarked
    · intro rs s' run
      obtain ⟨used, clean⟩ := after run
      exact clean.holds.listSize.mpr small

end Runs

/-! ### The empty list -/

structure NewList (list : ListT) (h : Heap) (used : Nat → Bool) : Prop where
  head : h.pNext list.pHead = ref list.pMax
  last : h.pNext list.pMax = null
  headVal : h.val list.pHead = listValMin
  maxVal : h.val list.pMax = listValMax
  usedHead : used list.pHead = true
  usedMax : used list.pMax = true

section Init
variable {list : ListT} {h : Heap} {used : Nat → Bool}

theorem NewList.reached {a : Nat} (new : NewList list h used) (path : Path h.next list.pMax list.pHead a) :
    a = list.pHead ∨ a = list.pMax := by
  induction path with
  | refl => exact .inl rfl
  | @tail b c _ edge ih =>
    obtain ⟨outer, rfl⟩ := edge
    obtain rfl := ih.resolve_right outer
    exact .inr (congrArg Ref.addr new.head)

theorem NewList.lists (new : NewList list h used) : Lists h.next h.val list.pHead list.pMax ∅ := by
  have next : h.next list.pHead = list.pMax := congrArg Ref.addr new.head
  have ends : Path h.next list.pMax list.pHead list.pMax := .single ⟨list.ne, next⟩
  refine ⟨⟨fun a path outer => ?_, fun a path outer => ?_, fun a path => ?_⟩, ends, list.ne, fun v => ?_⟩
  · obtain rfl := (new.reached path).resolve_right outer
    rwa [next]
  · obtain rfl := (new.reached path).resolve_right outer
    rw [next, new.headVal, new.maxVal]
    decide
  · rw [new.maxVal]
    rcases new.reached path with rfl | rfl
    · rw [new.headVal]
      decide
    · rw [new.maxVal]
  · refine ⟨fun mem => absurd mem (Finset.notMem_empty v), ?_⟩
    rintro ⟨a, path, ne, outer, -⟩
    exact ((new.reached path).elim ne outer).elim

theorem NewList.clean (new : NewList list h used) (nonnull : used 0 = false)
    (room : ∃ n, ∀ a, n ≤ a → used a = false) : Clean list h used ∅ := by
  refine ⟨⟨new.lists, congrArg Ref.addr new.last, fun a path => ?_, nonnull, new.headVal, new.maxVal,
    room⟩, fun a path => ?_⟩
  · rcases new.reached path with rfl | rfl
    · exact new.usedHead
    · exact new.usedMax
  · rcases new.reached path with rfl | rfl
    · rw [new.head]
      rfl
    · rw [new.last]
      rfl

theorem init_new (list : ListT) :
    NewList list (Harris.State.init list).heap (Harris.State.init list).used where
  head := if_pos rfl
  last := if_neg list.ne.symm
  headVal := if_pos rfl
  maxVal := (if_neg list.ne.symm).trans (if_pos rfl)
  usedHead := decide_eq_true (.inl rfl)
  usedMax := decide_eq_true (.inr rfl)

theorem init_clean (list : ListT) :
    Clean list (Harris.State.init list).heap (Harris.State.init list).used ∅ := by
  refine (init_new list).clean ?_ ⟨list.pHead + list.pMax + 1, fun a le => ?_⟩
  · exact decide_eq_false fun eq => eq.elim list.head_ne.symm list.max_ne.symm
  · exact decide_eq_false (by omega)

end Init

/-! ### The four variants -/

section Variants
variable {list : ListT} {ops : List (Op × Int)}

/-- The memory of `pure_list_*` and `rcu_list_*`, which store addresses only. -/
def Mem.heap (m : Mem) : Heap := ⟨m.val, fun a => ref (m.pNext a)⟩

def PureAgrees (list : ListT) (ops : List (Op × Int)) : Prop :=
  Agreement (PureCall list) (fun m => Fresh m.used) Mem.heap list (Mem.init list) ops

def RcuAgrees (cfg : UrcuConfig) (list : ListT) (ops : List (Op × Int)) : Prop :=
  Agreement (RcuCall cfg list) (fun u => Fresh u.mem.used) (fun u => u.mem.heap) list (Urcu.init list)
    ops

def HarrisAgrees (list : ListT) (ops : List (Op × Int)) : Prop :=
  Agreement (HarrisCall list) (fun s => Fresh s.used) Harris.State.heap list (Harris.State.init list)
    ops

/-- `hp_harris_list_*` agrees with a set, whatever is in the records before. -/
def HpAgrees (list : ListT) (records : Nat → Nat → Ref) (ops : List (Op × Int)) : Prop :=
  Agreement (HpCall list) (fun s => Fresh s.used) Hp.State.heap list (Hp.State.init list records) ops

theorem Mem.Rep.clean {ι : Type*} {lists : ι → ListT} {m : Mem} {S : ι → Finset Int}
    (rep : m.Rep lists S) (i : ι) : Clean (lists i) m.heap m.used (S i) :=
  ⟨HoldsAll.each rep i, fun _ _ => rfl⟩

theorem Mem.init_holds (list : ListT) :
    Holds list (Mem.init list).pNext (Mem.init list).val (Mem.init list).used ∅ := (init_clean list).holds

theorem pureAgrees_iff (inRange : InRange ops) :
    PureAgrees list ops ↔ (results ∅ ops).2.card < 2 ^ 31 :=
  (pureList_implements fun _ : Unit => list).single.agreement_iff
    (fun m _ rep => ⟨m.used, Mem.Rep.clean rep ()⟩) (Mem.init_holds list).all inRange

theorem rcuAgrees_iff {cfg : UrcuConfig} (inside : cfg.bucket < maxSpinLocks)
    (inRange : InRange ops) : RcuAgrees cfg list ops ↔ (results ∅ ops).2.card < 2 ^ 31 := by
  have init : (Urcu.init list).Rep (fun _ : Unit => list) fun _ => ∅ :=
    ⟨(Mem.init_holds list).all, fun _ => rfl, fun _ => rfl, fun _ mem => absurd mem List.not_mem_nil⟩
  have impl := (rcuList_implements (fun _ => cfg) fun _ : Unit => list).single.always
    fun _ _ _ _ _ _ _ _ => inside
  exact impl.agreement_iff (fun u _ rep => ⟨u.mem.used, Mem.Rep.clean rep.mem ()⟩) init inRange

theorem harrisAgrees_iff (inRange : InRange ops) :
    HarrisAgrees list ops ↔ (results ∅ ops).2.card < 2 ^ 31 :=
  (harrisList_implements fun _ : Unit => list).single.agreement_iff
    (fun s _ rep => ⟨s.used, rep.clean.each ()⟩) ⟨rfl, (init_clean list).all⟩ inRange

theorem hpAgrees_iff (records : Nat → Nat → Ref) (inRange : InRange ops) :
    HpAgrees list records ops ↔ (results ∅ ops).2.card < 2 ^ 31 :=
  (hpHarrisList_implements fun _ : Unit => list).single.agreement_iff
    (fun s _ rep => ⟨s.used, rep.clean.each ()⟩) ⟨rfl, (init_clean list).all⟩ inRange

/-- Each variant agrees with a set exactly when the calls leave fewer than `2 ^ 31` keys. -/
theorem list_sequential_agreement (list : ListT) (cfg : UrcuConfig) (inside : cfg.bucket < maxSpinLocks)
    (records : Nat → Nat → Ref) (ops : List (Op × Int)) (inRange : InRange ops) :
    (PureAgrees list ops ↔ (results ∅ ops).2.card < 2 ^ 31) ∧
    (RcuAgrees cfg list ops ↔ (results ∅ ops).2.card < 2 ^ 31) ∧
    (HarrisAgrees list ops ↔ (results ∅ ops).2.card < 2 ^ 31) ∧
    (HpAgrees list records ops ↔ (results ∅ ops).2.card < 2 ^ 31) :=
  ⟨pureAgrees_iff inRange, rcuAgrees_iff inside inRange, harrisAgrees_iff inRange,
    hpAgrees_iff records inRange⟩

def pairList : ListT := ⟨2, 4, Nat.succ_ne_zero _, Nat.succ_ne_zero _, Nat.ne_of_beq_eq_false rfl⟩

def oneThread : UrcuConfig := { threads := 1, id := 0, bucket := 0, registered := Nat.one_pos }

def fourCalls : List (Op × Int) := [(.add, 5), (.add, -7), (.contains, 5), (.remove, 5)]

theorem list_sequential_agreement_four : PureAgrees pairList fourCalls ∧
    RcuAgrees oneThread pairList fourCalls ∧ HarrisAgrees pairList fourCalls ∧
    HpAgrees pairList (fun _ _ => null) fourCalls := by
  have small : (results ∅ fourCalls).2.card < 2 ^ 31 := by decide
  obtain ⟨pure, rcu, harris, hp⟩ := list_sequential_agreement pairList oneThread (by decide)
    (fun _ _ => null) fourCalls (by decide)
  exact ⟨pure.mpr small, rcu.mpr small, harris.mpr small, hp.mpr small⟩

/-! ### More keys than an `int` counts -/

def adds (vs : List Int) : List (Op × Int) := vs.map fun v => (.add, v)

theorem results_adds (S : Finset Int) (vs : List Int) :
    (results S (adds vs)).2 = S ∪ vs.toFinset := by
  induction vs generalizing S with
  | nil => exact (Finset.union_empty S).symm
  | cons v vs ih =>
    rw [List.toFinset_cons, Finset.union_insert, ← Finset.insert_union]
    exact ih (insert v S)

def manyKeys (n : Nat) : List Int := (List.range n).map fun i : Nat => (i : Int) - 2 ^ 30

theorem card_manyKeys (n : Nat) : (results ∅ (adds (manyKeys n))).2.card = n := by
  have nodup : (manyKeys n).Nodup := by
    refine List.nodup_range.map fun i j eq => ?_
    have eq : (i : Int) - 2 ^ 30 = j - 2 ^ 30 := eq
    omega
  rw [results_adds, Finset.empty_union, List.toFinset_card_of_nodup nodup]
  exact (List.length_map _).trans List.length_range

theorem manyKeys_inRange {n : Nat} (le : n ≤ 2 ^ 31) : InRange (adds (manyKeys n)) := by
  intro p mem
  obtain ⟨v, key, rfl⟩ := List.mem_map.mp mem
  obtain ⟨i, lt, rfl⟩ := List.mem_map.mp key
  have below := List.mem_range.mp lt
  show listValMin < (i : Int) - 2 ^ 30 ∧ (i : Int) - 2 ^ 30 < listValMax
  unfold listValMin listValMax
  omega

theorem list_sequential_disagreement : ¬ ∀ (list : ListT) (cfg : UrcuConfig)
    (records : Nat → Nat → Ref) (ops : List (Op × Int)), cfg.bucket < maxSpinLocks → InRange ops →
    PureAgrees list ops ∧ RcuAgrees cfg list ops ∧ HarrisAgrees list ops ∧
      HpAgrees list records ops := by
  intro claimed
  have inRange : InRange (adds (manyKeys (2 ^ 31))) := manyKeys_inRange le_rfl
  have agrees := claimed pairList oneThread (fun _ _ => null) _ (by decide) inRange
  have small := (pureAgrees_iff inRange).mp agrees.1
  rw [card_manyKeys] at small
  exact absurd small (lt_irrefl _)

end Variants

end ReadLogUpdate.Sequential
