import Mathlib.Data.Finset.Insert
import ReadLogUpdate.Harris.Step
import ReadLogUpdate.Listing

/-!
# Calls by one thread

What a sequence of calls does to a mathematical set, runs of an implementation one call after the
other, and lists in memory that hold a set.
-/

namespace ReadLogUpdate.Sequential

open Chain
export Harris (Op ListT listValMin listValMax)

/-! ### The set -/

def apply (S : Finset Int) (v : Int) : Op → Bool × Finset Int
  | .contains => (decide (v ∈ S), S)
  | .add => (decide (v ∉ S), insert v S)
  | .remove => (decide (v ∈ S), S.erase v)

section Apply
variable {S : Finset Int} {v : Int}

theorem apply_add_of_mem (mem : v ∈ S) : apply S v .add = (false, S) := by
  simp only [apply, mem, not_true, decide_false, Finset.insert_eq_of_mem mem]

theorem apply_add_of_notMem (absent : v ∉ S) : apply S v .add = (true, insert v S) := by
  simp only [apply, absent, not_false_iff, decide_true]

theorem apply_remove_of_mem (mem : v ∈ S) : apply S v .remove = (true, S.erase v) := by
  simp only [apply, mem, decide_true]

theorem apply_remove_of_notMem (absent : v ∉ S) : apply S v .remove = (false, S) := by
  simp only [apply, absent, decide_false, Finset.erase_eq_of_notMem absent]

end Apply

/-- The results of a sequence of calls, and the set they leave. -/
def results (S : Finset Int) : List (Op × Int) → List Bool × Finset Int
  | [] => ([], S)
  | (op, v) :: ops =>
    let rest := results (apply S v op).2 ops
    ((apply S v op).1 :: rest.1, rest.2)

def InRange (ops : List (Op × Int)) : Prop := ∀ p ∈ ops, listValMin < p.2 ∧ p.2 < listValMax

instance (ops : List (Op × Int)) : Decidable (InRange ops) :=
  inferInstanceAs (Decidable (∀ p ∈ ops, listValMin < p.2 ∧ p.2 < listValMax))

/-! ### Runs -/

section Runs
variable {σ : Type*} {call : Op → Int → Nat → σ → Bool → σ → Prop} {fresh : σ → Nat → Prop}

/-- `call op v a s r s'` says that the call returns `r` and leaves `s'` when `malloc` returns `a`;
`fresh s a` says that it may. A run makes calls one after the other. -/
inductive Runs (call : Op → Int → Nat → σ → Bool → σ → Prop) (fresh : σ → Nat → Prop) :
    σ → List (Op × Int) → List Bool → σ → Prop
  | nil (s : σ) : Runs call fresh s [] [] s
  | cons {s s₁ s' : σ} {op : Op} {v : Int} {a : Nat} {r : Bool} {ops : List (Op × Int)}
      {rs : List Bool} : fresh s a → call op v a s r s₁ → Runs call fresh s₁ ops rs s' →
      Runs call fresh s ((op, v) :: ops) (r :: rs) s'

/-- Where `ok` holds, every call returns what it returns on the set that the state represents. -/
structure Implements (ok : Op → Int → σ → Prop) (call : Op → Int → Nat → σ → Bool → σ → Prop)
    (fresh : σ → Nat → Prop) (Rep : σ → Finset Int → Prop) : Prop where
  room : ∀ s S, Rep s S → ∃ a, fresh s a
  returns : ∀ s S op v a, Rep s S → listValMin < v → v < listValMax → fresh s a → ok op v s →
    ∃ r s', call op v a s r s'
  agrees : ∀ s S op v a r s', Rep s S → listValMin < v → v < listValMax → fresh s a → ok op v s →
    call op v a s r s' → r = (apply S v op).1 ∧ Rep s' (apply S v op).2

/-- In every run of the calls, `ok` holds before each. -/
def Meets (ok : Op → Int → σ → Prop) (call : Op → Int → Nat → σ → Bool → σ → Prop)
    (fresh : σ → Nat → Prop) (s : σ) (ops : List (Op × Int)) : Prop :=
  ∀ ops₁ op v ops₂ rs s', ops = ops₁ ++ (op, v) :: ops₂ → Runs call fresh s ops₁ rs s' → ok op v s'

variable {Rep : σ → Finset Int → Prop} {ok : Op → Int → σ → Prop} {s s₁ s' : σ} {S : Finset Int}
  {ops : List (Op × Int)} {rs : List Bool} {op : Op} {v : Int}

theorem Meets.head (meets : Meets ok call fresh s ((op, v) :: ops)) : ok op v s :=
  meets [] op v ops [] s rfl (.nil s)

theorem Meets.tail {a : Nat} {r : Bool} (meets : Meets ok call fresh s ((op, v) :: ops))
    (malloc : fresh s a) (called : call op v a s r s₁) : Meets ok call fresh s₁ ops := by
  intro ops₁ op' v' ops₂ rs s' split run
  exact meets ((op, v) :: ops₁) op' v' ops₂ (r :: rs) s' (congrArg _ split) (.cons malloc called run)

theorem Implements.runs (impl : Implements ok call fresh Rep) (rep : Rep s S) (inRange : InRange ops)
    (meets : Meets ok call fresh s ops) (run : Runs call fresh s ops rs s') :
    rs = (results S ops).1 ∧ Rep s' (results S ops).2 := by
  induction run generalizing S with
  | nil => exact ⟨rfl, rep⟩
  | @cons s s₁ s' op v a r ops rs malloc called _ ih =>
    obtain ⟨lo, hi⟩ := inRange (op, v) List.mem_cons_self
    obtain ⟨rfl, rep₁⟩ := impl.agrees s S op v a r s₁ rep lo hi malloc meets.head called
    obtain ⟨rfl, rep'⟩ := ih rep₁ (fun p mem => inRange p (List.mem_cons_of_mem _ mem))
      (meets.tail malloc called)
    exact ⟨rfl, rep'⟩

theorem Implements.total (impl : Implements ok call fresh Rep) (rep : Rep s S) (inRange : InRange ops)
    (meets : Meets ok call fresh s ops) : ∃ rs s', Runs call fresh s ops rs s' := by
  induction ops generalizing s S with
  | nil => exact ⟨[], s, .nil s⟩
  | cons p ops ih =>
    obtain ⟨op, v⟩ := p
    obtain ⟨lo, hi⟩ := inRange (op, v) List.mem_cons_self
    obtain ⟨a, malloc⟩ := impl.room s S rep
    obtain ⟨r, s₁, called⟩ := impl.returns s S op v a rep lo hi malloc meets.head
    obtain ⟨-, rep₁⟩ := impl.agrees s S op v a r s₁ rep lo hi malloc meets.head called
    obtain ⟨rs, s', run⟩ := ih rep₁ (fun p mem => inRange p (List.mem_cons_of_mem _ mem))
      (meets.tail malloc called)
    exact ⟨r :: rs, s', .cons malloc called run⟩

/-- What holds before a call in the middle of a sequence. -/
theorem Implements.before (impl : Implements ok call fresh Rep) (rep : Rep s S)
    {ops₁ ops₂ : List (Op × Int)} (inRange : InRange (ops₁ ++ (op, v) :: ops₂))
    (meets : Meets ok call fresh s (ops₁ ++ (op, v) :: ops₂)) (run : Runs call fresh s ops₁ rs s') :
    Rep s' (results S ops₁).2 ∧ ok op v s' := by
  refine ⟨(impl.runs rep (fun p mem => inRange p (List.mem_append_left _ mem)) ?_ run).2,
    meets ops₁ op v ops₂ rs s' rfl run⟩
  rintro ops op' v' ops' rs s' rfl run
  refine meets ops op' v' (ops' ++ (op, v) :: ops₂) rs s' ?_ run
  rw [List.append_assoc]
  rfl

def Always (_ : Op) (_ : Int) (_ : σ) : Prop := True

theorem meets_always : Meets Always call fresh s ops := by
  intro _ _ _ _ _ _ _ _
  trivial

/-- A condition that the representation implies need not be asked for. -/
theorem Implements.always (impl : Implements ok call fresh Rep)
    (implied : ∀ s S op v, Rep s S → listValMin < v → v < listValMax → ok op v s) :
    Implements Always call fresh Rep where
  room := impl.room
  returns := fun s S op v a rep lo hi malloc _ =>
    impl.returns s S op v a rep lo hi malloc (implied s S op v rep lo hi)
  agrees := fun s S op v a r s' rep lo hi malloc _ =>
    impl.agrees s S op v a r s' rep lo hi malloc (implied s S op v rep lo hi)

theorem Implements.meets (impl : Implements ok call fresh Rep)
    (implied : ∀ s S op v, Rep s S → listValMin < v → v < listValMax → ok op v s) (rep : Rep s S)
    (inRange : InRange ops) : Meets ok call fresh s ops := by
  have always := impl.always implied
  rintro ops₁ op v ops₂ rs s' rfl run
  have inRange₁ : InRange ops₁ := fun p mem => inRange p (List.mem_append_left _ mem)
  obtain ⟨lo, hi⟩ := inRange (op, v) (List.mem_append_right _ List.mem_cons_self)
  exact implied s' _ op v (always.runs rep inRange₁ meets_always run).2 lo hi

end Runs

/-! ### Lists in memory -/

/-- The list in memory is sorted and has the keys `S`; `used` are the nodes from `malloc` to
`free`. -/
structure Holds (list : ListT) (next : Nat → Nat) (val : Nat → Int) (used : Nat → Bool)
    (S : Finset Int) : Prop where
  lists : Lists next val list.pHead list.pMax S
  maxNext : next list.pMax = 0
  allocated : ∀ a, Path next list.pMax list.pHead a → used a = true
  nonnull : used 0 = false
  headVal : val list.pHead = listValMin
  maxVal : val list.pMax = listValMax
  room : ∃ n, ∀ a, n ≤ a → used a = false

def Fresh (used : Nat → Bool) (a : Nat) : Prop := a ≠ 0 ∧ used a = false

section Memory
variable {list : ListT} {next : Nat → Nat} {val : Nat → Int} {used : Nat → Bool} {S : Finset Int}
  {v : Int} {a b : Nat}

theorem Holds.fresh (holds : Holds list next val used S) : ∃ a, Fresh used a := by
  obtain ⟨n, room⟩ := holds.room
  exact ⟨n + 1, Nat.succ_ne_zero n, room _ (Nat.le_succ n)⟩

theorem Holds.ne_zero (holds : Holds list next val used S) (reached : Path next list.pMax list.pHead a) :
    a ≠ 0 := by
  rintro rfl
  have live := holds.allocated 0 reached
  rw [holds.nonnull] at live
  cases live

theorem Holds.scan (holds : Holds list next val used S) (lo : listValMin < v) (hi : v < listValMax) :
    ∃ b, Scan next val v list.pHead b ∧ Place next val list.pHead list.pMax v b :=
  holds.lists.scan (by rwa [holds.headVal]) (by rwa [holds.maxVal])

theorem Holds.ne_fresh (holds : Holds list next val used S) (fresh : Fresh used a)
    (reached : Path next list.pMax list.pHead b) : b ≠ a := by
  rintro rfl
  have live := holds.allocated b reached
  rw [fresh.2] at live
  cases live

theorem Holds.ne_next (holds : Holds list next val used S)
    (place : Place next val list.pHead list.pMax v b) : b ≠ next b := fun eq =>
  (holds.lists.sorted.key_lt b place.reached place.outer).ne (congrArg val eq)

theorem Holds.mem_iff (holds : Holds list next val used S) (lo : listValMin < v) (hi : v < listValMax)
    (place : Place next val list.pHead list.pMax v b) : v ∈ S ↔ val (next b) = v :=
  place.mem_iff holds.lists (by rwa [holds.headVal]) (by rwa [holds.maxVal])

theorem reached_insert {list : ListT} {c : Nat} (reachedNext : Path next list.pMax list.pHead (next b))
    (path : Path (Function.update (Function.update next a (next b)) b a) list.pMax list.pHead c) :
    c = a ∨ Path next list.pMax list.pHead c := by
  induction path with
  | refl => exact .inr (.refl _)
  | @tail c d _ edge ih =>
    obtain ⟨outer, rfl⟩ := edge
    by_cases eq : c = b
    · rw [eq, Function.update_self]
      exact .inl rfl
    · rw [Function.update_of_ne eq]
      by_cases new : c = a
      · rw [new, Function.update_self]
        exact .inr reachedNext
      · rw [Function.update_of_ne new]
        exact .inr ((ih.resolve_left new).tail ⟨outer, rfl⟩)

theorem reached_erase {list : ListT} {c : Nat}
    (reachedNext : Path next list.pMax list.pHead (next (next b)))
    (path : Path (Function.update next b (next (next b))) list.pMax list.pHead c) :
    Path next list.pMax list.pHead c := by
  induction path with
  | refl => exact .refl _
  | @tail c d _ edge ih =>
    obtain ⟨outer, rfl⟩ := edge
    by_cases eq : c = b
    · rw [eq, Function.update_self]
      exact reachedNext
    · rw [Function.update_of_ne eq]
      exact ih.tail ⟨outer, rfl⟩

/-- The node with a key below the max sentinel has one behind it. -/
theorem Holds.reached_behind (holds : Holds list next val used S)
    (place : Place next val list.pHead list.pMax v b) (present : val (next b) = v)
    (hi : v < listValMax) : Path next list.pMax list.pHead (next (next b)) := by
  refine holds.lists.reached_next (holds.lists.reached_next place.reached place.outer) ?_
  intro eq
  rw [eq, holds.maxVal] at present
  exact hi.ne' present

/-- A new node is filled in and linked at the place of its key. -/
theorem Holds.insert (holds : Holds list next val used S) (fresh : Fresh used a)
    (place : Place next val list.pHead list.pMax v b) (absent : val (next b) ≠ v) :
    Holds list (Function.update (Function.update next a (next b)) b a) (Function.update val a v)
      (Function.update used a true) (insert v S) := by
  have apart {c : Nat} (reached : Path next list.pMax list.pHead c) : c ≠ a :=
    holds.ne_fresh fresh reached
  have same (c : Nat) (reached : Path next list.pMax list.pHead c) :
      Function.update next a (next b) c = next c ∧ Function.update val a v c = val c :=
    ⟨Function.update_of_ne (apart reached) _ _, Function.update_of_ne (apart reached) _ _⟩
  have lists := holds.lists.congr same
  have there {c : Nat} (reached : Path next list.pMax list.pHead c) :
      Path (Function.update next a (next b)) list.pMax list.pHead c :=
    holds.lists.sorted.path_congr (.refl _) reached fun a reached => (same a reached).1
  have back {c : Nat} (reached : Path (Function.update next a (next b)) list.pMax list.pHead c) :
      Path next list.pMax list.pHead c :=
    holds.lists.reached_of_congr (fun c reached => (same c reached).1) reached
  have reachedNext := holds.lists.reached_next place.reached place.outer
  have place' : Place (Function.update next a (next b)) (Function.update val a v) list.pHead list.pMax
      v b := by
    refine ⟨there place.reached, place.outer, ?_, ?_⟩
    · rw [(same b place.reached).2]
      exact place.below
    · rw [(same b place.reached).1, (same _ reachedNext).2]
      exact place.le
  have fresh' : ¬ Path (Function.update next a (next b)) list.pMax list.pHead a :=
    fun reached => apart (back reached) rfl
  have links : Function.update next a (next b) a = Function.update next a (next b) b := by
    rw [Function.update_self, (same b place.reached).1]
  have absent' : Function.update val a v (Function.update next a (next b) b) ≠ v := by
    rwa [(same b place.reached).1, (same _ reachedNext).2]
  refine ⟨place'.insert lists fresh' links (Function.update_self _ _ _) absent', ?_, ?_, ?_, ?_, ?_, ?_⟩
  · rw [Function.update_of_ne place.outer.symm, (same _ holds.lists.ends).1]
    exact holds.maxNext
  · intro c path
    rcases reached_insert reachedNext path with rfl | reached
    · exact Function.update_self _ _ _
    · rw [Function.update_of_ne (apart reached)]
      exact holds.allocated c reached
  · rw [Function.update_of_ne fresh.1.symm]
    exact holds.nonnull
  · rw [(same _ (.refl _)).2]
    exact holds.headVal
  · rw [(same _ holds.lists.ends).2]
    exact holds.maxVal
  · obtain ⟨n, room⟩ := holds.room
    refine ⟨max n (a + 1), fun c le => ?_⟩
    rw [Function.update_of_ne (by omega)]
    exact room c (by omega)

/-- The node with the key is unlinked; what else is freed was not on the list. -/
theorem Holds.erase (holds : Holds list next val used S)
    (place : Place next val list.pHead list.pMax v b) (present : val (next b) = v) (hi : v < listValMax)
    {used' : Nat → Bool} (kept : ∀ c, Path next list.pMax list.pHead c → c ≠ next b → used' c = used c)
    (fewer : ∀ c, used c = false → used' c = false) :
    Holds list (Function.update next b (next (next b))) val used' (S.erase v) := by
  obtain ⟨lists, gone⟩ := place.erase holds.lists present (by rwa [holds.maxVal])
  refine ⟨lists, ?_, fun c reached => ?_, fewer 0 holds.nonnull, holds.headVal, holds.maxVal, ?_⟩
  · rw [Function.update_of_ne place.outer.symm]
    exact holds.maxNext
  · have ne : c ≠ next b := by
      rintro rfl
      exact gone reached
    have back := reached_erase (holds.reached_behind place present hi) reached
    rw [kept c back ne]
    exact holds.allocated c back
  · obtain ⟨n, room⟩ := holds.room
    exact ⟨n, fun c le => fewer c (room c le)⟩

theorem Holds.frame (holds : Holds list next val used S) {next' : Nat → Nat} {val' : Nat → Int}
    {used' : Nat → Bool} (same : ∀ c, Path next list.pMax list.pHead c →
      next' c = next c ∧ val' c = val c ∧ used' c = used c)
    (nonnull : used' 0 = false) (room : ∃ n, ∀ c, n ≤ c → used' c = false) :
    Holds list next' val' used' S where
  lists := holds.lists.congr fun c reached => ⟨(same c reached).1, (same c reached).2.1⟩
  maxNext := (same _ holds.lists.ends).1.trans holds.maxNext
  allocated := by
    intro c reached
    have old := holds.lists.reached_of_congr (fun c reached => (same c reached).1) reached
    rw [(same c old).2.2]
    exact holds.allocated c old
  nonnull := nonnull
  headVal := (same _ (.refl _)).2.1.trans holds.headVal
  maxVal := (same _ holds.lists.ends).2.1.trans holds.maxVal
  room := room

end Memory

/-! ### Several lists in one memory -/

structure HoldsAll {ι : Type*} (lists : ι → ListT) (next : Nat → Nat) (val : Nat → Int)
    (used : Nat → Bool) (S : ι → Finset Int) : Prop where
  each : ∀ i, Holds (lists i) next val used (S i)
  apart : ∀ i j a, Path next (lists i).pMax (lists i).pHead a →
    Path next (lists j).pMax (lists j).pHead a → i = j

section Lists
variable {ι : Type*} {lists : ι → ListT} {next : Nat → Nat} {val : Nat → Int} {used : Nat → Bool}
  {S : ι → Finset Int} {v : Int} {a b : Nat} {i : ι}

theorem Holds.all {list : ListT} {S : Finset Int} (holds : Holds list next val used S) :
    HoldsAll (fun _ : Unit => list) next val used fun _ => S :=
  ⟨fun _ => holds, fun _ _ _ _ _ => rfl⟩

theorem HoldsAll.free (holds : HoldsAll lists next val used S) {used' : Nat → Bool}
    (kept : ∀ i c, Path next (lists i).pMax (lists i).pHead c → used' c = used c)
    (fewer : ∀ c, used c = false → used' c = false) : HoldsAll lists next val used' S where
  each := by
    intro i
    obtain ⟨n, room⟩ := (holds.each i).room
    exact (holds.each i).frame (fun c reached => ⟨rfl, rfl, kept i c reached⟩)
      (fewer 0 (holds.each i).nonnull) ⟨n, fun c le => fewer c (room c le)⟩
  apart := holds.apart

theorem HoldsAll.insert_same (holds : HoldsAll lists next val used S) (fresh : Fresh used a)
    (place : Place next val (lists i).pHead (lists i).pMax v b) {j : ι} (ne : j ≠ i) {c : Nat}
    (reached : Path next (lists j).pMax (lists j).pHead c) :
    Function.update (Function.update next a (next b)) b a c = next c ∧
      Function.update val a v c = val c ∧ Function.update used a true c = used c := by
  have new : c ≠ a := (holds.each j).ne_fresh fresh reached
  have other : c ≠ b := by
    rintro rfl
    exact ne (holds.apart j i c reached place.reached)
  rw [Function.update_of_ne other, Function.update_of_ne new, Function.update_of_ne new,
    Function.update_of_ne new]
  exact ⟨rfl, rfl, rfl⟩

/-- Linking a node on one list puts nothing else on any list. -/
theorem HoldsAll.insert_reached (holds : HoldsAll lists next val used S) (fresh : Fresh used a)
    (place : Place next val (lists i).pHead (lists i).pMax v b) {j : ι} {c : Nat}
    (reached : Path (Function.update (Function.update next a (next b)) b a) (lists j).pMax
      (lists j).pHead c) : c = a ∧ j = i ∨ Path next (lists j).pMax (lists j).pHead c := by
  by_cases eq : j = i
  · subst eq
    have reachedNext := (holds.each j).lists.reached_next place.reached place.outer
    exact (reached_insert reachedNext reached).imp (fun new => ⟨new, rfl⟩) id
  · have same (c : Nat) (old : Path next (lists j).pMax (lists j).pHead c) :=
      (holds.insert_same fresh place eq old).1
    exact .inr ((holds.each j).lists.reached_of_congr same reached)

/-- Unlinking a node on one list puts nothing on any list. -/
theorem HoldsAll.erase_reached (holds : HoldsAll lists next val used S)
    (place : Place next val (lists i).pHead (lists i).pMax v b) (present : val (next b) = v)
    (hi : v < listValMax) {j : ι} {c : Nat}
    (reached : Path (Function.update next b (next (next b))) (lists j).pMax (lists j).pHead c) :
    Path next (lists j).pMax (lists j).pHead c := by
  by_cases eq : j = i
  · subst eq
    exact reached_erase ((holds.each j).reached_behind place present hi) reached
  · have same (c : Nat) (old : Path next (lists j).pMax (lists j).pHead c) :
        Function.update next b (next (next b)) c = next c := by
      refine Function.update_of_ne ?_ _ _
      rintro rfl
      exact eq (holds.apart j i c old place.reached)
    exact (holds.each j).lists.reached_of_congr same reached

theorem HoldsAll.erase_gone (holds : HoldsAll lists next val used S)
    (place : Place next val (lists i).pHead (lists i).pMax v b) (present : val (next b) = v)
    (hi : v < listValMax) (j : ι) :
    ¬ Path (Function.update next b (next (next b))) (lists j).pMax (lists j).pHead (next b) := by
  intro reached
  have here := (holds.each i).lists.reached_next place.reached place.outer
  obtain rfl := holds.apart j i _ (holds.erase_reached place present hi reached) here
  exact (place.erase (holds.each j).lists present (by rwa [(holds.each j).maxVal])).2 reached

variable [DecidableEq ι]

theorem HoldsAll.insert (holds : HoldsAll lists next val used S) (fresh : Fresh used a)
    (place : Place next val (lists i).pHead (lists i).pMax v b) (absent : val (next b) ≠ v) :
    HoldsAll lists (Function.update (Function.update next a (next b)) b a) (Function.update val a v)
      (Function.update used a true) (Function.update S i (insert v (S i))) := by
  have here := (holds.each i).insert fresh place absent
  constructor
  · intro j
    by_cases eq : j = i
    · subst eq
      rw [Function.update_self]
      exact here
    · rw [Function.update_of_ne eq]
      exact (holds.each j).frame (fun c => holds.insert_same fresh place eq) here.nonnull here.room
  · intro j k c reached reached'
    rcases holds.insert_reached fresh place reached with ⟨rfl, rfl⟩ | old
    · rcases holds.insert_reached fresh place reached' with ⟨-, rfl⟩ | old'
      · rfl
      · exact absurd rfl ((holds.each k).ne_fresh fresh old')
    · rcases holds.insert_reached fresh place reached' with ⟨rfl, rfl⟩ | old'
      · exact absurd rfl ((holds.each j).ne_fresh fresh old)
      · exact holds.apart j k c old old'

theorem HoldsAll.erase (holds : HoldsAll lists next val used S)
    (place : Place next val (lists i).pHead (lists i).pMax v b) (present : val (next b) = v)
    (hi : v < listValMax) {used' : Nat → Bool}
    (kept : ∀ j c, Path next (lists j).pMax (lists j).pHead c → c ≠ next b → used' c = used c)
    (fewer : ∀ c, used c = false → used' c = false) :
    HoldsAll lists (Function.update next b (next (next b))) val used'
      (Function.update S i ((S i).erase v)) := by
  have here := (holds.each i).erase place present hi (kept i) fewer
  have inside := (holds.each i).lists.reached_next place.reached place.outer
  have same (j : ι) (ne : j ≠ i) (c : Nat) (reached : Path next (lists j).pMax (lists j).pHead c) :
      Function.update next b (next (next b)) c = next c ∧ val c = val c ∧ used' c = used c := by
    have other : c ≠ b := by
      rintro rfl
      exact ne (holds.apart j i c reached place.reached)
    have gone : c ≠ next b := by
      rintro rfl
      exact ne (holds.apart j i _ reached inside)
    exact ⟨Function.update_of_ne other _ _, rfl, kept j c reached gone⟩
  constructor
  · intro j
    by_cases eq : j = i
    · subst eq
      rw [Function.update_self]
      exact here
    · rw [Function.update_of_ne eq]
      exact (holds.each j).frame (same j eq) here.nonnull here.room
  · intro j k c reached reached'
    exact holds.apart j k c (holds.erase_reached place present hi reached)
      (holds.erase_reached place present hi reached')

end Lists

/-! ### Calls on one of several lists -/

section Several
variable {σ ι : Type*} {call : ι → Op → Int → Nat → σ → Bool → σ → Prop} {fresh : σ → Nat → Prop}

/-- `call i` is a call on list `i`; where `ok i` holds it returns what it returns on the set of that list
and leaves the other sets. -/
structure ImplementsAll [DecidableEq ι] (ok : ι → Op → Int → σ → Prop)
    (call : ι → Op → Int → Nat → σ → Bool → σ → Prop) (fresh : σ → Nat → Prop)
    (Rep : σ → (ι → Finset Int) → Prop) : Prop where
  room : ∀ (_ : ι) s S, Rep s S → ∃ a, fresh s a
  returns : ∀ i s S op v a, Rep s S → listValMin < v → v < listValMax → fresh s a → ok i op v s →
    ∃ r s', call i op v a s r s'
  agrees : ∀ i s S op v a r s', Rep s S → listValMin < v → v < listValMax → fresh s a → ok i op v s →
    call i op v a s r s' →
    r = (apply (S i) v op).1 ∧ Rep s' (Function.update S i (apply (S i) v op).2)

def AlwaysAll (_ : ι) : Op → Int → σ → Prop := Always

/-- With one list, the set of the list is the set. -/
theorem update_unit (S T : Finset Int) : Function.update (fun _ : Unit => S) () T = fun _ => T := by
  funext u
  cases u
  exact Function.update_self _ _ _

theorem ImplementsAll.single {ok : Unit → Op → Int → σ → Prop}
    {call : Unit → Op → Int → Nat → σ → Bool → σ → Prop} {Rep : σ → (Unit → Finset Int) → Prop}
    (impl : ImplementsAll ok call fresh Rep) :
    Implements (ok ()) (call ()) fresh fun s S => Rep s fun _ => S where
  room := fun s _ rep => impl.room () s _ rep
  returns := fun s _ op v a rep => impl.returns () s _ op v a rep
  agrees := by
    intro s S op v a r s' rep lo hi malloc holds called
    obtain ⟨rfl, rep'⟩ := impl.agrees () s _ op v a r s' rep lo hi malloc holds called
    rw [update_unit] at rep'
    exact ⟨rfl, rep'⟩

end Several

/-! ### `list_size` -/

/-- The loop of `list_size`; `size` is an `int`, and passing its maximum is undefined. -/
def listSizeLoop (next : Nat → Nat) : Nat → Nat → Int → Option Int
  | 0, _, _ => none
  | fuel + 1, p, size =>
    if next p = 0 then some size
    else if size + 1 < 2 ^ 31 then listSizeLoop next fuel (next p) (size + 1)
    else none

def ListSize (list : ListT) (next : Nat → Nat) (size : Int) : Prop :=
  ∃ fuel, listSizeLoop next fuel (next list.pHead) 0 = some size

/-- The loop of `hash_list_size` has added up `n` lists; passing the maximum of `int` is undefined. -/
def HashListSize (buckets : Nat → ListT) (next : Nat → Nat) : Nat → Int → Prop
  | 0, size => size = 0
  | n + 1, size => ∃ before here, HashListSize buckets next n before ∧ ListSize (buckets n) next here ∧
    before + here < 2 ^ 31 ∧ size = before + here

section Size
variable {list : ListT} {next : Nat → Nat} {val : Nat → Int} {used : Nat → Bool} {S : Finset Int}

theorem listSizeLoop_counts {a k : Nat} (counts : Counts next list.pMax a k) (size : Int)
    (last : next list.pMax = 0) (inner : ∀ b, Path next list.pMax a b → b ≠ list.pMax → next b ≠ 0) :
    (size + k < 2 ^ 31 → listSizeLoop next (k + 1) a size = some (size + k)) ∧
      ∀ fuel r, listSizeLoop next fuel a size = some r → r = size + k ∧ (k = 0 ∨ r < 2 ^ 31) := by
  induction counts generalizing size with
  | last =>
    refine ⟨fun _ => ?_, fun fuel r found => ?_⟩
    · rw [listSizeLoop, if_pos last]
      exact congrArg some (Int.add_zero size).symm
    · cases fuel with
      | zero => cases found
      | succ fuel =>
        simp only [listSizeLoop, if_pos last, Option.some.injEq] at found
        subst found
        exact ⟨(Int.add_zero size).symm, .inl rfl⟩
  | @node a k outer _ ih =>
    have on : next a ≠ 0 := inner a (.refl a) outer
    obtain ⟨enough, exact_⟩ := ih (size + 1) fun b path => inner b (.head outer path)
    refine ⟨fun small => ?_, fun fuel r found => ?_⟩
    · have fits : size + 1 < 2 ^ 31 := by push_cast at small; omega
      rw [listSizeLoop, if_neg on, if_pos fits, enough (by push_cast at small; omega)]
      push_cast
      congr 1
      omega
    · cases fuel with
      | zero => cases found
      | succ fuel =>
        simp only [listSizeLoop, if_neg on] at found
        split_ifs at found with fits
        obtain ⟨rfl, small⟩ := exact_ fuel r found
        refine ⟨by omega, .inr ?_⟩
        rcases small with rfl | small
        · omega
        · exact small

/-- The nodes behind the head, up to the max sentinel, have a node behind them. -/
theorem Holds.inner (holds : Holds list next val used S) (b : Nat)
    (path : Path next list.pMax (next list.pHead) b) (outer : b ≠ list.pMax) : next b ≠ 0 := by
  have reached : Path next list.pMax list.pHead b := .head holds.lists.outer path
  exact holds.ne_zero (holds.lists.reached_next reached outer)

theorem Holds.listSize_eq (holds : Holds list next val used S) {r : Int} (sized : ListSize list next r) :
    r = S.card ∧ r < 2 ^ 31 := by
  obtain ⟨enough, exact_⟩ := listSizeLoop_counts holds.lists.counts 0 holds.maxNext holds.inner
  obtain ⟨fuel, found⟩ := sized
  obtain ⟨eq, none | small⟩ := exact_ fuel _ found
  · omega
  · omega

/-- `list_size` returns the number of keys exactly when an `int` holds it. -/
theorem Holds.listSize (holds : Holds list next val used S) :
    ListSize list next S.card ↔ S.card < 2 ^ 31 := by
  obtain ⟨enough, -⟩ := listSizeLoop_counts holds.lists.counts 0 holds.maxNext holds.inner
  refine ⟨fun sized => ?_, fun small => ⟨S.card + 1, ?_⟩⟩
  · have bound := (holds.listSize_eq sized).2
    omega
  · rw [enough (by omega)]
    exact congrArg some (Int.zero_add _)

end Size

end ReadLogUpdate.Sequential
