import Mathlib.Algebra.BigOperators.Group.Finset.Basic
import Mathlib.Data.Finset.Lattice.Fold
import ReadLogUpdate.Sequential.Deferred

/-!
# Hash lists

A hash list sends every key to one of its lists. With indices inside its array it is one set, for each
of the five variants.
-/

namespace ReadLogUpdate.Sequential

open Chain
open Harris (Heap Ref ref null)
open Rcu (maxSpinLocks)

def maxBuckets : Nat := 20000

/-- `hash_list_t` as `*_new_hash_list` builds it: `malloc` has given the lists different nodes. -/
structure HashListT where
  nBuckets : Nat
  buckets : Nat → ListT
  pos : 0 < nBuckets
  le : nBuckets ≤ maxBuckets
  heads : ∀ i j, i < nBuckets → j < nBuckets → (buckets i).pHead = (buckets j).pHead → i = j
  maxes : ∀ i j, i < nBuckets → j < nBuckets → (buckets i).pMax = (buckets j).pMax → i = j
  cross : ∀ i j, i < nBuckets → j < nBuckets → (buckets i).pHead ≠ (buckets j).pMax

namespace HashListT

def hashValue (hash : HashListT) (v : Int) : Int := v.tmod hash.nBuckets

def list (hash : HashListT) (i : Fin hash.nBuckets) : ListT := hash.buckets i

def InBuckets (hash : HashListT) (v : Int) : Prop :=
  0 ≤ hash.hashValue v ∧ hash.hashValue v < hash.nBuckets

def InLocks (hash : HashListT) (v : Int) : Prop :=
  0 ≤ hash.hashValue v ∧ hash.hashValue v < maxSpinLocks

/-- The keys that the remainder of C takes into the array. -/
def Divided (hash : HashListT) (v : Int) : Prop := 0 ≤ v ∨ (hash.nBuckets : Int) ∣ v

/-- The key is not far above a multiple of the number of lists. -/
def Near (hash : HashListT) (v : Int) : Prop :=
  ∃ q : Int, q * hash.nBuckets ≤ v ∧ v < q * hash.nBuckets + maxSpinLocks

def keys (hash : HashListT) (S : Finset Int) (i : Fin hash.nBuckets) : Finset Int :=
  S.filter fun v => hash.hashValue v = (i : Nat)

end HashListT

section Index
variable {hash : HashListT} {v : Int}

/-- C rounds toward zero, so a negative key has an index only as a multiple of the number of lists. -/
theorem HashListT.inBuckets_iff : hash.InBuckets v ↔ hash.Divided v := by
  have pos : (0 : Int) < hash.nBuckets := Int.natCast_pos.mpr hash.pos
  have below : hash.hashValue v < hash.nBuckets := Int.tmod_lt_of_pos v pos
  rw [InBuckets, and_iff_left below, hashValue, Divided]
  constructor
  · intro ge
    by_cases negative : v < 0
    · right
      have up := Int.tmod_nonneg (hash.nBuckets : Int) (Int.neg_nonneg_of_nonpos negative.le)
      rw [Int.neg_tmod] at up
      exact Int.dvd_of_tmod_eq_zero (by omega)
    · exact .inl (not_lt.mp negative)
  · rintro (ge | divides)
    · exact Int.tmod_nonneg _ ge
    · rw [Int.tmod_eq_zero_of_dvd divides]

theorem HashListT.Divided.hashValue_eq (divided : hash.Divided v) :
    hash.hashValue v = v % hash.nBuckets := by
  rcases divided with ge | divides
  · exact Int.tmod_eq_emod_of_nonneg ge
  · exact (Int.tmod_eq_zero_of_dvd divides).trans (Int.emod_eq_zero_of_dvd divides).symm

theorem HashListT.Divided.inLocks_iff (divided : hash.Divided v) : hash.InLocks v ↔ hash.Near v := by
  have nonneg : 0 ≤ hash.hashValue v := (HashListT.inBuckets_iff.mpr divided).1
  have split := Int.mul_ediv_add_emod v hash.nBuckets
  rw [InLocks, and_iff_right nonneg, divided.hashValue_eq, Near]
  rw [divided.hashValue_eq] at nonneg
  constructor
  · intro small
    refine ⟨v / hash.nBuckets, ?_, ?_⟩
    · rw [Int.mul_comm]
      omega
    · rw [Int.mul_comm]
      omega
  · rintro ⟨q, ge, lt⟩
    have pos : (0 : Int) < hash.nBuckets := Int.natCast_pos.mpr hash.pos
    have most := Int.mul_le_mul_of_nonneg_right (Int.le_ediv_of_mul_le pos ge) pos.le
    rw [Int.mul_comm] at split
    omega

theorem HashListT.near_of_le (le : hash.nBuckets ≤ maxSpinLocks) (v : Int) : hash.Near v := by
  have pos : (0 : Int) < hash.nBuckets := Int.natCast_pos.mpr hash.pos
  have split := Int.mul_ediv_add_emod v hash.nBuckets
  have nonneg := Int.emod_nonneg v pos.ne'
  have small := Int.emod_lt_of_pos v pos
  have most : (hash.nBuckets : Int) ≤ maxSpinLocks := Int.ofNat_le.mpr le
  refine ⟨v / hash.nBuckets, ?_, ?_⟩
  · rw [Int.mul_comm]
    omega
  · rw [Int.mul_comm]
    omega

end Index

section Hash
variable {σ : Type*} {hash : HashListT} {ok : Fin hash.nBuckets → Op → Int → σ → Prop}
  {call : Fin hash.nBuckets → Op → Int → Nat → σ → Bool → σ → Prop} {fresh : σ → Nat → Prop}
  {Rep : σ → (Fin hash.nBuckets → Finset Int) → Prop} {S : Finset Int} {s₀ : σ}
  {ops : List (Op × Int)} {v : Int} {i : Fin hash.nBuckets}

/-- A call on `buckets[hash]`; there is no list at an index outside. -/
def HashCall (hash : HashListT) (call : Fin hash.nBuckets → Op → Int → Nat → σ → Bool → σ → Prop)
    (op : Op) (v : Int) (a : Nat) (s : σ) (r : Bool) (s' : σ) : Prop :=
  ∃ i : Fin hash.nBuckets, hash.hashValue v = (i : Nat) ∧ call i op v a s r s'

def HashOk (hash : HashListT) (ok : Fin hash.nBuckets → Op → Int → σ → Prop) (op : Op) (v : Int)
    (s : σ) : Prop :=
  ∃ i : Fin hash.nBuckets, hash.hashValue v = (i : Nat) ∧ ok i op v s

structure HashRep (hash : HashListT) (Rep : σ → (Fin hash.nBuckets → Finset Int) → Prop) (s : σ)
    (S : Finset Int) : Prop where
  rep : Rep s (hash.keys S)
  inside : ∀ v ∈ S, hash.InBuckets v

theorem HashListT.InBuckets.index (inside : hash.InBuckets v) :
    ∃ i : Fin hash.nBuckets, hash.hashValue v = (i : Nat) := by
  obtain ⟨ge, lt⟩ := inside
  obtain ⟨k, eq⟩ := Int.eq_ofNat_of_zero_le ge
  exact ⟨⟨k, by omega⟩, eq⟩

theorem HashListT.index_unique {j : Fin hash.nBuckets} (eq : hash.hashValue v = (i : Nat))
    (eq' : hash.hashValue v = (j : Nat)) : i = j :=
  Fin.ext (Int.ofNat_inj.mp (eq.symm.trans eq'))

theorem HashListT.mem_keys (eq : hash.hashValue v = (i : Nat)) : v ∈ hash.keys S i ↔ v ∈ S := by
  rw [HashListT.keys, Finset.mem_filter]
  exact ⟨And.left, fun mem => ⟨mem, eq⟩⟩

/-- A call on the keys of its list is a call on all keys. -/
theorem HashListT.apply_keys (eq : hash.hashValue v = (i : Nat)) (op : Op) :
    (apply (hash.keys S i) v op).1 = (apply S v op).1 ∧
      Function.update (hash.keys S) i (apply (hash.keys S i) v op).2 = hash.keys (apply S v op).2 := by
  have mem : v ∈ hash.keys S i ↔ v ∈ S := HashListT.mem_keys eq
  have other {j : Fin hash.nBuckets} (ne : j ≠ i) {w : Int} (at_ : hash.hashValue w = (j : Nat)) :
      w ≠ v := by
    rintro rfl
    exact ne (HashListT.index_unique at_ eq)
  cases op with
  | contains => exact ⟨decide_eq_decide.mpr mem, Function.update_eq_self _ _⟩
  | add =>
    refine ⟨decide_eq_decide.mpr (not_congr mem), funext fun j => Finset.ext fun w => ?_⟩
    by_cases same : j = i
    · subst same
      simp only [apply, Function.update_self, HashListT.keys, Finset.mem_insert, Finset.mem_filter]
      constructor
      · rintro (rfl | ⟨there, at_⟩)
        · exact ⟨.inl rfl, eq⟩
        · exact ⟨.inr there, at_⟩
      · rintro ⟨rfl | there, at_⟩
        · exact .inl rfl
        · exact .inr ⟨there, at_⟩
    · simp only [apply, Function.update_of_ne same, HashListT.keys, Finset.mem_insert, Finset.mem_filter]
      constructor
      · rintro ⟨there, at_⟩
        exact ⟨.inr there, at_⟩
      · rintro ⟨new | there, at_⟩
        · exact absurd new (other same at_)
        · exact ⟨there, at_⟩
  | remove =>
    refine ⟨decide_eq_decide.mpr mem, funext fun j => Finset.ext fun w => ?_⟩
    by_cases same : j = i
    · subst same
      simp only [apply, Function.update_self, HashListT.keys, Finset.mem_erase, Finset.mem_filter]
      exact and_assoc.symm
    · simp only [apply, Function.update_of_ne same, HashListT.keys, Finset.mem_erase, Finset.mem_filter]
      constructor
      · rintro ⟨there, at_⟩
        exact ⟨⟨other same at_, there⟩, at_⟩
      · rintro ⟨⟨-, there⟩, at_⟩
        exact ⟨there, at_⟩

theorem HashListT.InBuckets.bucket (inside : hash.InBuckets v) :
    ∃ i, ∀ op a s r s', HashCall hash call op v a s r s' ↔ call i op v a s r s' := by
  obtain ⟨i, eq⟩ := inside.index
  refine ⟨i, fun op a s r s' => ⟨?_, fun called => ⟨i, eq, called⟩⟩⟩
  rintro ⟨j, eq', called⟩
  rwa [HashListT.index_unique eq eq']

theorem ImplementsAll.hashed (impl : ImplementsAll ok call fresh Rep) :
    Implements (HashOk hash ok) (HashCall hash call) fresh (HashRep hash Rep) where
  room := fun s _ rep => impl.room ⟨0, hash.pos⟩ s _ rep.rep
  returns := by
    rintro s S op v a rep lo hi malloc ⟨i, eq, holds⟩
    obtain ⟨r, s', called⟩ := impl.returns i s _ op v a rep.rep lo hi malloc holds
    exact ⟨r, s', i, eq, called⟩
  agrees := by
    rintro s S op v a r s' rep lo hi malloc ⟨i, eq, holds⟩ ⟨j, eq', called⟩
    obtain rfl := HashListT.index_unique eq eq'
    obtain ⟨rfl, rep'⟩ := impl.agrees i s _ op v a r s' rep.rep lo hi malloc holds called
    obtain ⟨result, keys⟩ := HashListT.apply_keys (S := S) eq op
    rw [keys] at rep'
    have inside : hash.InBuckets v := by
      unfold HashListT.InBuckets
      rw [eq]
      exact ⟨Int.natCast_nonneg _, Int.ofNat_lt.mpr i.isLt⟩
    refine ⟨result, rep', fun w mem => ?_⟩
    cases op with
    | contains => exact rep.inside w mem
    | add =>
      rcases Finset.mem_insert.mp mem with rfl | old
      · exact inside
      · exact rep.inside w old
    | remove => exact rep.inside w (Finset.mem_of_mem_erase mem)

/-- A sequence of calls on a hash list from `s₀` does what it does on one set: the index of each is
inside `buckets`, the three operations send its key to the same list, each returns whatever `malloc`
returned, and the size in the end is that of the set. -/
structure HashAgreement (hash : HashListT)
    (call : Fin hash.nBuckets → Op → Int → Nat → σ → Bool → σ → Prop)
    (hashCall : Op → Int → Nat → σ → Bool → σ → Prop) (fresh : σ → Nat → Prop)
    (Sized : σ → Int → Prop) (s₀ : σ) (ops : List (Op × Int)) : Prop where
  indices : ∀ p ∈ ops, hash.InBuckets p.2
  bucket : ∀ p ∈ ops, ∃ i, ∀ op a s r s', hashCall op p.2 a s r s' ↔ call i op p.2 a s r s'
  runs : ∃ rs s, Runs hashCall fresh s₀ ops rs s
  returns : ∀ ops₁ op v ops₂ rs s a, ops = ops₁ ++ (op, v) :: ops₂ →
    Runs hashCall fresh s₀ ops₁ rs s → fresh s a → ∃ r s', hashCall op v a s r s'
  same : ∀ rs s, Runs hashCall fresh s₀ ops rs s → rs = (results ∅ ops).1
  size : ∀ rs s, Runs hashCall fresh s₀ ops rs s → Sized s (results ∅ ops).2.card

def HashMeets (hash : HashListT) (ok : Fin hash.nBuckets → Op → Int → σ → Prop)
    (call : Fin hash.nBuckets → Op → Int → Nat → σ → Bool → σ → Prop) (fresh : σ → Nat → Prop)
    (s₀ : σ) (ops : List (Op × Int)) : Prop :=
  Meets (fun op v s => ∀ i : Fin hash.nBuckets, hash.hashValue v = (i : Nat) → ok i op v s)
    (HashCall hash call) fresh s₀ ops

theorem HashMeets.meets (oks : HashMeets hash ok call fresh s₀ ops)
    (indices : ∀ p ∈ ops, hash.InBuckets p.2) :
    Meets (HashOk hash ok) (HashCall hash call) fresh s₀ ops := by
  rintro ops₁ op v ops₂ rs s rfl run
  obtain ⟨i, eq⟩ := (indices (op, v) (List.mem_append_right _ List.mem_cons_self)).index
  exact ⟨i, eq, oks ops₁ op v ops₂ rs s rfl run i eq⟩

theorem ImplementsAll.hash_iff (impl : ImplementsAll ok call fresh Rep) (init : Rep s₀ fun _ => ∅)
    {Sized : σ → Int → Prop}
    (sized : ∀ s S, HashRep hash Rep s S → (Sized s S.card ↔ S.card < 2 ^ 31)) (inRange : InRange ops)
    (oks : HashMeets hash ok call fresh s₀ ops) :
    HashAgreement hash call (HashCall hash call) fresh Sized s₀ ops ↔
      (∀ p ∈ ops, hash.Divided p.2) ∧ (results ∅ ops).2.card < 2 ^ 31 := by
  have rep₀ : HashRep hash Rep s₀ ∅ := by
    refine ⟨?_, fun v mem => absurd mem (Finset.notMem_empty v)⟩
    rw [show hash.keys ∅ = fun _ => ∅ from funext fun i => Finset.filter_empty _]
    exact init
  constructor
  · intro agreement
    have meets := oks.meets agreement.indices
    obtain ⟨rs, s, run⟩ := agreement.runs
    have rep := (impl.hashed.runs rep₀ inRange meets run).2
    exact ⟨fun p mem => HashListT.inBuckets_iff.mp (agreement.indices p mem),
      (sized s _ rep).mp (agreement.size rs s run)⟩
  · rintro ⟨divided, small⟩
    have indices : ∀ p ∈ ops, hash.InBuckets p.2 := fun p mem =>
      HashListT.inBuckets_iff.mpr (divided p mem)
    have meets := oks.meets indices
    refine ⟨indices, fun p mem => (indices p mem).bucket, impl.hashed.total rep₀ inRange meets, ?_, ?_, ?_⟩
    · rintro ops₁ op v ops₂ rs s a rfl run malloc
      obtain ⟨rep, next⟩ := impl.hashed.before rep₀ inRange meets run
      obtain ⟨lo, hi⟩ := inRange (op, v) (List.mem_append_right _ List.mem_cons_self)
      exact impl.hashed.returns s _ op v a rep lo hi malloc next
    · intro rs s run
      exact (impl.hashed.runs rep₀ inRange meets run).1
    · intro rs s run
      exact (sized s _ (impl.hashed.runs rep₀ inRange meets run).2).mpr small

end Hash

/-! ### `hash_list_size` -/

section Size
variable {hash : HashListT} {next : Nat → Nat} {val : Nat → Int} {used : Nat → Bool} {S : Finset Int}

def HashListT.count (hash : HashListT) (S : Finset Int) (i : Nat) : Nat :=
  (S.filter fun v => hash.hashValue v = i).card

theorem HoldsAll.hashListSize_iff (holds : HoldsAll hash.list next val used (hash.keys S)) (k : Nat)
    (le : k ≤ hash.nBuckets) (r : Int) : HashListSize hash.buckets next k r ↔
      r = (∑ i ∈ Finset.range k, hash.count S i : Nat) ∧ r < 2 ^ 31 := by
  induction k generalizing r with
  | zero =>
    rw [Finset.range_zero, Finset.sum_empty]
    exact ⟨fun zero => ⟨zero, zero ▸ by decide⟩, And.left⟩
  | succ k ih =>
    have here : Holds (hash.buckets k) next val used (S.filter fun v => hash.hashValue v = k) :=
      holds.each ⟨k, le⟩
    rw [Finset.sum_range_succ]
    constructor
    · rintro ⟨before, size, added, sized, small, rfl⟩
      obtain ⟨rfl, -⟩ := (ih (Nat.le_of_succ_le le) before).mp added
      obtain ⟨rfl, -⟩ := here.listSize_eq sized
      exact ⟨(Int.natCast_add _ _).symm, small⟩
    · rintro ⟨rfl, small⟩
      rw [Int.natCast_add] at small
      refine ⟨_, _, (ih (Nat.le_of_succ_le le) _).mpr ⟨rfl, ?_⟩, here.listSize.mpr ?_, small,
        Int.natCast_add _ _⟩
      · omega
      · show hash.count S k < 2 ^ 31
        omega

theorem HashListT.sum_count (inside : ∀ v ∈ S, hash.InBuckets v) :
    ∑ i ∈ Finset.range hash.nBuckets, hash.count S i = S.card := by
  have maps : (S : Set Int).MapsTo (fun v => (hash.hashValue v).toNat)
      (Finset.range hash.nBuckets : Set Nat) := by
    intro v mem
    obtain ⟨ge, lt⟩ := inside v mem
    have bound : (hash.hashValue v).toNat < hash.nBuckets := by omega
    exact Finset.mem_coe.mpr (Finset.mem_range.mpr bound)
  rw [Finset.card_eq_sum_card_fiberwise maps]
  refine Finset.sum_congr rfl fun i _ => congrArg Finset.card (Finset.filter_congr fun v mem => ?_)
  obtain ⟨ge, -⟩ := inside v mem
  omega

theorem HoldsAll.hashListSize (holds : HoldsAll hash.list next val used (hash.keys S))
    (inside : ∀ v ∈ S, hash.InBuckets v) :
    HashListSize hash.buckets next hash.nBuckets S.card ↔ S.card < 2 ^ 31 := by
  rw [holds.hashListSize_iff _ le_rfl, HashListT.sum_count inside]
  constructor
  · rintro ⟨-, small⟩
    omega
  · intro small
    exact ⟨rfl, by omega⟩

end Size

/-! ### New hash lists -/

namespace HashListT

def headOf? (hash : HashListT) (a : Nat) : Option Nat :=
  (List.range hash.nBuckets).find? fun i => decide ((hash.buckets i).pHead = a)

def isMax (hash : HashListT) (a : Nat) : Bool :=
  (List.range hash.nBuckets).any fun i => decide ((hash.buckets i).pMax = a)

def newHeap (hash : HashListT) : Heap where
  val := fun a =>
    if (hash.headOf? a).isSome then listValMin else if hash.isMax a then listValMax else 0
  pNext := fun a => ((hash.headOf? a).map fun i => ref (hash.buckets i).pMax).getD null

def newUsed (hash : HashListT) (a : Nat) : Bool := (hash.headOf? a).isSome || hash.isMax a

def newNode (hash : HashListT) (a : Nat) : NodeT :=
  if (hash.headOf? a).isSome then
    ⟨listValMin, ((hash.headOf? a).map fun i => Ptr.actual (hash.buckets i).pMax).getD .null⟩
  else if hash.isMax a then ⟨listValMax, .null⟩ else ⟨0, .null⟩

end HashListT

section New
variable {hash : HashListT} {a i : Nat}

theorem HashListT.headOf?_head (lt : i < hash.nBuckets) :
    hash.headOf? (hash.buckets i).pHead = some i := by
  cases found : hash.headOf? (hash.buckets i).pHead with
  | none =>
    have none := List.find?_eq_none.mp found i (List.mem_range.mpr lt)
    exact absurd (decide_eq_true rfl) none
  | some j =>
    have here := List.find?_some (p := fun j => decide ((hash.buckets j).pHead = (hash.buckets i).pHead))
      found
    have bound := List.mem_range.mp (List.mem_of_find?_eq_some found)
    rw [hash.heads j i bound lt (of_decide_eq_true here)]

theorem HashListT.headOf?_max (lt : i < hash.nBuckets) : hash.headOf? (hash.buckets i).pMax = none := by
  refine List.find?_eq_none.mpr fun j mem => ?_
  rw [decide_eq_true_eq]
  exact hash.cross j i (List.mem_range.mp mem) lt

theorem HashListT.isMax_max (lt : i < hash.nBuckets) : hash.isMax (hash.buckets i).pMax = true :=
  List.any_eq_true.mpr ⟨i, List.mem_range.mpr lt, decide_eq_true rfl⟩

theorem HashListT.newUsed_cases (used : hash.newUsed a = true) :
    ∃ i, i < hash.nBuckets ∧ ((hash.buckets i).pHead = a ∨ (hash.buckets i).pMax = a) := by
  rcases Bool.or_eq_true_iff.mp used with head | last
  · obtain ⟨i, found⟩ := Option.isSome_iff_exists.mp head
    have here := List.find?_some (p := fun i => decide ((hash.buckets i).pHead = a)) found
    exact ⟨i, List.mem_range.mp (List.mem_of_find?_eq_some found), .inl (of_decide_eq_true here)⟩
  · obtain ⟨i, mem, here⟩ := List.any_eq_true.mp last
    exact ⟨i, List.mem_range.mp mem, .inr (of_decide_eq_true here)⟩

theorem HashListT.newUsed_zero (hash : HashListT) : hash.newUsed 0 = false := by
  rw [Bool.eq_false_iff]
  intro used
  obtain ⟨i, -, head | last⟩ := HashListT.newUsed_cases used
  · exact (hash.buckets i).head_ne head
  · exact (hash.buckets i).max_ne last

theorem HashListT.newUsed_room (hash : HashListT) : ∃ n, ∀ a, n ≤ a → hash.newUsed a = false := by
  refine ⟨(Finset.range hash.nBuckets).sup (fun i => (hash.buckets i).pHead + (hash.buckets i).pMax) + 1,
    fun a le => ?_⟩
  rw [Bool.eq_false_iff]
  intro used
  obtain ⟨i, lt, here⟩ := HashListT.newUsed_cases used
  have bound := Finset.le_sup (f := fun i => (hash.buckets i).pHead + (hash.buckets i).pMax)
    (Finset.mem_range.mpr lt)
  omega

theorem HashListT.newList (lt : i < hash.nBuckets) :
    NewList (hash.buckets i) hash.newHeap hash.newUsed where
  head := by
    unfold HashListT.newHeap
    dsimp only
    rw [HashListT.headOf?_head lt]
    rfl
  last := by
    unfold HashListT.newHeap
    dsimp only
    rw [HashListT.headOf?_max lt]
    rfl
  headVal := by
    unfold HashListT.newHeap
    dsimp only
    rw [HashListT.headOf?_head lt]
    rfl
  maxVal := by
    unfold HashListT.newHeap
    dsimp only
    rw [HashListT.headOf?_max lt, HashListT.isMax_max lt]
    rfl
  usedHead := by
    unfold HashListT.newUsed
    rw [HashListT.headOf?_head lt]
    rfl
  usedMax := by
    unfold HashListT.newUsed
    rw [HashListT.isMax_max lt, Bool.or_true]

/-- The lists of a new hash list are empty and have no node in common. -/
theorem HashListT.new_clean (hash : HashListT) :
    CleanAll hash.list hash.newHeap hash.newUsed fun _ => ∅ := by
  have each (i : Fin hash.nBuckets) : Clean (hash.list i) hash.newHeap hash.newUsed ∅ :=
    (HashListT.newList i.isLt).clean hash.newUsed_zero hash.newUsed_room
  refine ⟨⟨fun i => (each i).holds, fun i j a path path' => ?_⟩, fun i => (each i).unmarked⟩
  have cases_i : a = (hash.buckets i).pHead ∨ a = (hash.buckets i).pMax :=
    (HashListT.newList i.isLt).reached path
  have cases_j : a = (hash.buckets j).pHead ∨ a = (hash.buckets j).pMax :=
    (HashListT.newList j.isLt).reached path'
  rcases cases_i with rfl | rfl
  · rcases cases_j with eq | eq
    · exact Fin.ext (hash.heads i j i.isLt j.isLt eq)
    · exact absurd eq (hash.cross i j i.isLt j.isLt)
  · rcases cases_j with eq | eq
    · exact absurd eq.symm (hash.cross j i j.isLt i.isLt)
    · exact Fin.ext (hash.maxes i j i.isLt j.isLt eq)

theorem HashListT.newNode_next (hash : HashListT) :
    (fun o => addrOf (hash.newNode o).pNext) = hash.newHeap.next := by
  funext o
  unfold HashListT.newNode Heap.next HashListT.newHeap
  dsimp only
  cases hash.headOf? o with
  | none =>
    rw [Option.isSome_none, if_neg Bool.false_ne_true]
    split
    · rfl
    · rfl
  | some i => rfl

theorem HashListT.newNode_val (hash : HashListT) : (fun o => (hash.newNode o).val) = hash.newHeap.val := by
  funext o
  unfold HashListT.newNode HashListT.newHeap
  dsimp only
  split
  · rfl
  · split
    · rfl
    · rfl

theorem HashListT.newNode_plain (hash : HashListT) (o : Nat) (c : CopyAddr) :
    (hash.newNode o).pNext ≠ .copy c := by
  unfold HashListT.newNode
  cases hash.headOf? o with
  | none =>
    rw [Option.isSome_none, if_neg Bool.false_ne_true]
    split
    · rintro ⟨⟩
    · rintro ⟨⟩
  | some i => rintro ⟨⟩

end New

/-! ### The five variants -/

section Calls
variable (hash : HashListT)

/-- `pure_hash_list_*`, which look up a list and call `pure_list_*` with it. -/
def pureHashListContains : Int → Nat → Mem → Bool → Mem → Prop :=
  HashCall hash (fun i => PureCall (hash.list i)) .contains

def pureHashListAdd : Int → Nat → Mem → Bool → Mem → Prop :=
  HashCall hash (fun i => PureCall (hash.list i)) .add

def pureHashListRemove : Int → Nat → Mem → Bool → Mem → Prop :=
  HashCall hash (fun i => PureCall (hash.list i)) .remove

def pureHashList : Op → Int → Nat → Mem → Bool → Mem → Prop
  | .contains => pureHashListContains hash
  | .add => pureHashListAdd hash
  | .remove => pureHashListRemove hash

def bucketConfig (cfg : UrcuConfig) (i : Nat) : UrcuConfig := { cfg with bucket := i }

def rcuHashListContains (cfg : UrcuConfig) : Int → Nat → Urcu → Bool → Urcu → Prop :=
  HashCall hash (fun i => RcuCall (bucketConfig cfg i) (hash.list i)) .contains

def rcuHashListAdd (cfg : UrcuConfig) : Int → Nat → Urcu → Bool → Urcu → Prop :=
  HashCall hash (fun i => RcuCall (bucketConfig cfg i) (hash.list i)) .add

def rcuHashListRemove (cfg : UrcuConfig) : Int → Nat → Urcu → Bool → Urcu → Prop :=
  HashCall hash (fun i => RcuCall (bucketConfig cfg i) (hash.list i)) .remove

def rcuHashList (cfg : UrcuConfig) : Op → Int → Nat → Urcu → Bool → Urcu → Prop
  | .contains => rcuHashListContains hash cfg
  | .add => rcuHashListAdd hash cfg
  | .remove => rcuHashListRemove hash cfg

def harrisHashListContains : Int → Nat → Harris.State → Bool → Harris.State → Prop :=
  HashCall hash (fun i => HarrisCall (hash.list i)) .contains

def harrisHashListAdd : Int → Nat → Harris.State → Bool → Harris.State → Prop :=
  HashCall hash (fun i => HarrisCall (hash.list i)) .add

def harrisHashListRemove : Int → Nat → Harris.State → Bool → Harris.State → Prop :=
  HashCall hash (fun i => HarrisCall (hash.list i)) .remove

def harrisHashList : Op → Int → Nat → Harris.State → Bool → Harris.State → Prop
  | .contains => harrisHashListContains hash
  | .add => harrisHashListAdd hash
  | .remove => harrisHashListRemove hash

def hpHarrisHashListContains : Int → Nat → Hp.State → Bool → Hp.State → Prop :=
  HashCall hash (fun i => HpCall (hash.list i)) .contains

def hpHarrisHashListAdd : Int → Nat → Hp.State → Bool → Hp.State → Prop :=
  HashCall hash (fun i => HpCall (hash.list i)) .add

def hpHarrisHashListRemove : Int → Nat → Hp.State → Bool → Hp.State → Prop :=
  HashCall hash (fun i => HpCall (hash.list i)) .remove

def hpHarrisHashList : Op → Int → Nat → Hp.State → Bool → Hp.State → Prop
  | .contains => hpHarrisHashListContains hash
  | .add => hpHarrisHashListAdd hash
  | .remove => hpHarrisHashListRemove hash

def rluHashListContains (M : Nat) : Int → Nat → RluState → Bool → RluState → Prop :=
  HashCall hash (fun i => RluCall M (hash.list i)) .contains

def rluHashListAdd (M : Nat) : Int → Nat → RluState → Bool → RluState → Prop :=
  HashCall hash (fun i => RluCall M (hash.list i)) .add

def rluHashListRemove (M : Nat) : Int → Nat → RluState → Bool → RluState → Prop :=
  HashCall hash (fun i => RluCall M (hash.list i)) .remove

def rluHashList (M : Nat) : Op → Int → Nat → RluState → Bool → RluState → Prop
  | .contains => rluHashListContains hash M
  | .add => rluHashListAdd hash M
  | .remove => rluHashListRemove hash M

theorem pureHashList_eq : pureHashList hash = HashCall hash fun i => PureCall (hash.list i) := by
  funext op
  cases op <;> rfl

theorem rcuHashList_eq (cfg : UrcuConfig) :
    rcuHashList hash cfg = HashCall hash fun i => RcuCall (bucketConfig cfg i) (hash.list i) := by
  funext op
  cases op <;> rfl

theorem harrisHashList_eq : harrisHashList hash = HashCall hash fun i => HarrisCall (hash.list i) := by
  funext op
  cases op <;> rfl

theorem hpHarrisHashList_eq : hpHarrisHashList hash = HashCall hash fun i => HpCall (hash.list i) := by
  funext op
  cases op <;> rfl

theorem rluHashList_eq (M : Nat) :
    rluHashList hash M = HashCall hash fun i => RluCall M (hash.list i) := by
  funext op
  cases op <;> rfl

end Calls

def HashListT.Sized (hash : HashListT) (next : Nat → Nat) (size : Int) : Prop :=
  HashListSize hash.buckets next hash.nBuckets size

def PureHashAgrees (hash : HashListT) (ops : List (Op × Int)) : Prop :=
  HashAgreement hash (fun i => PureCall (hash.list i)) (pureHashList hash) (fun m => Fresh m.used)
    (fun m => hash.Sized m.pNext) ⟨hash.newHeap.val, hash.newHeap.next, hash.newUsed⟩ ops

/-- `rcu_hash_list_*` is one set, and every lock that it takes is in the table. -/
structure RcuHashAgrees (cfg : UrcuConfig) (hash : HashListT) (ops : List (Op × Int)) : Prop where
  set : HashAgreement hash (fun i => RcuCall (bucketConfig cfg i) (hash.list i)) (rcuHashList hash cfg)
    (fun u => Fresh u.mem.used) (fun u => hash.Sized u.mem.pNext)
    ⟨⟨hash.newHeap.val, hash.newHeap.next, hash.newUsed⟩, fun _ => 1, fun _ => false, []⟩ ops
  locks : ∀ p ∈ ops, p.1 ≠ .contains → hash.InLocks p.2

def HarrisHashAgrees (hash : HashListT) (ops : List (Op × Int)) : Prop :=
  HashAgreement hash (fun i => HarrisCall (hash.list i)) (harrisHashList hash) (fun s => Fresh s.used)
    (fun s => hash.Sized s.heap.next) ⟨hash.newHeap, hash.newUsed, hash.newUsed, fun _ => .idle⟩ ops

/-- `hp_harris_hash_list_*` is one set, whatever is in the records before. -/
def HpHashAgrees (hash : HashListT) (records : Nat → Nat → Ref) (ops : List (Op × Int)) : Prop :=
  HashAgreement hash (fun i => HpCall (hash.list i)) (hpHarrisHashList hash) (fun s => Fresh s.used)
    (fun s => hash.Sized s.heap.next)
    ⟨hash.newHeap, hash.newUsed, fun t => ⟨.idle, ⟨0, 0, records t⟩, .empty⟩⟩ ops

/-- `rlu_hash_list_*` is one set, whose size is there after `rlu_thread_finish`. -/
def RluHashAgrees (M : Nat) (hash : HashListT) (ops : List (Op × Int)) : Prop :=
  HashAgreement hash (fun i => RluCall M (hash.list i)) (rluHashList hash M) (fun s => Fresh s.mem.used)
    (fun s size => ∃ s', s.threadFinish = some s' ∧ hash.Sized s'.mem.rawNext size)
    (.init hash.newNode hash.newUsed) ops

section Variants
variable {hash : HashListT} {ops : List (Op × Int)}

/-- The sum of the sizes, where the lists are in memory. -/
theorem HashListT.sized_iff {next : Nat → Nat} {val : Nat → Int} {used : Nat → Bool} {S : Finset Int}
    (holds : HoldsAll hash.list next val used (hash.keys S)) (inside : ∀ v ∈ S, hash.InBuckets v) :
    hash.Sized next S.card ↔ S.card < 2 ^ 31 := holds.hashListSize inside

theorem hashMeets_always {σ : Type*} {call : Fin hash.nBuckets → Op → Int → Nat → σ → Bool → σ → Prop}
    {fresh : σ → Nat → Prop} {s₀ : σ} : HashMeets hash AlwaysAll call fresh s₀ ops := by
  rintro _ _ _ _ _ _ _ _ _ _
  trivial

theorem pureHashAgrees_iff (inRange : InRange ops) : PureHashAgrees hash ops ↔
    (∀ p ∈ ops, hash.Divided p.2) ∧ (results ∅ ops).2.card < 2 ^ 31 := by
  rw [PureHashAgrees, pureHashList_eq]
  have init : Mem.Rep hash.list ⟨hash.newHeap.val, hash.newHeap.next, hash.newUsed⟩ fun _ => ∅ :=
    hash.new_clean.holds
  exact (pureList_implements hash.list).hash_iff init
    (fun _ _ rep => HashListT.sized_iff rep.rep rep.inside) inRange hashMeets_always

theorem rcuHashAgrees_iff (cfg : UrcuConfig) (inRange : InRange ops) : RcuHashAgrees cfg hash ops ↔
    ((∀ p ∈ ops, hash.Divided p.2) ∧ (results ∅ ops).2.card < 2 ^ 31) ∧
      ∀ p ∈ ops, p.1 ≠ .contains → hash.Near p.2 := by
  have init : Urcu.Rep hash.list
      ⟨⟨hash.newHeap.val, hash.newHeap.next, hash.newUsed⟩, fun _ => 1, fun _ => false, []⟩ fun _ => ∅ :=
    ⟨hash.new_clean.holds, fun _ => rfl, fun _ => rfl, fun _ mem => absurd mem List.not_mem_nil⟩
  have iff (locks : ∀ p ∈ ops, p.1 ≠ .contains → hash.InLocks p.2) :=
    (rcuList_implements (fun i : Fin hash.nBuckets => bucketConfig cfg i) hash.list).hash_iff init
      (fun u S rep => HashListT.sized_iff rep.rep.mem rep.inside) inRange (by
        rintro ops₁ op v ops₂ rs s rfl - i eq writes
        have small := (locks (op, v) (List.mem_append_right _ List.mem_cons_self) writes).2
        rw [eq] at small
        exact Int.ofNat_lt.mp small)
  rw [← rcuHashList_eq] at iff
  constructor
  · rintro ⟨set, locks⟩
    have here := (iff locks).mp set
    exact ⟨here, fun p mem writes => (here.1 p mem).inLocks_iff.mp (locks p mem writes)⟩
  · rintro ⟨here, near⟩
    have locks : ∀ p ∈ ops, p.1 ≠ .contains → hash.InLocks p.2 := fun p mem writes =>
      (here.1 p mem).inLocks_iff.mpr (near p mem writes)
    exact ⟨(iff locks).mpr here, locks⟩

theorem harrisHashAgrees_iff (inRange : InRange ops) : HarrisHashAgrees hash ops ↔
    (∀ p ∈ ops, hash.Divided p.2) ∧ (results ∅ ops).2.card < 2 ^ 31 := by
  rw [HarrisHashAgrees, harrisHashList_eq]
  exact (harrisList_implements hash.list).hash_iff ⟨rfl, hash.new_clean⟩
    (fun _ _ rep => HashListT.sized_iff rep.rep.clean.holds rep.inside) inRange hashMeets_always

theorem hpHashAgrees_iff (records : Nat → Nat → Ref) (inRange : InRange ops) :
    HpHashAgrees hash records ops ↔
      (∀ p ∈ ops, hash.Divided p.2) ∧ (results ∅ ops).2.card < 2 ^ 31 := by
  rw [HpHashAgrees, hpHarrisHashList_eq]
  exact (hpHarrisList_implements hash.list).hash_iff ⟨rfl, hash.new_clean⟩
    (fun _ _ rep => HashListT.sized_iff rep.rep.clean.holds rep.inside) inRange hashMeets_always

/-- The abort of a section finds the write set that the section has filled, in each call of a run. -/
def HashKeepsSlot (M : Nat) (hash : HashListT) (ops : List (Op × Int)) : Prop :=
  HashMeets hash (fun i => KeepsSlot (hash.list i)) (fun i => RluCall M (hash.list i))
    (fun s => Fresh s.mem.used) (.init hash.newNode hash.newUsed) ops

theorem newNode_rep {M : Nat} (one : 1 ≤ M) (hash : HashListT) :
    RluRep M hash.list (RluState.init hash.newNode hash.newUsed) fun _ => ∅ := by
  refine RluState.init_rep one hash.newNode_plain ?_
  rw [hash.newNode_next, hash.newNode_val]
  exact hash.new_clean.holds

theorem rluHashAgrees_iff {M : Nat} (one : 1 ≤ M) (two : 2 * M ≤ rluMaxWriteSets) (inRange : InRange ops)
    (keeps : HashKeepsSlot M hash ops) : RluHashAgrees M hash ops ↔
      (∀ p ∈ ops, hash.Divided p.2) ∧ (results ∅ ops).2.card < 2 ^ 31 := by
  rw [RluHashAgrees, rluHashList_eq]
  refine (rluList_implements one two hash.list).hash_iff (newNode_rep one hash) (fun s S rep => ?_)
    inRange keeps
  obtain ⟨s', done, -, holds⟩ := rep.rep.threadFinish two
  have sized := HashListT.sized_iff holds rep.inside
  constructor
  · rintro ⟨s'', done', size⟩
    obtain rfl := Option.some.inj (done.symm.trans done')
    exact sized.mp size
  · intro small
    exact ⟨s', done, sized.mpr small⟩

/-- Each variant of a hash list is one set exactly when every key is not negative or a multiple of the
number of lists, every key that RCU locks is near such a multiple, and an `int` counts the keys. -/
theorem hash_list_set (hash : HashListT) (cfg : UrcuConfig) (records : Nat → Nat → Ref) (M : Nat)
    (one : 1 ≤ M) (two : 2 * M ≤ rluMaxWriteSets) (ops : List (Op × Int)) (inRange : InRange ops) :
    (PureHashAgrees hash ops ↔
      (∀ p ∈ ops, hash.Divided p.2) ∧ (results ∅ ops).2.card < 2 ^ 31) ∧
    (RcuHashAgrees cfg hash ops ↔
      ((∀ p ∈ ops, hash.Divided p.2) ∧ (results ∅ ops).2.card < 2 ^ 31) ∧
        ∀ p ∈ ops, p.1 ≠ .contains → hash.Near p.2) ∧
    (HarrisHashAgrees hash ops ↔
      (∀ p ∈ ops, hash.Divided p.2) ∧ (results ∅ ops).2.card < 2 ^ 31) ∧
    (HpHashAgrees hash records ops ↔
      (∀ p ∈ ops, hash.Divided p.2) ∧ (results ∅ ops).2.card < 2 ^ 31) ∧
    (HashKeepsSlot M hash ops → (RluHashAgrees M hash ops ↔
      (∀ p ∈ ops, hash.Divided p.2) ∧ (results ∅ ops).2.card < 2 ^ 31)) :=
  ⟨pureHashAgrees_iff inRange, rcuHashAgrees_iff cfg inRange, harrisHashAgrees_iff inRange,
    hpHashAgrees_iff records inRange, rluHashAgrees_iff one two inRange⟩

theorem hashKeepsSlot_of_few {M : Nat} (one : 1 ≤ M) (two : 2 * M ≤ rluMaxWriteSets)
    (inRange : InRange ops) (few : ops.length ≤ 2 ^ 31) : HashKeepsSlot M hash ops := by
  have calls (op : Op) (v : Int) (a : Nat) (s : RluState) (r : Bool) (s' : RluState)
      (called : HashCall hash (fun i => RluCall M (hash.list i)) op v a s r s') :
      ∃ i, RluCall M (hash.list i) op v a s r s' := by
    obtain ⟨i, -, called⟩ := called
    exact ⟨i, called⟩
  have right := rightSlot_of_few one two calls (newNode_rep one hash) inRange few
  exact fun ops₁ op v ops₂ rs s split run _ _ _ => right ops₁ op v ops₂ rs s split run

end Variants

def twoBuckets : HashListT where
  nBuckets := 2
  buckets := fun i => ⟨2 * i + 2, 2 * i + 3, Nat.succ_ne_zero _, Nat.succ_ne_zero _,
    (Nat.succ_ne_self _).symm⟩
  pos := Nat.succ_pos 1
  le := Nat.le_of_ble_eq_true rfl
  heads := fun i j _ _ eq => Nat.eq_of_mul_eq_mul_left Nat.two_pos (Nat.add_right_cancel eq)
  maxes := fun i j _ _ eq => Nat.eq_of_mul_eq_mul_left Nat.two_pos (Nat.add_right_cancel eq)
  cross := by
    intro i j _ _ eq
    have eq : 2 * i + 2 = 2 * j + 3 := eq
    omega

def fiveCalls : List (Op × Int) := [(.add, 5), (.add, 4), (.add, -2), (.contains, 5), (.remove, 4)]

theorem hash_list_set_two : PureHashAgrees twoBuckets fiveCalls ∧
    RcuHashAgrees oneThread twoBuckets fiveCalls ∧ HarrisHashAgrees twoBuckets fiveCalls ∧
    HpHashAgrees twoBuckets (fun _ _ => null) fiveCalls ∧ RluHashAgrees 3 twoBuckets fiveCalls := by
  have small : (∀ p ∈ fiveCalls, 0 ≤ p.2 ∨ (2 : Int) ∣ p.2) ∧ (results ∅ fiveCalls).2.card < 2 ^ 31 := by
    decide
  have near : ∀ p ∈ fiveCalls, p.1 ≠ .contains → twoBuckets.Near p.2 := fun p _ _ =>
    HashListT.near_of_le (by decide) p.2
  have inRange : InRange fiveCalls := by decide
  obtain ⟨pure, rcu, harris, hp, rlu⟩ := hash_list_set twoBuckets oneThread (fun _ _ => null) 3
    (by decide) (by decide) fiveCalls inRange
  have keeps : HashKeepsSlot 3 twoBuckets fiveCalls :=
    hashKeepsSlot_of_few (by decide) (by decide) inRange (by decide)
  exact ⟨pure.mpr small, rcu.mpr ⟨small, near⟩, harris.mpr small, hp.mpr small,
    (rlu keeps).mpr small⟩

/-- The key -1 has the index -1. -/
theorem hash_list_not_set : ¬ ∀ (hash : HashListT) (cfg : UrcuConfig) (records : Nat → Nat → Ref)
    (M : Nat) (ops : List (Op × Int)), 1 ≤ M → 2 * M ≤ rluMaxWriteSets → InRange ops →
    PureHashAgrees hash ops ∧ RcuHashAgrees cfg hash ops ∧ HarrisHashAgrees hash ops ∧
      HpHashAgrees hash records ops ∧ RluHashAgrees M hash ops := by
  intro claimed
  obtain ⟨pure, -⟩ := claimed twoBuckets oneThread (fun _ _ => null) 1 [(.contains, -1)] (by decide)
    (by decide) (by decide)
  have inside := (pure.indices (.contains, -1) List.mem_cons_self).1
  exact absurd inside (show ¬ (0 : Int) ≤ (-1 : Int).tmod 2 by decide)

end ReadLogUpdate.Sequential
