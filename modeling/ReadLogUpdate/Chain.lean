import Mathlib.Logic.Relation
import Mathlib.Order.Interval.Finset.Basic
import Mathlib.Data.Finset.Card

/-!
Chains of nodes given by a `next` function up to a last node, with keys that grow along them.
Some nodes are dead: their `next` is frozen. Inserting a node behind a live one and unlinking a
run of dead nodes keep every live node on the chain.
-/

namespace ReadLogUpdate.Chain

open Relation

variable {α κ : Type*} {next : α → α} {dead linked : α → Prop} {last : α} {key : α → κ}

/-- The edges of the chain. -/
def Edge (next : α → α) (last a b : α) : Prop := a ≠ last ∧ next a = b

/-- `b` is reached from `a` without passing the last node. -/
def Path (next : α → α) (last : α) : α → α → Prop := ReflTransGen (Edge next last)

/-- Every node from `a` to just before `b` is dead. -/
inductive Run (next : α → α) (dead : α → Prop) : α → α → Prop where
  | nil (a : α) : Run next dead a a
  | cons {a b : α} : dead a → Run next dead (next a) b → Run next dead a b

theorem Path.refl (a : α) : Path next last a a := ReflTransGen.refl

theorem Path.head {a b : α} (ne : a ≠ last) (path : Path next last (next a) b) :
    Path next last a b := ReflTransGen.head ⟨ne, rfl⟩ path

theorem Path.total {a b c : α} (h : Path next last a b) (h' : Path next last a c) :
    Path next last b c ∨ Path next last c b :=
  ReflTransGen.total_of_right_unique (fun _ _ _ e e' => e.2.symm.trans e'.2) h h'

theorem Path.cases {a b : α} (path : Path next last a b) :
    a = b ∨ a ≠ last ∧ Path next last (next a) b := by
  rcases ReflTransGen.cases_head path with rfl | ⟨c, ⟨ne, rfl⟩, rest⟩
  · exact .inl rfl
  · exact .inr ⟨ne, rest⟩

/-- Past a dead run a live node is reached from its end. -/
theorem Run.skip {a b n : α} (run : Run next dead a b) (path : Path next last a n)
    (live : ¬ dead n) : Path next last b n := by
  induction run with
  | nil => exact path
  | cons gone rest ih =>
    rcases path.cases with rfl | ⟨-, path⟩
    · exact absurd gone live
    · exact ih path

theorem Run.snoc {a b : α} (run : Run next dead a b) (gone : dead b) : Run next dead a (next b) := by
  induction run with
  | nil => exact .cons gone (.nil _)
  | cons gone' rest ih => exact .cons gone' (ih gone)

theorem Run.mono {next' : α → α} {dead' : α → Prop} {a b : α} (run : Run next dead a b)
    (frozen : ∀ n, dead n → dead' n ∧ next' n = next n) : Run next' dead' a b := by
  induction run with
  | nil => exact .nil _
  | cons gone rest ih =>
    obtain ⟨gone', same⟩ := frozen _ gone
    exact .cons gone' (same ▸ ih)

section Update
variable [DecidableEq α] {a b c n : α}

/-- A node inserted behind `a` takes no other node off the chain. -/
theorem Path.insert {x y : α} (path : Path next last x y) (ne : n ≠ a) (inner : n ≠ last)
    (links : next n = next a) : Path (Function.update next a n) last x y := by
  have new : Function.update next a n n = next a := (Function.update_of_ne ne _ _).trans links
  induction path with
  | refl => exact .refl _
  | @tail b c _ edge ih =>
    obtain ⟨outer, rfl⟩ := edge
    by_cases here : b = a
    · subst here
      have first : Edge (Function.update next b n) last b n := ⟨outer, Function.update_self _ _ _⟩
      exact (ih.tail first).tail ⟨inner, new⟩
    · exact ih.tail ⟨outer, Function.update_of_ne here _ _⟩

theorem Path.inserted (inner : a ≠ last) : Path (Function.update next a n) last a n :=
  .head inner (by rw [Function.update_self]; exact .refl n)

/-- Unlinking the dead nodes behind `a` takes no live node off the chain. -/
theorem Path.unlink {x : α} (path : Path next last x n) (live : ¬ dead n) (alive : ¬ dead a)
    (run : Run next dead (next a) c) : Path (Function.update next a c) last x n := by
  have run' : Run (Function.update next a c) dead (next a) c :=
    run.mono fun m gone =>
      ⟨gone, Function.update_of_ne (show m ≠ a by rintro rfl; exact alive gone) _ _⟩
  induction path using ReflTransGen.head_induction_on with
  | refl => exact .refl n
  | @head x y edge _ ih =>
    obtain ⟨outer, rfl⟩ := edge
    refine .head outer ?_
    by_cases here : x = a
    · subst here
      rw [Function.update_self]
      exact run'.skip ih live
    · rw [Function.update_of_ne here]
      exact ih

end Update

/-! ### Keys -/

/-- The keys of linked nodes grow along the chain, up to the key of the last node. -/
structure Sorted [LinearOrder κ] (next : α → α) (linked : α → Prop) (last : α) (key : α → κ) :
    Prop where
  next_linked : ∀ a, linked a → a ≠ last → linked (next a)
  key_lt : ∀ a, linked a → a ≠ last → key a < key (next a)
  key_le : ∀ a, linked a → key a ≤ key last

section Sorted
variable [LinearOrder κ] {a b n : α}

theorem Sorted.path (sorted : Sorted next linked last key) (here : linked a)
    (path : Path next last a b) : linked b ∧ (a = b ∨ key a < key b) := by
  induction path with
  | refl => exact ⟨here, .inl rfl⟩
  | @tail b c _ edge ih =>
    obtain ⟨outer, rfl⟩ := edge
    obtain ⟨there, order⟩ := ih
    have step := sorted.key_lt b there outer
    refine ⟨sorted.next_linked b there outer, .inr ?_⟩
    rcases order with rfl | lt
    · exact step
    · exact lt.trans step

theorem Sorted.path_congr {next' : α → α} (sorted : Sorted next linked last key) (here : linked a)
    (path : Path next last a b) (same : ∀ a, linked a → next' a = next a) :
    Path next' last a b := by
  induction path with
  | refl => exact .refl a
  | @tail b c path edge ih =>
    obtain ⟨outer, rfl⟩ := edge
    exact ih.tail ⟨outer, same b (sorted.path here path).1⟩

theorem Sorted.key_le_of_path (sorted : Sorted next linked last key) (here : linked a)
    (path : Path next last a b) : key a ≤ key b := by
  rcases (sorted.path here path).2 with rfl | lt
  · exact le_rfl
  · exact lt.le

theorem Sorted.linked_of_run (sorted : Sorted next linked last key)
    (inner : ∀ a, dead a → a ≠ last) (run : Run next dead a b) (here : linked a) :
    linked b ∧ key a ≤ key b := by
  induction run with
  | nil => exact ⟨here, le_rfl⟩
  | @cons a b gone rest ih =>
    have outer := inner a gone
    obtain ⟨there, le⟩ := ih (sorted.next_linked a here outer)
    exact ⟨there, (sorted.key_lt a here outer).le.trans le⟩

theorem Sorted.path_last [LocallyFiniteOrder κ] (sorted : Sorted next linked last key) {x : α}
    (here : linked x) : Path next last x last := by
  by_cases done : x = last
  · rw [done]
    exact .refl last
  · have step := sorted.key_lt x here done
    have there := sorted.next_linked x here done
    have shrinks : (Finset.Ioc (key (next x)) (key last)).card <
        (Finset.Ioc (key x) (key last)).card := by
      refine Finset.card_lt_card (Finset.ssubset_iff_of_subset ?_ |>.mpr ?_)
      · exact Finset.Ioc_subset_Ioc_left step.le
      · exact ⟨key (next x), Finset.mem_Ioc.mpr ⟨step, sorted.key_le _ there⟩, by simp⟩
    exact .head done (sorted.path_last there)
termination_by (Finset.Ioc (key x) (key last)).card

/-- Two nodes of the chain with one key are one node. -/
theorem Sorted.eq_of_key {head : α} (sorted : Sorted next linked last key)
    (start : linked head) (ha : Path next last head a) (hb : Path next last head b)
    (same : key a = key b) : a = b := by
  have la := (sorted.path start ha).1
  have lb := (sorted.path start hb).1
  rcases ha.total hb with path | path
  · rcases (sorted.path la path).2 with eq | lt
    · exact eq
    · exact absurd same lt.ne
  · rcases (sorted.path lb path).2 with eq | lt
    · exact eq.symm
    · exact absurd same lt.ne'

/-- No node of the chain has a key between those of a node and the next one. -/
theorem Sorted.not_between {head : α} (sorted : Sorted next linked last key)
    (start : linked head) (ha : Path next last head a) (outer : a ≠ last)
    (hn : Path next last head n) : ¬ (key a < key n ∧ key n < key (next a)) := by
  rintro ⟨above, below⟩
  have la := (sorted.path start ha).1
  have ln := (sorted.path start hn).1
  rcases ha.total hn with path | path
  · rcases path.cases with rfl | ⟨-, rest⟩
    · exact lt_irrefl _ above
    · exact absurd below
        (sorted.key_le_of_path (sorted.next_linked a la outer) rest).not_gt
  · exact absurd above (sorted.key_le_of_path ln path).not_gt

theorem Sorted.eq_of_next {head : α} (sorted : Sorted next linked last key) (start : linked head)
    (ha : Path next last head a) (hb : Path next last head b) (outer : a ≠ last)
    (outer' : b ≠ last) (same : next a = next b) : a = b := by
  have apart {a b : α} (ha : Path next last head a) (hb : Path next last head b)
      (outer : b ≠ last) (same : next a = next b) (path : Path next last a b) : a = b := by
    rcases path.cases with eq | ⟨inner, rest⟩
    · exact eq
    · have there := sorted.next_linked a (sorted.path start ha).1 inner
      have up := sorted.key_lt b (sorted.path start hb).1 outer
      rw [same] at rest there
      exact absurd (sorted.key_le_of_path there rest) up.not_ge
  rcases ha.total hb with path | path
  · exact apart ha hb outer' same path
  · exact (apart hb ha outer same.symm path).symm

section Update
variable [DecidableEq α]

theorem Sorted.insert (sorted : Sorted next linked last key) (here : linked a) (outer : a ≠ last)
    (links : next n = next a) (above : key a < key n) (below : key n < key (next a)) :
    Sorted (Function.update next a n) (fun b => b = n ∨ linked b) last key := by
  have there := sorted.next_linked a here outer
  refine ⟨fun b h inner => ?_, fun b h inner => ?_, fun b h => ?_⟩
  · by_cases eq : b = a
    · rw [eq, Function.update_self]
      exact .inl rfl
    · rw [Function.update_of_ne eq]
      rcases h with rfl | h
      · rw [links]
        exact .inr there
      · exact .inr (sorted.next_linked b h inner)
  · by_cases eq : b = a
    · rw [eq, Function.update_self]
      exact above
    · rw [Function.update_of_ne eq]
      rcases h with rfl | h
      · rw [links]
        exact below
      · exact sorted.key_lt b h inner
  · rcases h with rfl | h
    · exact (below.trans_le (sorted.key_le _ there)).le
    · exact sorted.key_le b h

theorem Sorted.erase {head : α} (sorted : Sorted next linked last key) (start : linked head)
    (reached : ∀ b, linked b → Path next last head b) (here : linked a) (outer : a ≠ last)
    (inner : next a ≠ last) :
    Sorted (Function.update next a (next (next a))) (fun b => linked b ∧ b ≠ next a) last key := by
  have there := sorted.next_linked a here outer
  have up := sorted.key_lt _ there inner
  refine ⟨fun b h notLast => ?_, fun b h notLast => ?_, fun b h => sorted.key_le b h.1⟩
  · by_cases eq : b = a
    · rw [eq, Function.update_self]
      exact ⟨sorted.next_linked _ there inner, fun same => up.ne (congrArg key same.symm)⟩
    · rw [Function.update_of_ne eq]
      exact ⟨sorted.next_linked b h.1 notLast, fun same =>
        eq (sorted.eq_of_next start (reached b h.1) (reached a here) notLast outer same)⟩
  · by_cases eq : b = a
    · rw [eq, Function.update_self]
      exact (sorted.key_lt a here outer).trans up
    · rw [Function.update_of_ne eq]
      exact sorted.key_lt b h.1 notLast

end Update

end Sorted

end ReadLogUpdate.Chain
