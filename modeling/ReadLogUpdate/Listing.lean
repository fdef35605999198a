import Mathlib.Data.Finset.Card
import ReadLogUpdate.Chain

/-!
# Chains as finite sets

A sorted chain between two sentinels lists a finite set of keys. A scan from the head finds the
place of a key, and inserting and erasing there follow the set.
-/

namespace ReadLogUpdate.Chain

open Relation

variable {α κ : Type*} [LinearOrder κ] {next : α → α} {key : α → κ} {head last : α} {S : Finset κ}
  {v : κ} {a b n : α}

/-- The chain from `head` to `last` is sorted, and its inner nodes have the keys `S`. -/
structure Lists (next : α → α) (key : α → κ) (head last : α) (S : Finset κ) : Prop where
  sorted : Sorted next (Path next last head) last key
  ends : Path next last head last
  outer : head ≠ last
  mem : ∀ v, v ∈ S ↔ ∃ a, Path next last head a ∧ a ≠ head ∧ a ≠ last ∧ key a = v

/-- A loop that starts behind `a` and goes on while keys are below `v` stops behind `b`. -/
inductive Scan (next : α → α) (key : α → κ) (v : κ) : α → α → Prop
  | here {a : α} : ¬ key (next a) < v → Scan next key v a a
  | on {a b : α} : key (next a) < v → Scan next key v (next a) b → Scan next key v a b

/-- The place of `v`: behind the node `a`. -/
structure Place (next : α → α) (key : α → κ) (head last : α) (v : κ) (a : α) : Prop where
  reached : Path next last head a
  outer : a ≠ last
  below : key a < v
  le : v ≤ key (next a)

theorem Lists.reached_next (lists : Lists next key head last S) (reached : Path next last head a)
    (outer : a ≠ last) : Path next last head (next a) := lists.sorted.next_linked a reached outer

theorem Lists.to_last (lists : Lists next key head last S) (reached : Path next last head a) :
    Path next last a last := by
  rcases reached.total lists.ends with path | path
  · exact path
  · rcases path.cases with rfl | ⟨outer, -⟩
    · exact .refl _
    · exact absurd rfl outer

/-- A scan finds the place of every key between the sentinels. -/
theorem Lists.scan (lists : Lists next key head last S) (lo : key head < v) (hi : v < key last) :
    ∃ b, Scan next key v head b ∧ Place next key head last v b := by
  have from_ (a : α) (path : Path next last a last) : Path next last head a → a ≠ last → key a < v →
      ∃ b, Scan next key v a b ∧ Place next key head last v b := by
    induction path using ReflTransGen.head_induction_on with
    | refl => exact fun _ outer => absurd rfl outer
    | @head a c edge _ ih =>
      obtain ⟨outer, rfl⟩ := edge
      intro reached _ below
      by_cases on : key (next a) < v
      · have inner : next a ≠ last := by
          intro eq
          rw [eq] at on
          exact absurd on hi.not_gt
        obtain ⟨b, scan, place⟩ := ih (lists.reached_next reached outer) inner on
        exact ⟨b, .on on scan, place⟩
      · exact ⟨a, .here on, reached, outer, below, not_lt.mp on⟩
  exact from_ head lists.ends (.refl _) lists.outer lo

/-- The node behind the place of a key tells whether the key is listed. -/
theorem Place.mem_iff (place : Place next key head last v a) (lists : Lists next key head last S)
    (lo : key head < v) (hi : v < key last) : v ∈ S ↔ key (next a) = v := by
  rw [lists.mem]
  constructor
  · rintro ⟨n, reached, -, -, same⟩
    have between := lists.sorted.not_between (.refl head) place.reached place.outer reached
    rw [same] at between
    exact (not_lt.mp fun lt => between ⟨place.below, lt⟩).antisymm place.le
  · intro same
    refine ⟨next a, lists.reached_next place.reached place.outer, ?_, ?_, same⟩
    · intro eq
      rw [eq] at same
      exact lo.ne same
    · intro eq
      rw [eq] at same
      exact hi.ne' same

theorem Lists.reached_of_congr {next' : α → α} (lists : Lists next key head last S)
    (same : ∀ a, Path next last head a → next' a = next a) (path : Path next' last head a) :
    Path next last head a := by
  induction path with
  | refl => exact .refl head
  | @tail b c _ edge ih =>
    obtain ⟨outer, rfl⟩ := edge
    rw [same b ih]
    exact lists.reached_next ih outer

theorem Lists.congr {next' : α → α} {key' : α → κ} (lists : Lists next key head last S)
    (same : ∀ a, Path next last head a → next' a = next a ∧ key' a = key a) :
    Lists next' key' head last S := by
  have there {a : α} (path : Path next last head a) : Path next' last head a :=
    lists.sorted.path_congr (.refl head) path fun a reached => (same a reached).1
  have back {a : α} (path : Path next' last head a) : Path next last head a :=
    lists.reached_of_congr (fun a reached => (same a reached).1) path
  refine ⟨⟨fun a reached inner => ?_, fun a reached inner => ?_, fun a reached => ?_⟩,
    there lists.ends, lists.outer, fun v => ?_⟩
  · exact reached.tail ⟨inner, rfl⟩
  · have next_reached := lists.reached_next (back reached) inner
    rw [(same a (back reached)).1, (same a (back reached)).2, (same _ next_reached).2]
    exact lists.sorted.key_lt a (back reached) inner
  · rw [(same a (back reached)).2, (same last lists.ends).2]
    exact lists.sorted.key_le a (back reached)
  · rw [lists.mem]
    constructor
    · rintro ⟨a, reached, ne, inner, rfl⟩
      exact ⟨a, there reached, ne, inner, (same a reached).2⟩
    · rintro ⟨a, reached, ne, inner, rfl⟩
      exact ⟨a, back reached, ne, inner, (same a (back reached)).2.symm⟩

section Update
variable [DecidableEq α]

theorem Place.insert (place : Place next key head last v a) (lists : Lists next key head last S)
    (fresh : ¬ Path next last head n) (links : next n = next a) (keyed : key n = v)
    (absent : key (next a) ≠ v) : Lists (Function.update next a n) key head last (insert v S) := by
  have outer : n ≠ last := by
    rintro rfl
    exact fresh lists.ends
  have other : n ≠ a := by
    rintro rfl
    exact fresh place.reached
  have inner : n ≠ head := by
    rintro rfl
    exact fresh (.refl _)
  have sorted := lists.sorted.insert place.reached place.outer links (keyed ▸ place.below)
    (keyed ▸ lt_of_le_of_ne place.le absent.symm)
  have keeps {b : α} (path : Path next last head b) : Path (Function.update next a n) last head b :=
    path.insert other outer links
  have new : Path (Function.update next a n) last head n :=
    (keeps place.reached).trans (Path.inserted place.outer)
  have reached (b : α) : Path (Function.update next a n) last head b ↔ b = n ∨ Path next last head b := by
    refine ⟨fun path => (sorted.path (.inr (.refl head)) path).1, ?_⟩
    rintro (rfl | path)
    · exact new
    · exact keeps path
  refine ⟨?_, keeps lists.ends, lists.outer, fun w => ?_⟩
  · rw [show Path (Function.update next a n) last head = fun b => b = n ∨ Path next last head b from
      funext fun b => propext (reached b)]
    exact sorted
  · rw [Finset.mem_insert, lists.mem]
    constructor
    · rintro (rfl | ⟨b, path, ne, ne', rfl⟩)
      · exact ⟨n, new, inner, outer, keyed⟩
      · exact ⟨b, keeps path, ne, ne', rfl⟩
    · rintro ⟨b, path, ne, ne', rfl⟩
      rcases (reached b).mp path with rfl | path
      · exact .inl keyed
      · exact .inr ⟨b, path, ne, ne', rfl⟩

theorem Place.erase (place : Place next key head last v a) (lists : Lists next key head last S)
    (present : key (next a) = v) (hi : v < key last) :
    Lists (Function.update next a (next (next a))) key head last (S.erase v) ∧
      ¬ Path (Function.update next a (next (next a))) last head (next a) := by
  have inner : next a ≠ last := by
    intro eq
    rw [eq] at present
    exact hi.ne' present
  have here := lists.reached_next place.reached place.outer
  have sorted := lists.sorted.erase (.refl head) (fun _ path => path) place.reached place.outer inner
  have headStays : head ≠ next a := by
    rintro eq
    have le := lists.sorted.key_le_of_path (.refl head) place.reached
    have lt := lists.sorted.key_lt a place.reached place.outer
    rw [← eq] at lt
    exact absurd lt le.not_gt
  have alive : ¬ a = next a := fun eq =>
    (lists.sorted.key_lt a place.reached place.outer).ne (congrArg key eq)
  have reached (b : α) : Path (Function.update next a (next (next a))) last head b ↔
      Path next last head b ∧ b ≠ next a := by
    refine ⟨fun path => (sorted.path ⟨.refl head, headStays⟩ path).1, ?_⟩
    rintro ⟨path, ne⟩
    have run : Run next (· = next a) (next a) (next (next a)) := .cons rfl (.nil _)
    exact path.unlink ne alive run
  have lists' : Lists (Function.update next a (next (next a))) key head last (S.erase v) := by
    refine ⟨?_, (reached last).mpr ⟨lists.ends, inner.symm⟩, lists.outer, fun w => ?_⟩
    · rw [show Path (Function.update next a (next (next a))) last head =
        fun b => Path next last head b ∧ b ≠ next a from funext fun b => propext (reached b)]
      exact sorted
    · rw [Finset.mem_erase, lists.mem]
      constructor
      · rintro ⟨ne, b, path, ne', ne'', rfl⟩
        refine ⟨b, (reached b).mpr ⟨path, ?_⟩, ne', ne'', rfl⟩
        rintro rfl
        exact ne present
      · rintro ⟨b, path, ne', ne'', rfl⟩
        obtain ⟨path, ne⟩ := (reached b).mp path
        refine ⟨fun same => ne ?_, b, path, ne', ne'', rfl⟩
        exact lists.sorted.eq_of_key (.refl head) path here (same.trans present.symm)
  exact ⟨lists', fun path => ((reached _).mp path).2 rfl⟩

end Update

/-! ### Counting -/

/-- A walk from `a` that counts nodes up to the last one. -/
inductive Counts (next : α → α) (last : α) : α → Nat → Prop
  | last : Counts next last last 0
  | node {a : α} {k : Nat} : a ≠ last → Counts next last (next a) k → Counts next last a (k + 1)

theorem Lists.counts (lists : Lists next key head last S) : Counts next last (next head) S.card := by
  classical
  have from_ (a : α) (path : Path next last a last) : Path next last head a → a ≠ head →
      Counts next last a (S.filter (key a ≤ ·)).card := by
    induction path using ReflTransGen.head_induction_on with
    | refl =>
      intro _ _
      have none : S.filter (key last ≤ ·) = ∅ := by
        refine Finset.filter_eq_empty_iff.mpr fun v mem le => ?_
        obtain ⟨b, reached, -, inner, rfl⟩ := (lists.mem v).mp mem
        have lt := lists.sorted.key_lt b reached inner
        exact absurd (lt.trans_le (lists.sorted.key_le _ (lists.reached_next reached inner))) le.not_gt
      rw [none, Finset.card_empty]
      exact .last
    | @head a c edge _ ih =>
      obtain ⟨outer, rfl⟩ := edge
      intro reached inner
      have there := lists.reached_next reached outer
      have up := lists.sorted.key_lt a reached outer
      have headBelow : ∀ {b}, Path next last head b → key head ≤ key b :=
        fun path => lists.sorted.key_le_of_path (.refl head) path
      have behind : next a ≠ head := by
        intro eq
        rw [eq] at up
        exact absurd up (headBelow reached).not_gt
      have split : S.filter (key a ≤ ·) = insert (key a) (S.filter (key (next a) ≤ ·)) := by
        ext v
        rw [Finset.mem_insert, Finset.mem_filter, Finset.mem_filter]
        constructor
        · rintro ⟨mem, le⟩
          obtain ⟨b, path, -, -, rfl⟩ := (lists.mem v).mp mem
          rcases le.eq_or_lt with eq | lt
          · exact .inl eq.symm
          · have between := lists.sorted.not_between (.refl head) reached outer path
            exact .inr ⟨mem, not_lt.mp fun below => between ⟨lt, below⟩⟩
        · rintro (rfl | ⟨mem, le⟩)
          · exact ⟨(lists.mem _).mpr ⟨a, reached, inner, outer, rfl⟩, le_rfl⟩
          · exact ⟨mem, up.le.trans le⟩
      rw [split, Finset.card_insert_of_notMem fun mem => up.not_ge (Finset.mem_filter.mp mem).2]
      exact .node outer (ih there behind)
  have there := lists.reached_next (.refl head) lists.outer
  have up := lists.sorted.key_lt head (.refl head) lists.outer
  have all : S.filter (key (next head) ≤ ·) = S := by
    refine Finset.filter_true_of_mem fun v mem => ?_
    obtain ⟨b, path, inner, -, rfl⟩ := (lists.mem v).mp mem
    rcases path.cases with eq | ⟨-, rest⟩
    · exact absurd eq.symm inner
    · exact lists.sorted.key_le_of_path there rest
  have counted := from_ (next head) (lists.to_last there) there fun eq => by
    rw [eq] at up
    exact lt_irrefl _ up
  rwa [all] at counted

end ReadLogUpdate.Chain
