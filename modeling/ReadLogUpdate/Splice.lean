import ReadLogUpdate.Listing

/-!
# Changes of a sorted chain that are made at once

An update of a sorted chain redirects one link: it puts a new node between two neighbours, or takes
the second of two neighbours off. Updates whose neighbours are apart do not disturb each other: they
can be made in any order, and each of them stays an update of the chain with the others made.
-/

namespace ReadLogUpdate.Chain

open Relation

/-- The link of `before`, which is `after`, is redirected to `new`. -/
structure Splice (α : Type*) where
  before : α
  after : α
  new : α

variable {α κ : Type*} [LinearOrder κ] {next : α → α} {key : α → κ} {head last : α} {S : Finset κ}
  {w w' : Splice α} {ws : List (Splice α)} {a : α}

/-- A node with a key between those of its neighbours, that is not on the chain. -/
structure Splice.Adds (next : α → α) (key : α → κ) (head last : α) (w : Splice α) : Prop where
  fresh : ¬ Path next last head w.new
  link : next w.new = w.after
  above : key w.before < key w.new
  below : key w.new < key w.after

/-- The link skips the node behind. -/
structure Splice.Removes (next : α → α) (last : α) (w : Splice α) : Prop where
  inner : w.after ≠ last
  skip : w.new = next w.after

/-- An update of the chain as it is. -/
structure Splice.Fits (next : α → α) (key : α → κ) (head last : α) (w : Splice α) : Prop where
  reached : Path next last head w.before
  outer : w.before ≠ last
  linked : next w.before = w.after
  change : w.Adds next key head last ∨ w.Removes next last

/-- The neighbours of one update are none of the other's. -/
structure Splice.Apart (w w' : Splice α) : Prop where
  before : w.before ≠ w'.before
  crossed : w.before ≠ w'.after
  crossed' : w.after ≠ w'.before
  after : w.after ≠ w'.after

theorem Splice.Apart.symm (apart : w.Apart w') : w'.Apart w :=
  ⟨apart.before.symm, apart.crossed'.symm, apart.crossed.symm, apart.after.symm⟩

theorem Splice.Fits.after_reached (fits : w.Fits next key head last) : Path next last head w.after :=
  fits.reached.tail ⟨fits.outer, fits.linked⟩

theorem Splice.Adds.not_removes (adds : w.Adds next key head last)
    (reached : Path next last head w.after) : ¬ w.Removes next last := by
  intro removes
  have there : Path next last head (next w.after) := reached.tail ⟨removes.inner, rfl⟩
  rw [← removes.skip] at there
  exact adds.fresh there

theorem Splice.Fits.new_cases (fits : w.Fits next key head last) :
    w.Adds next key head last ∨ w.Removes next last ∧ Path next last head w.new := by
  rcases fits.change with adds | removes
  · exact .inl adds
  · refine .inr ⟨removes, ?_⟩
    rw [removes.skip]
    exact fits.after_reached.tail ⟨removes.inner, rfl⟩

section Update
variable [DecidableEq α]

theorem Splice.Fits.lists (fits : w.Fits next key head last) (lists : Lists next key head last S) :
    ∃ S', Lists (Function.update next w.before w.new) key head last S' ∧
      (w.Adds next key head last → key w.new ∉ S ∧ S' = insert (key w.new) S) ∧
      (w.Removes next last → key w.after ∈ S ∧ S' = S.erase (key w.after) ∧
        ¬ Path (Function.update next w.before w.new) last head w.after) := by
  have up := lists.sorted.key_lt w.before fits.reached fits.outer
  rw [fits.linked] at up
  rcases fits.change with adds | removes
  · have place : Place next key head last (key w.new) w.before :=
      ⟨fits.reached, fits.outer, adds.above, by rw [fits.linked]; exact adds.below.le⟩
    have absent : key (next w.before) ≠ key w.new := by
      rw [fits.linked]
      exact adds.below.ne'
    refine ⟨_, place.insert lists adds.fresh (adds.link.trans fits.linked.symm) rfl absent,
      fun _ => ⟨fun mem => ?_, rfl⟩,
      fun removes => absurd removes (adds.not_removes fits.after_reached)⟩
    obtain ⟨b, reached, -, -, same⟩ := (lists.mem _).mp mem
    refine lists.sorted.not_between (.refl head) fits.reached fits.outer reached ⟨?_, ?_⟩
    · rw [same]
      exact adds.above
    · rw [same, fits.linked]
      exact adds.below
  · have place : Place next key head last (key w.after) w.before :=
      ⟨fits.reached, fits.outer, up, by rw [fits.linked]⟩
    have below := lists.sorted.key_lt w.after fits.after_reached removes.inner
    have limit : key w.after < key last :=
      below.trans_le (lists.sorted.key_le _ (lists.reached_next fits.after_reached removes.inner))
    have erased := place.erase lists (by rw [fits.linked]) limit
    rw [fits.linked, ← removes.skip] at erased
    refine ⟨_, erased.1, fun adds => absurd removes (adds.not_removes fits.after_reached),
      fun _ => ⟨?_, rfl, erased.2⟩⟩
    rw [lists.mem]
    refine ⟨w.after, fits.after_reached, ?_, removes.inner, rfl⟩
    intro eq
    have le := lists.sorted.key_le_of_path (.refl head) fits.reached
    rw [← eq] at le
    exact absurd up le.not_gt

/-- An update puts nothing but its new node on the chain. -/
theorem Splice.Fits.reached_back (fits : w.Fits next key head last)
    (path : Path (Function.update next w.before w.new) last head a) :
    Path next last head a ∨ a = w.new ∧ w.Adds next key head last := by
  induction path with
  | refl => exact .inl (.refl _)
  | @tail b c _ edge ih =>
    obtain ⟨outer, rfl⟩ := edge
    by_cases at_ : b = w.before
    · rw [at_, Function.update_self]
      rcases fits.new_cases with adds | ⟨-, reached⟩
      · exact .inr ⟨rfl, adds⟩
      · exact .inl reached
    · rw [Function.update_of_ne at_]
      rcases ih with reached | ⟨rfl, adds⟩
      · exact .inl (reached.tail ⟨outer, rfl⟩)
      · rw [adds.link]
        exact .inl fits.after_reached

/-- An update takes nothing off the chain but the node it skips. -/
theorem Splice.Fits.keeps (fits : w.Fits next key head last) (lists : Lists next key head last S)
    (path : Path next last head a) (ne : w.Removes next last → a ≠ w.after) :
    Path (Function.update next w.before w.new) last head a := by
  rcases fits.change with adds | removes
  · refine path.insert ?_ ?_ (adds.link.trans fits.linked.symm)
    · intro eq
      exact adds.fresh (eq ▸ fits.reached)
    · intro eq
      exact adds.fresh (eq ▸ lists.ends)
  · have alive : w.before ≠ w.after := by
      intro eq
      have up := lists.sorted.key_lt w.before fits.reached fits.outer
      rw [fits.linked, ← eq] at up
      exact lt_irrefl _ up
    have run : Run next (· = w.after) (next w.before) w.new := by
      rw [fits.linked]
      refine .cons rfl ?_
      rw [removes.skip]
      exact .nil _
    exact path.unlink (ne removes) alive run

theorem Splice.Fits.update (fits : w.Fits next key head last) (lists : Lists next key head last S)
    (fits' : w'.Fits next key head last) (apart : w.Apart w') (other : w.new ≠ w'.new) :
    w'.Fits (Function.update next w.before w.new) key head last := by
  refine ⟨fits.keeps lists fits'.reached fun _ => apart.crossed'.symm, fits'.outer, ?_, ?_⟩
  · rw [Function.update_of_ne apart.before.symm]
    exact fits'.linked
  · rcases fits'.change with adds | removes
    · refine .inl ⟨fun path => ?_, ?_, adds.above, adds.below⟩
      · rcases fits.reached_back path with reached | ⟨same, -⟩
        · exact adds.fresh reached
        · exact other same.symm
      · rw [Function.update_of_ne fun eq => adds.fresh (by rw [eq]; exact fits.reached)]
        exact adds.link
    · refine .inr ⟨removes.inner, ?_⟩
      rw [Function.update_of_ne apart.crossed.symm]
      exact removes.skip

omit [DecidableEq α] in
/-- Nodes of a sorted chain with the same node behind are the same. -/
theorem Lists.next_inj (lists : Lists next key head last S) {b : α} (ha : Path next last head a)
    (hb : Path next last head b) (outer : a ≠ last) (outer' : b ≠ last) (same : next a = next b) :
    a = b := by
  have above {c d : α} (hc : Path next last head c) (hd : Path next last head d) (outer : c ≠ last)
      (outer' : d ≠ last) (same : next c = next d) (path : Path next last c d) : c = d := by
    rcases path.cases with eq | ⟨-, path⟩
    · exact eq
    · have le := lists.sorted.key_le_of_path (lists.reached_next hc outer) path
      have lt := lists.sorted.key_lt d hd outer'
      rw [same] at le
      exact absurd lt le.not_gt
  rcases ha.total hb with path | path
  · exact above ha hb outer outer' same path
  · exact (above hb ha outer' outer same.symm path).symm

/-! ### Several updates -/

/-- All links redirected. -/
def spliced (next : α → α) : List (Splice α) → α → α
  | [] => next
  | w :: ws => Function.update (spliced next ws) w.before w.new

/-- Updates of the chain that are apart from each other. -/
structure AllFit (next : α → α) (key : α → κ) (head last : α) (ws : List (Splice α)) : Prop where
  fits : ∀ w ∈ ws, w.Fits next key head last
  apart : ws.Pairwise fun w w' => w.Apart w' ∧ w.new ≠ w'.new

theorem spliced_of_ne (ne : ∀ w ∈ ws, w.before ≠ a) : spliced next ws a = next a := by
  induction ws with
  | nil => rfl
  | cons w ws ih =>
    rw [spliced, Function.update_of_ne (ne w List.mem_cons_self).symm]
    exact ih fun w' mem => ne w' (List.mem_cons_of_mem _ mem)

theorem spliced_of_mem (apart : ws.Pairwise fun w w' => w.Apart w' ∧ w.new ≠ w'.new)
    (mem : w ∈ ws) : spliced next ws w.before = w.new := by
  induction ws with
  | nil => cases mem
  | cons w' ws ih =>
    obtain ⟨first, rest⟩ := List.pairwise_cons.mp apart
    rcases List.mem_cons.mp mem with rfl | mem
    · exact Function.update_self _ _ _
    · rw [spliced, Function.update_of_ne (first w mem).1.before.symm]
      exact ih rest mem

omit [DecidableEq α] in
theorem AllFit.tail (all : AllFit next key head last (w :: ws)) : AllFit next key head last ws :=
  ⟨fun w' mem => all.fits w' (List.mem_cons_of_mem _ mem), (List.pairwise_cons.mp all.apart).2⟩

/-- All updates together make a sorted chain, and an update apart from them fits it. -/
theorem AllFit.lists (all : AllFit next key head last ws) (lists : Lists next key head last S) :
    (∃ S', Lists (spliced next ws) key head last S') ∧
    ∀ w, w.Fits next key head last → (∀ w' ∈ ws, w'.Apart w ∧ w'.new ≠ w.new) →
      w.Fits (spliced next ws) key head last := by
  induction ws with
  | nil => exact ⟨⟨S, lists⟩, fun w fits _ => fits⟩
  | cons w ws ih =>
    obtain ⟨⟨S', lists'⟩, keeps⟩ := ih all.tail
    have first := (List.pairwise_cons.mp all.apart).1
    have fits := keeps w (all.fits w List.mem_cons_self) fun w' mem =>
      ⟨(first w' mem).1.symm, (first w' mem).2.symm⟩
    obtain ⟨S'', lists'', -⟩ := fits.lists lists'
    refine ⟨⟨S'', lists''⟩, fun w' fits' apart => ?_⟩
    obtain ⟨apart', other⟩ := apart w List.mem_cons_self
    exact fits.update lists'
      (keeps w' fits' fun w'' mem => apart w'' (List.mem_cons_of_mem _ mem)) apart' other

theorem AllFit.fits_tail (all : AllFit next key head last (w :: ws))
    (lists : Lists next key head last S) : w.Fits (spliced next ws) key head last :=
  (all.tail.lists lists).2 w (all.fits w List.mem_cons_self) fun w' mem =>
    ⟨((List.pairwise_cons.mp all.apart).1 w' mem).1.symm,
      ((List.pairwise_cons.mp all.apart).1 w' mem).2.symm⟩

theorem AllFit.keeps (all : AllFit next key head last ws) (lists : Lists next key head last S)
    (path : Path next last head a) (ne : ∀ w ∈ ws, w.after ≠ a) :
    Path (spliced next ws) last head a := by
  induction ws with
  | nil => exact path
  | cons w ws ih =>
    obtain ⟨⟨S', lists'⟩, -⟩ := all.tail.lists lists
    exact (all.fits_tail lists).keeps lists'
      (ih all.tail fun w' mem => ne w' (List.mem_cons_of_mem _ mem))
      fun _ => (ne w List.mem_cons_self).symm

theorem AllFit.reached_back (all : AllFit next key head last ws)
    (lists : Lists next key head last S) (path : Path (spliced next ws) last head a) :
    Path next last head a ∨ ∃ w ∈ ws, w.Adds next key head last ∧ a = w.new := by
  induction ws with
  | nil => exact .inl path
  | cons w ws ih =>
    have fits := all.fits_tail lists
    rcases fits.reached_back path with path | ⟨rfl, adds⟩
    · rcases ih all.tail path with reached | ⟨w', mem, adds', eq⟩
      · exact .inl reached
      · exact .inr ⟨w', List.mem_cons_of_mem _ mem, adds', eq⟩
    · rcases (all.fits w List.mem_cons_self).new_cases with here | ⟨-, reached⟩
      · exact .inr ⟨w, List.mem_cons_self, here, rfl⟩
      · exact .inl reached

/-- Neighbours on the chain with all updates made, apart from all of them, are neighbours on the
chain without. -/
theorem AllFit.neighbours (all : AllFit next key head last ws) (lists : Lists next key head last S)
    (path : Path (spliced next ws) last head a) (outer : ∀ w ∈ ws, w.before ≠ a)
    (ne : ∀ w ∈ ws, w.after ≠ spliced next ws a) :
    Path next last head a ∧ spliced next ws a = next a := by
  refine ⟨?_, spliced_of_ne outer⟩
  rw [spliced_of_ne outer] at ne
  rcases all.reached_back lists path with reached | ⟨w, mem, adds, rfl⟩
  · exact reached
  · exact absurd adds.link.symm (ne w mem)

/-- An update of the chain with all updates made, apart from them, is one of the chain without, if
its node is new there too. -/
theorem AllFit.fits_back (all : AllFit next key head last ws) (lists : Lists next key head last S)
    (fits : w.Fits (spliced next ws) key head last) (apart : ∀ w' ∈ ws, w'.Apart w)
    (fresh : w.Adds (spliced next ws) key head last → ¬ Path next last head w.new) :
    w.Fits next key head last := by
  obtain ⟨reached, same⟩ := all.neighbours lists fits.reached (fun w' mem => (apart w' mem).before)
    fun w' mem => by
      rw [fits.linked]
      exact (apart w' mem).after
  refine ⟨reached, fits.outer, same.symm.trans fits.linked, ?_⟩
  rcases fits.change with adds | removes
  · refine .inl ⟨fresh adds, ?_, adds.above, adds.below⟩
    have link := adds.link
    rw [spliced_of_ne] at link
    · exact link
    · intro w' mem eq
      exact fresh adds (eq ▸ (all.fits w' mem).reached)
  · refine .inr ⟨removes.inner, ?_⟩
    have skip := removes.skip
    rw [spliced_of_ne fun w' mem => (apart w' mem).crossed] at skip
    exact skip

end Update

end ReadLogUpdate.Chain
