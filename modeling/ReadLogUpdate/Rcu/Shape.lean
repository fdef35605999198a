import ReadLogUpdate.Chain
import ReadLogUpdate.Rcu.Step

/-!
# The nodes of the hash list

What a step can do to the shared memory, and that it keeps every bucket sorted between its
sentinels. A section reads linked nodes and nodes that were unlinked since it began; such a node
leads to nodes of that kind again.
-/

namespace ReadLogUpdate.Rcu

open Chain
open Harris (listValMin listValMax)

def Shared.Linked (m : Shared) (b a : Nat) : Prop := m.home a = some b

/-- A section of `r` may stand on `a`. -/
def Shared.Safe (m : Shared) (r a : Nat) : Prop := m.home a ≠ none ∨ m.old a r = true

structure Shape (list : HashList) (m : Shared) : Prop where
  null : m.used 0 = false
  home : ∀ a b, m.Linked b a → m.used a = true ∧ b < list.nBuckets
  head : ∀ b, b < list.nBuckets → m.Linked b (list.pHead b) ∧ m.val (list.pHead b) = listValMin
  max : ∀ b, b < list.nBuckets → m.Linked b (list.pMax b) ∧ m.val (list.pMax b) = listValMax
  maxNext : ∀ b, b < list.nBuckets → m.pNext (list.pMax b) = 0
  sorted : ∀ b, b < list.nBuckets → Sorted m.pNext (m.Linked b) (list.pMax b) m.val
  reached : ∀ a b, m.Linked b a → Path m.pNext (list.pMax b) (list.pHead b) a
  old : ∀ a r, m.old a r = true → m.inside r = true ∧ m.used a = true ∧ m.Safe r (m.pNext a)

/-- What a step of thread `t`, which owns the nodes `owned`, does to the shared memory. -/
inductive Change (list : HashList) (m : Shared) (t : Nat) (owned : List Nat) : Shared → Prop
  | same : Change list m t owned m
  | readerLock (outside : m.inside t = false) : Change list m t owned (m.readerLock t)
  | readerUnlock : Change list m t owned (m.readerUnlock t)
  | lock (b : Nat) (isFree : m.urcuSpin b = none) : Change list m t owned (m.setSpin b (some t))
  | unlock (b : Nat) (held : m.urcuSpin b = some t) : Change list m t owned (m.setSpin b none)
  | malloc (a : Nat) (v : Int) (n : Nat) (ne : a ≠ 0) (unused : m.used a = false) :
      Change list m t owned (m.malloc a v n)
  | link (b prev new : Nat) (held : m.urcuSpin b = some t) (here : m.Linked b prev)
      (outer : prev ≠ list.pMax b) (mem : new ∈ owned) (links : m.pNext new = m.pNext prev)
      (above : m.val prev < m.val new) (below : m.val new < m.val (m.pNext prev)) :
      Change list m t owned (m.link b prev new)
  | unlink (b prev : Nat) (held : m.urcuSpin b = some t) (here : m.Linked b prev)
      (outer : prev ≠ list.pMax b) (inner : m.pNext prev ≠ list.pMax b) :
      Change list m t owned (m.unlink prev (m.pNext prev) (m.pNext (m.pNext prev)))
  | free (p : Nat) (mem : p ∈ owned) (quiet : ∀ r, m.old p r = false) :
      Change list m t owned (m.release p)

section Preserve
variable {list : HashList} {m m' : Shared} {t : Nat} {owned : List Nat} {a b r x : Nat}

theorem Shape.ne_zero (shape : Shape list m) (taken : m.used a = true) : a ≠ 0 := by
  rintro rfl
  rw [shape.null] at taken
  cases taken

theorem Shape.ne_of_unused (shape : Shape list m) (unused : m.used a = false)
    (here : m.Linked b x) : x ≠ a := by
  rintro rfl
  rw [(shape.home _ _ here).1] at unused
  cases unused

theorem Shape.next_linked (shape : Shape list m) (here : m.Linked b a) (outer : a ≠ list.pMax b) :
    m.Linked b (m.pNext a) :=
  (shape.sorted b (shape.home a b here).2).next_linked a here outer

theorem Shape.key_lt (shape : Shape list m) (here : m.Linked b a) (outer : a ≠ list.pMax b) :
    m.val a < m.val (m.pNext a) :=
  (shape.sorted b (shape.home a b here).2).key_lt a here outer

theorem Shape.ne_max (shape : Shape list m) (here : m.Linked b a) (below : m.val a < listValMax) :
    a ≠ list.pMax b := by
  rintro rfl
  rw [(shape.max b (shape.home _ b here).2).2] at below
  exact lt_irrefl _ below

theorem Shape.ne_head (shape : Shape list m) (here : m.Linked b a) (outer : a ≠ list.pMax b) {c : Nat}
    (bound : c < list.nBuckets) : m.pNext a ≠ list.pHead c := by
  intro back
  have there := shape.next_linked here outer
  have up := shape.key_lt here outer
  have low : listValMin ≤ m.val a := by
    have hb := (shape.home a b here).2
    rw [← (shape.head b hb).2]
    exact (shape.sorted b hb).key_le_of_path (shape.head b hb).1 (shape.reached a b here)
  rw [back, (shape.head c bound).2] at up
  exact absurd low up.not_ge

theorem Shared.link_home (m : Shared) (b a new x : Nat) :
    (m.link b a new).home x = if x = new then some b else m.home x := by
  show Function.update m.home new (some b) x = _
  by_cases eq : x = new
  · rw [if_pos eq, eq, Function.update_self]
  · rw [if_neg eq, Function.update_of_ne eq]

theorem Shared.unlink_home (m : Shared) (a next n x : Nat) :
    (m.unlink a next n).home x = if x = next then none else m.home x := by
  show Function.update m.home next none x = _
  by_cases eq : x = next
  · rw [if_pos eq, eq, Function.update_self]
  · rw [if_neg eq, Function.update_of_ne eq]

theorem Shared.unlink_old (m : Shared) (a next n x : Nat) :
    (m.unlink a next n).old x = if x = next then m.inside else m.old x := by
  show Function.update m.old next m.inside x = _
  by_cases eq : x = next
  · rw [if_pos eq, eq, Function.update_self]
  · rw [if_neg eq, Function.update_of_ne eq]

theorem Shared.link_linked (ne : x ≠ a) {c : Nat} : (m.link b r a).Linked c x ↔ m.Linked c x := by
  unfold Shared.Linked
  rw [Shared.link_home, if_neg ne]

theorem Shared.Safe.link {new prev : Nat} (safe : m.Safe r x) : (m.link b prev new).Safe r x := by
  unfold Shared.Safe
  rw [Shared.link_home]
  split_ifs
  · exact .inl nofun
  · exact safe

/-- A node that is unlinked stays safe for the sections that are open. -/
theorem Shared.Safe.unlink {prev next n : Nat} (safe : m.Safe r x) (inside : m.inside r = true) :
    (m.unlink prev next n).Safe r x := by
  unfold Shared.Safe
  rw [Shared.unlink_home, Shared.unlink_old]
  split_ifs
  · exact .inr inside
  · exact safe

theorem Change.shape (shape : Shape list m) (own : ∀ q ∈ owned, m.used q = true ∧ m.home q = none)
    (change : Change list m t owned m') : Shape list m' := by
  cases change with
  | same => exact shape
  | lock b isFree | unlock b held =>
    exact ⟨shape.null, shape.home, shape.head, shape.max, shape.maxNext, shape.sorted, shape.reached,
      shape.old⟩
  | readerLock outside =>
    refine ⟨shape.null, shape.home, shape.head, shape.max, shape.maxNext, shape.sorted, shape.reached,
      fun a r old => ?_⟩
    obtain ⟨inside, taken, safe⟩ := shape.old a r old
    refine ⟨?_, taken, safe⟩
    have ne : r ≠ t := by
      rintro rfl
      rw [outside] at inside
      cases inside
    show (Function.update m.time t _ r % 2 == 0) = true
    rw [Function.update_of_ne ne]
    exact inside
  | readerUnlock =>
    refine ⟨shape.null, shape.home, shape.head, shape.max, shape.maxNext, shape.sorted, shape.reached,
      fun a r old => ?_⟩
    have still : r ≠ t ∧ m.old a r = true := by
      by_cases eq : r = t
      · rw [show (m.readerUnlock t).old a r = false from if_pos eq] at old
        cases old
      · exact ⟨eq, (if_neg eq : (m.readerUnlock t).old a r = m.old a r) ▸ old⟩
    obtain ⟨inside, taken, safe⟩ := shape.old a r still.2
    refine ⟨?_, taken, safe.imp_right fun h => ?_⟩
    · show (Function.update m.time t _ r % 2 == 0) = true
      rw [Function.update_of_ne still.1]
      exact inside
    · exact (if_neg still.1).trans h
  | malloc a v n ne unused =>
    have next {x c : Nat} (here : m.Linked c x) : (m.malloc a v n).pNext x = m.pNext x :=
      Function.update_of_ne (shape.ne_of_unused unused here) _ _
    have val {x c : Nat} (here : m.Linked c x) : (m.malloc a v n).val x = m.val x :=
      Function.update_of_ne (shape.ne_of_unused unused here) _ _
    refine ⟨(Function.update_of_ne ne.symm _ _).trans shape.null, fun x b here => ?_,
      fun b bound => ?_, fun b bound => ?_, fun b bound => ?_, fun b bound => ?_, fun x b here => ?_,
      fun x r old => ?_⟩
    · refine ⟨?_, (shape.home x b here).2⟩
      exact (Function.update_of_ne (shape.ne_of_unused unused here) _ _).trans (shape.home x b here).1
    · exact ⟨(shape.head b bound).1, (val (shape.head b bound).1).trans (shape.head b bound).2⟩
    · exact ⟨(shape.max b bound).1, (val (shape.max b bound).1).trans (shape.max b bound).2⟩
    · exact (next (shape.max b bound).1).trans (shape.maxNext b bound)
    · have sorted := shape.sorted b bound
      refine ⟨fun x here outer => ?_, fun x here outer => ?_, fun x here => ?_⟩
      · rw [next here]
        exact sorted.next_linked x here outer
      · rw [next here, val here, val (sorted.next_linked x here outer)]
        exact sorted.key_lt x here outer
      · rw [val here, val (shape.max b bound).1]
        exact sorted.key_le x here
    · have bound := (shape.home x b here).2
      exact (shape.sorted b bound).path_congr (shape.head b bound).1 (shape.reached x b here)
        fun y there => next there
    · obtain ⟨inside, taken, safe⟩ := shape.old x r old
      have ne : x ≠ a := by
        rintro rfl
        rw [unused] at taken
        cases taken
      refine ⟨inside, (Function.update_of_ne ne _ _).trans taken, ?_⟩
      rw [show (m.malloc a v n).pNext x = m.pNext x from Function.update_of_ne ne _ _]
      exact safe
  | link b prev new held here outer mem links above below =>
    obtain ⟨taken, fresh⟩ := own new mem
    have bound := (shape.home prev b here).2
    have other {x c : Nat} (there : m.Linked c x) : x ≠ new := by
      rintro rfl
      cases fresh.symm.trans there
    have kept {x c : Nat} (there : m.Linked c x) : (m.link b prev new).Linked c x :=
      (Shared.link_linked (other there)).mpr there
    have linked {x c : Nat} : (m.link b prev new).Linked c x ↔ x = new ∧ c = b ∨ m.Linked c x := by
      by_cases eq : x = new
      · subst eq
        have new : (m.link b prev x).home x = some b := Function.update_self _ _ _
        unfold Shared.Linked
        rw [new, fresh]
        simp [eq_comm]
      · rw [Shared.link_linked eq]
        simp [eq]
    have inner : new ≠ list.pMax b := (other (shape.max b bound).1).symm
    have elsewhere {c x : Nat} (apart : c ≠ b) (there : m.Linked c x) : x ≠ prev := by
      rintro rfl
      exact apart (Option.some.inj (there.symm.trans here))
    refine ⟨shape.null, fun x c there => ?_, fun c hc => ⟨kept (shape.head c hc).1, (shape.head c hc).2⟩,
      fun c hc => ⟨kept (shape.max c hc).1, (shape.max c hc).2⟩, fun c hc => ?_, fun c hc => ?_,
      fun x c there => ?_, fun x r old => ?_⟩
    · rcases linked.mp there with ⟨rfl, rfl⟩ | there
      · exact ⟨taken, bound⟩
      · exact shape.home x c there
    · have ne : list.pMax c ≠ prev := by
        rintro rfl
        have same : c = b := Option.some.inj ((shape.max c hc).1.symm.trans here)
        exact outer (by rw [same])
      exact (Function.update_of_ne ne _ _).trans (shape.maxNext c hc)
    · by_cases eq : c = b
      · subst eq
        have isLinked : (m.link c prev new).Linked c = fun x => x = new ∨ m.Linked c x := by
          funext x
          exact propext (linked.trans (by simp))
        rw [isLinked]
        exact (shape.sorted c hc).insert here outer links above below
      · have isLinked : (m.link b prev new).Linked c = m.Linked c := by
          funext x
          exact propext (linked.trans (by simp [eq]))
        have sorted := shape.sorted c hc
        rw [isLinked]
        refine ⟨fun x there outer => ?_, fun x there outer => ?_, sorted.key_le⟩
        · rw [show (m.link b prev new).pNext x = m.pNext x from
            Function.update_of_ne (elsewhere eq there) _ _]
          exact sorted.next_linked x there outer
        · rw [show (m.link b prev new).pNext x = m.pNext x from
            Function.update_of_ne (elsewhere eq there) _ _]
          exact sorted.key_lt x there outer
    · have ne : new ≠ prev := (other here).symm
      rcases linked.mp there with ⟨rfl, rfl⟩ | there'
      · exact ((shape.reached prev c here).insert ne inner links).trans (Path.inserted outer)
      · by_cases eq : c = b
        · subst eq
          exact (shape.reached x c there').insert ne inner links
        · have hc := (shape.home x c there').2
          exact (shape.sorted c hc).path_congr (shape.head c hc).1 (shape.reached x c there')
            fun y other => Function.update_of_ne (elsewhere eq other) _ _
    · obtain ⟨inside, taken, safe⟩ := shape.old x r old
      refine ⟨inside, taken, ?_⟩
      by_cases eq : x = prev
      · rw [show (m.link b prev new).pNext x = new from eq ▸ Function.update_self _ _ _]
        exact .inl (by rw [Shared.link_home, if_pos rfl]; nofun)
      · rw [show (m.link b prev new).pNext x = m.pNext x from Function.update_of_ne eq _ _]
        exact safe.link
  | unlink b prev held here outer inner =>
    have bound := (shape.home prev b here).2
    have sorted := shape.sorted b bound
    have start := (shape.head b bound).1
    have there := shape.next_linked here outer
    have after := shape.next_linked there inner
    have up := shape.key_lt there inner
    have ne : m.pNext prev ≠ prev := fun same => by
      have := shape.key_lt here outer
      rw [same] at this
      exact lt_irrefl _ this
    have linked {x c : Nat} : (m.unlink prev (m.pNext prev) (m.pNext (m.pNext prev))).Linked c x ↔
        m.Linked c x ∧ x ≠ m.pNext prev := by
      unfold Shared.Linked
      rw [Shared.unlink_home]
      by_cases eq : x = m.pNext prev
      · simp [eq]
      · simp [eq]
    have elsewhere {c x : Nat} (apart : c ≠ b) (other : m.Linked c x) : x ≠ prev := by
      rintro rfl
      exact apart (Option.some.inj (other.symm.trans here))
    have removed {c : Nat} (apart : c ≠ b) {x : Nat} (other : m.Linked c x) : x ≠ m.pNext prev := by
      rintro rfl
      exact apart (Option.some.inj (other.symm.trans there))
    have notMax {c : Nat} (hc : c < list.nBuckets) : list.pMax c ≠ m.pNext prev := by
      by_cases eq : c = b
      · rw [eq]
        exact inner.symm
      · exact removed eq (shape.max c hc).1
    refine ⟨shape.null, fun x c h => shape.home x c (linked.mp h).1, fun c hc => ?_, fun c hc => ?_,
      fun c hc => ?_, fun c hc => ?_, fun x c h => ?_, fun x r old => ?_⟩
    · exact ⟨linked.mpr ⟨(shape.head c hc).1, (shape.ne_head here outer hc).symm⟩, (shape.head c hc).2⟩
    · exact ⟨linked.mpr ⟨(shape.max c hc).1, notMax hc⟩, (shape.max c hc).2⟩
    · have ne : list.pMax c ≠ prev := by
        rintro rfl
        have same : c = b := Option.some.inj ((shape.max c hc).1.symm.trans here)
        exact outer (by rw [same])
      exact (Function.update_of_ne ne _ _).trans (shape.maxNext c hc)
    · by_cases eq : c = b
      · subst eq
        have isLinked : (m.unlink prev (m.pNext prev) (m.pNext (m.pNext prev))).Linked c =
            fun x => m.Linked c x ∧ x ≠ m.pNext prev := by
          funext x
          exact propext linked
        rw [isLinked]
        exact sorted.erase start (fun x h => shape.reached x c h) here outer inner
      · have isLinked : (m.unlink prev (m.pNext prev) (m.pNext (m.pNext prev))).Linked c =
            m.Linked c := by
          funext x
          exact propext (linked.trans (and_iff_left_of_imp (removed eq)))
        have sorted := shape.sorted c hc
        rw [isLinked]
        refine ⟨fun x h outer => ?_, fun x h outer => ?_, sorted.key_le⟩
        · rw [show (m.unlink prev _ _).pNext x = m.pNext x from
            Function.update_of_ne (elsewhere eq h) _ _]
          exact sorted.next_linked x h outer
        · rw [show (m.unlink prev _ _).pNext x = m.pNext x from
            Function.update_of_ne (elsewhere eq h) _ _]
          exact sorted.key_lt x h outer
    · obtain ⟨h, live⟩ := linked.mp h
      by_cases eq : c = b
      · subst eq
        have run : Run m.pNext (· = m.pNext prev) (m.pNext prev) (m.pNext (m.pNext prev)) :=
          .cons rfl (.nil _)
        exact (shape.reached x c h).unlink live ne.symm run
      · have hc := (shape.home x c h).2
        exact (shape.sorted c hc).path_congr (shape.head c hc).1 (shape.reached x c h)
          fun y there => Function.update_of_ne (elsewhere eq there) _ _
    · have safeAfter : (m.unlink prev (m.pNext prev) (m.pNext (m.pNext prev))).Safe r
          (m.pNext (m.pNext prev)) := by
        refine .inl ?_
        rw [linked.mpr ⟨after, fun same => by rw [same] at up; exact lt_irrefl _ up⟩]
        nofun
      have pNext (x : Nat) : (m.unlink prev (m.pNext prev) (m.pNext (m.pNext prev))).pNext x =
          if x = prev then m.pNext (m.pNext prev) else m.pNext x := by
        show Function.update m.pNext prev _ x = _
        by_cases eq : x = prev
        · rw [if_pos eq, eq, Function.update_self]
        · rw [if_neg eq, Function.update_of_ne eq]
      have open_ : m.inside r = true ∧ m.used x = true ∧ (x ≠ m.pNext prev → m.Safe r (m.pNext x)) := by
        rw [Shared.unlink_old] at old
        split_ifs at old with eq
        · exact ⟨old, eq ▸ (shape.home _ b there).1, fun other => absurd eq other⟩
        · obtain ⟨inside, taken, safe⟩ := shape.old x r old
          exact ⟨inside, taken, fun _ => safe⟩
      obtain ⟨inside, taken, safe⟩ := open_
      refine ⟨inside, taken, ?_⟩
      rw [pNext]
      split_ifs with eq
      · exact safeAfter
      · by_cases gone : x = m.pNext prev
        · rw [gone]
          exact safeAfter
        · exact (safe gone).unlink inside
  | free p mem quiet =>
    have other {x c : Nat} (there : m.Linked c x) : x ≠ p := by
      rintro rfl
      cases (own x mem).2.symm.trans there
    refine ⟨?_, fun x b here => ?_, shape.head, shape.max, shape.maxNext, shape.sorted, shape.reached,
      fun x r old => ?_⟩
    · exact (Function.update_of_ne (shape.ne_zero (own p mem).1).symm _ _).trans shape.null
    · obtain ⟨taken, bound⟩ := shape.home x b here
      exact ⟨(Function.update_of_ne (other here) _ _).trans taken, bound⟩
    · obtain ⟨inside, taken, safe⟩ := shape.old x r old
      have ne : x ≠ p := by
        rintro rfl
        cases (quiet r).symm.trans old
      exact ⟨inside, (Function.update_of_ne ne _ _).trans taken, safe⟩

end Preserve

end ReadLogUpdate.Rcu
