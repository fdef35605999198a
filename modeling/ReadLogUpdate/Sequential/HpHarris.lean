import ReadLogUpdate.Hp.Coverage
import ReadLogUpdate.Sequential.LockFree

/-!
# `hp_harris_list_*` with one thread

The search stores into its records and restores their count; none of this decides where it goes.
-/

namespace ReadLogUpdate.Sequential

open Relation
open Chain
open Harris (Heap Ref Locals ref null isMarkedRef getMarkedRef)
open Hp (HpThread SearchPc Roles hpInit hpReset hpRestore allocRoles allocRoles_eq searchStep startCall
  startCall_saved afterSearch)

section HpHarris
variable {list : ListT} {s : Hp.State} {h : Heap} {hp : HpThread} {used : Nat → Bool} {S : Finset Int}
  {v : Int} {a b c p : Nat} {op : Op} {pc : Hp.Pc}

def HpDone (s : Hp.State) (op : Op) (v : Int) (r : Bool) : Prop := (s.thread 0).pc = .done op v r

def HpCall (list : ListT) (op : Op) (v : Int) (a : Nat) (s : Hp.State) (r : Bool) (s' : Hp.State) : Prop :=
  ThreadCall (Hp.step list) HpDone op v a s r s'

theorem hp_malloc_of_lib {e : Hp.Effect Hp.Pc}
    (lib : Hp.libStep list s.heap (s.thread 0).hp (s.thread 0).pc = some e) (a : Nat) :
    Hp.step list s (.malloc 0 a) = none := by
  simp only [Hp.step]
  split
  · rename_i eq
    rw [eq] at lib
    cases lib
  · rfl

theorem hp_deterministic : Deterministic (Hp.step list) HpDone where
  one := by
    intro s a
    cases eq : Hp.libStep list s.heap (s.thread 0).hp (s.thread 0).pc with
    | none =>
      left
      simp only [Hp.step, eq, Option.map_none]
    | some e => exact .inr (hp_malloc_of_lib eq a)
  stops := by
    intro s op v r a ended
    unfold HpDone at ended
    simp only [Hp.step, ended]
    exact ⟨rfl, trivial⟩
  result := by
    intro s op v r r' ended ended'
    have eq := ended.symm.trans ended'
    injection eq

/-- The calling thread gets to `pc` with a heap, the allocated nodes and its records. -/
def HpGets (list : ListT) (a : Nat) (s : Hp.State) (h : Heap) (used : Nat → Bool) (hp : HpThread)
    (pc : Hp.Pc) : Prop :=
  ∃ s', ReflTransGen (Moves (Hp.step list) a) s s' ∧ s'.heap = h ∧ s'.used = used ∧
    (s'.thread 0).hp = hp ∧ (s'.thread 0).pc = pc

theorem hp_after_self (s : Hp.State) (t : Nat) (e : Hp.Effect Hp.Pc) : s.after t e t = (s.thread t).next e :=
  if_pos rfl

theorem HpGets.lib {e : Hp.Effect Hp.Pc} (gets : HpGets list a s h used hp pc)
    (eq : Hp.libStep list h hp pc = some e) : HpGets list a s e.heap used e.hp e.pc := by
  obtain ⟨s', path, rfl, rfl, rfl, rfl⟩ := gets
  exact ⟨_, path.tail (.inl (congrArg (Option.map _) eq)), rfl, rfl,
    congrArg Hp.Thread.hp (hp_after_self s' 0 e), congrArg Hp.Thread.pc (hp_after_self s' 0 e)⟩

theorem HpGets.malloc {left right : Nat} (gets : HpGets list a s h used hp (.malloc v left right))
    (fresh : Fresh used a) : HpGets list a s
      ⟨Function.update h.val a v, Function.update h.pNext a (ref right)⟩ (Function.update used a true)
      hp (.insert v left right a) := by
  obtain ⟨s', path, rfl, rfl, rfl, eq⟩ := gets
  have stepped : Hp.step list s' (.malloc 0 a) = some {
      heap := ⟨Function.update s'.heap.val a v, Function.update s'.heap.pNext a (ref right)⟩
      used := Function.update s'.used a true
      thread := s'.after 0 ⟨⟨Function.update s'.heap.val a v,
        Function.update s'.heap.pNext a (ref right)⟩, (s'.thread 0).hp, [], .insert v left right a⟩ } := by
    simp only [Hp.step, eq]
    exact if_pos fresh
  have thread := hp_after_self s' 0 ⟨⟨Function.update s'.heap.val a v,
    Function.update s'.heap.pNext a (ref right)⟩, (s'.thread 0).hp, [], .insert v left right a⟩
  exact ⟨_, path.tail (.inr stepped), rfl, rfl, (congrArg Hp.Thread.hp thread :), congrArg Hp.Thread.pc thread⟩

theorem HpGets.search {q : SearchPc} (gets : HpGets list a s h used hp (.search op v p q))
    (q' : SearchPc) (hp' : HpThread) (read : List Nat)
    (eq : searchStep list v h hp q = some ⟨h, hp', read, .inl q'⟩) :
    HpGets list a s h used hp' (.search op v p q') := by
  refine gets.lib (e := ⟨h, hp', read, .search op v p q'⟩) ?_
  simp only [Hp.libStep, eq, Option.map_some]

theorem HpGets.found {q : SearchPc} {l : Locals}
    (gets : HpGets list a s h used hp (.search op v p q)) (read : List Nat)
    (eq : searchStep list v h hp q = some ⟨h, hp, read, .inr l⟩) :
    HpGets list a s h used (afterSearch h hp v l p op).1 (afterSearch h hp v l p op).2 := by
  refine gets.lib (e := ⟨h, (afterSearch h hp v l p op).1, read, (afterSearch h hp v l p op).2⟩) ?_
  simp only [Hp.libStep, eq, Option.map_some]

theorem HpGets.init {l : Locals} {r : Roles} {first : Bool}
    (gets : HpGets list a s h used hp (.search op v p (.init l r first .fetch))) :
    HpGets list a s h used (hp.set r.tNext (h.pNext l.t)) (.search op v p (.load l r first)) := by
  have stored := (gets.search (.init l r first (.store (h.pNext l.t))) _ _ rfl).search
    (.init l r first .validate) (hp.set r.tNext (h.pNext l.t)) _ rfl
  refine stored.search _ _ [l.t] ?_
  simp only [searchStep, hpInit, HpThread.set_self, if_true]

theorem HpGets.follow {l : Locals} {r : Roles} {w : Ref} (unmarked : isMarkedRef w = false)
    (gets : HpGets list a s h used hp (.search op v p (.follow l r w))) :
    ∃ hp', HpGets list a s h used hp'
      (.search op v p (.check { l with myLeftNode := l.t, leftNodeNext := w.addr, t := w.addr } r)) := by
  have kept := gets.search (.keepLeft l r w) hp [] (by
    simp only [searchStep, unmarked, Bool.false_eq_true, if_false])
  exact ⟨_, (kept.search (.keepNext { l with myLeftNode := l.t } r w) _ _ rfl).search _ _ _ rfl⟩

theorem HpGets.scan {m : Nat} {r : Roles} (clean : Clean list h used S) (hi : v < listValMax)
    (scan : Scan h.next h.val v c b) (reached : Path h.next list.pMax list.pHead c)
    (outer : c ≠ list.pMax)
    (gets : HpGets list a s h used hp (.search op v p (.check ⟨m, c, h.next c, h.next c⟩ r))) :
    ∃ hp' r', HpGets list a s h used hp'
      (.search op v p (.testNull ⟨m, b, h.next b, h.next b⟩ r')) := by
  have stop {hp : HpThread} {r : Roles} {c : Nat}
      (gets : HpGets list a s h used hp (.search op v p (.keepRight ⟨m, c, h.next c, h.next c⟩ r))) :
      HpGets list a s h used (hp.set r.rightNode (ref (h.next c)))
        (.search op v p (.testNull ⟨m, c, h.next c, h.next c⟩ r)) := by
    refine gets.search _ _ [] ?_
    simp only [searchStep, if_true]
  induction scan generalizing hp r with
  | @here c notBelow =>
    have there := clean.holds.lists.reached_next reached outer
    by_cases last : h.pNext (h.next c) = null
    · have stopped := gets.search (.keepRight ⟨m, c, h.next c, h.next c⟩ r) hp [h.next c]
        (by simp only [searchStep, if_pos last])
      exact ⟨_, _, stop stopped⟩
    · have loaded := (gets.search (.init ⟨m, c, h.next c, h.next c⟩ r.swap false .fetch) hp
        [h.next c] (by simp only [searchStep, if_neg last])).init
      have tested := loaded.search
        (.test ⟨m, c, h.next c, h.next c⟩ r.swap (h.pNext (h.next c))) _ _ rfl
      have unmarked := clean.unmarked _ there
      have stopped := tested.search (.keepRight ⟨m, c, h.next c, h.next c⟩ r.swap)
        (hp.set r.swap.tNext (h.pNext (h.next c))) [] (by
          simp only [searchStep, unmarked, notBelow, or_self, Bool.false_eq_true, if_false])
      exact ⟨_, _, stop stopped⟩
  | @on c b below _ ih =>
    have there := clean.holds.lists.reached_next reached outer
    have inner : h.next c ≠ list.pMax := by
      intro eq
      rw [eq, clean.holds.maxVal] at below
      exact absurd hi below.not_gt
    have loaded := (gets.search (.init ⟨m, c, h.next c, h.next c⟩ r.swap false .fetch) hp [h.next c] (by
      simp only [searchStep, if_neg (clean.ne_null there inner)])).init
    have tested := loaded.search
      (.test ⟨m, c, h.next c, h.next c⟩ r.swap (h.pNext (h.next c))) _ _ rfl
    have followed := tested.search (.follow ⟨m, c, h.next c, h.next c⟩ r.swap (h.pNext (h.next c)))
      (hp.set r.swap.tNext (h.pNext (h.next c))) [] (by
        simp only [searchStep, below, or_true, if_true])
    obtain ⟨hp', on⟩ := followed.follow (clean.unmarked _ there)
    exact ih there inner on

theorem HpGets.returns {l : Locals} (clean : Clean list h used S) (lo : listValMin < v)
    (hi : v < listValMax) (small : hp.savedNHpRecords ≤ 2)
    (gets : HpGets list a s h used hp (.search op v p (.again l))) :
    ∃ b m hp', Place h.next h.val list.pHead list.pMax v b ∧
      HpGets list a s h used (afterSearch h hp' v ⟨b, m, h.next b, h.next b⟩ p op).1
        (afterSearch h hp' v ⟨b, m, h.next b, h.next b⟩ p op).2 := by
  obtain ⟨b, scan, place⟩ := clean.holds.scan lo hi
  obtain ⟨r, hp₁, alloc⟩ : ∃ r hp₁, allocRoles (hpRestore hp) = some (r, hp₁) :=
    ⟨_, _, allocRoles_eq small⟩
  have entered := (gets.search (.enter l r) hp₁ [] (by
    simp only [searchStep, alloc, Option.map_some])).search _ _ _ rfl
  have loaded := entered.init.search (.follow { l with leftNodeNext := list.pHead, t := list.pHead }
    r (h.pNext list.pHead)) _ _ rfl
  obtain ⟨hp₂, followed⟩ := loaded.follow (clean.unmarked _ (.refl list.pHead))
  obtain ⟨hp₃, r', scanned⟩ := HpGets.scan clean hi scan (.refl _) clean.holds.lists.outer followed
  refine ⟨b, b, hp₃, place, ?_⟩
  by_cases last : h.pNext (h.next b) = null
  · refine scanned.found [h.next b] ?_
    simp only [searchStep, if_pos last, Locals.returned]
  · have tested := scanned.search (.testMark ⟨l.leftNode, b, h.next b, h.next b⟩ r') hp₃
      [h.next b] (by simp only [searchStep, if_neg last])
    refine tested.found [h.next b] ?_
    have unmarked := clean.unmarked _ (clean.holds.lists.reached_next place.reached place.outer)
    simp only [searchStep, unmarked, Bool.false_eq_true, if_false, Locals.returned]

variable {ι : Type*} [DecidableEq ι] {lists : ι → ListT} {T : ι → Finset Int} {i : ι}

/-- A call of thread 0, from its start to its return. -/
theorem HpGets.call (all : CleanAll lists h used T) (lo : listValMin < v) (hi : v < listValMax)
    (fresh : Fresh used a) (gets : HpGets (lists i) a s h used hp (.start op v)) : ∃ h' used' hp',
    HpGets (lists i) a s h' used' hp' (.done op v (apply (T i) v op).1) ∧
      CleanAll lists h' used' (Function.update T i (apply (T i) v op).2) := by
  have clean := all.each i
  have same : CleanAll lists h used (Function.update T i (T i)) := by rwa [Function.update_eq_self]
  obtain ⟨p, hp₁, started⟩ : ∃ p hp₁, startCall (lists i) hp op = some (p, hp₁) := by
    cases op with
    | contains | add => exact ⟨_, _, rfl⟩
    | remove => exact ⟨_, _, rfl⟩
  have searching := gets.lib (e := ⟨h, hp₁, [], .search op v p
    (.again (.enter (lists i) (lists i).pHead))⟩) (by
    simp only [Hp.libStep, started, Option.map_some])
  obtain ⟨b, m, hp₂, place, found⟩ := searching.returns clean lo hi (startCall_saved started)
  have there := clean.holds.lists.reached_next place.reached place.outer
  have mem := clean.holds.mem_iff lo hi place
  cases op with
  | contains =>
    have tested := found.lib (e := ⟨h, hpReset hp₂, [], .done .contains v
      (!(h.pNext (h.next b) = null || h.val (h.next b) ≠ v))⟩) rfl
    rw [clean.contains lo hi place] at tested
    exact ⟨h, used, _, tested, same⟩
  | add =>
    by_cases present : h.val (h.next b) = v
    · rw [show afterSearch h hp₂ v ⟨b, m, h.next b, h.next b⟩ p .add =
        (hpReset hp₂, .done .add v false) from if_pos present] at found
      rw [apply_add_of_mem (mem.mpr present)]
      exact ⟨h, used, _, found, same⟩
    · rw [show afterSearch h hp₂ v ⟨b, m, h.next b, h.next b⟩ p .add =
        (hp₂, .malloc v b (h.next b)) from if_neg present] at found
      have linked := (found.malloc fresh).lib (e := ⟨_, hpReset hp₂, [], .done .add v true⟩)
        (if_pos (clean.link_filled fresh place _))
      rw [apply_add_of_notMem (mem.not.mpr present)]
      exact ⟨_, _, _, linked, all.insert fresh place present⟩
  | remove =>
    by_cases present : h.val (h.next b) = v
    · rw [show afterSearch h hp₂ v ⟨b, m, h.next b, h.next b⟩ p .remove =
        (hp₂, .initNext v b (h.next b) p .fetch) from if_neg (not_not.mpr present)] at found
      have stored := (found.lib (e := ⟨h, hp₂, [], .initNext v b (h.next b) p
        (.store (h.pNext (h.next b)))⟩) rfl).lib (e := ⟨h, hp₂.set p (h.pNext (h.next b)), [],
          .initNext v b (h.next b) p .validate⟩) rfl
      have inited := stored.lib (e := ⟨h, hp₂.set p (h.pNext (h.next b)), [], .loadNext v b (h.next b)⟩)
        (by simp only [Hp.libStep, hpInit, HpThread.set_self, if_true])
      have unmarked := clean.unmarked _ there
      have loaded := inited.lib (e := ⟨h, hp₂.set p (h.pNext (h.next b)), [],
        .mark v b (h.next b) (h.pNext (h.next b))⟩) (if_neg (by rw [unmarked]; decide))
      have marked := loaded.lib (e := ⟨_, hp₂.set p (h.pNext (h.next b)), [],
        .unlink v b (h.next b) (h.pNext (h.next b))⟩) (if_pos rfl)
      have unlinked := marked.lib (e := ⟨_, hpReset (hp₂.set p (h.pNext (h.next b))), [],
        .done .remove v true⟩) (if_pos (clean.link_marked place _))
      rw [apply_remove_of_mem (mem.mpr present)]
      exact ⟨_, _, _, unlinked, all.erase place present hi⟩
    · rw [show afterSearch h hp₂ v ⟨b, m, h.next b, h.next b⟩ p .remove =
        (hpReset hp₂, .done .remove v false) from if_pos present] at found
      rw [apply_remove_of_notMem (mem.not.mpr present)]
      exact ⟨h, used, _, found, same⟩

structure HpRep (lists : ι → ListT) (s : Hp.State) (T : ι → Finset Int) : Prop where
  rest : (s.thread 0).pc.atRest = true
  clean : CleanAll lists s.heap s.used T

theorem hpCall_returns (rep : HpRep lists s T) (lo : listValMin < v) (hi : v < listValMax)
    (fresh : Fresh s.used a) (op : Op) (i : ι) : ∃ s',
      HpCall (lists i) op v a s (apply (T i) v op).1 s' ∧
      HpRep lists s' (Function.update T i (apply (T i) v op).2) := by
  obtain ⟨s₁, start, heap, used, hp, thread⟩ : ∃ s₁, Hp.step (lists i) s (.call 0 op v) = some s₁ ∧
      s₁.heap = s.heap ∧ s₁.used = s.used ∧ (s₁.thread 0).hp = (s.thread 0).hp ∧
      (s₁.thread 0).pc = .start op v :=
    by
      have thread := hp_after_self s 0 ⟨s.heap, (s.thread 0).hp, [], .start op v⟩
      exact ⟨_, if_pos ⟨rep.rest, lo, hi⟩, rfl, rfl, (congrArg Hp.Thread.hp thread :),
        congrArg Hp.Thread.pc thread⟩
  obtain ⟨h', used', hp', ⟨s', path, rfl, rfl, -, ended⟩, clean⟩ := HpGets.call rep.clean lo hi fresh
    ⟨s₁, .refl, heap, used, hp, thread⟩
  refine ⟨s', hp_deterministic.call start path ended, ?_, clean⟩
  rw [ended]
  rfl

theorem hpHarrisList_implements (lists : ι → ListT) :
    ImplementsAll AlwaysAll (fun i => HpCall (lists i)) (fun s => Fresh s.used) (HpRep lists) where
  room := fun i _ _ rep => (rep.clean.holds.each i).fresh
  returns := by
    intro i s S op v a rep lo hi fresh _
    obtain ⟨s', call, -⟩ := hpCall_returns rep lo hi fresh op i
    exact ⟨_, s', call⟩
  agrees := by
    intro i s S op v a r s' rep lo hi fresh _ call
    obtain ⟨s'', call', rep'⟩ := hpCall_returns rep lo hi fresh op i
    obtain ⟨rfl, rfl⟩ := hp_deterministic.call_unique call call'
    exact ⟨rfl, rep'⟩

end HpHarris

end ReadLogUpdate.Sequential
