import ReadLogUpdate.Hp.Step
import ReadLogUpdate.Harris.Linearize

/-!
# Hazard-pointer coverage

The node that the scan walks to is covered by a record, when the link to it was unmarked and still
there when it was recorded.
-/

namespace ReadLogUpdate.Hp

open Harris

/-- A record allocated since the last `HP_restore` holds exactly the address `a`, and has held it at
a moment at which a field that the search read pointed to `a`. -/
def Thread.Covers (th : Thread) (a : Nat) : Prop :=
  ∃ i, th.hp.savedNHpRecords ≤ i ∧ i < th.hp.nHpRecords ∧ th.hp.hpRecords i = ref a ∧
    th.seen.met i = true

def State.Covered (list : ListT) (s : State) : Prop :=
  ∀ t op v p pc a, (s.thread t).pc = .search op v p pc → pc.dereferences = some a →
    a ≠ list.pHead → (s.thread t).Covers a

/-- The scan takes no marked link, and the link it takes is the one that `HP_init` validated, or it
is still there when `p_hp_left_node_next` is set to it. -/
def Publishes (s : State) : Act → Bool
  | .lib t =>
    match (s.thread t).pc with
    | .search _ _ _ (.follow _ _ tNext) => !isMarkedRef tNext
    | .search _ _ _ (.keepNext l r tNext) =>
      (s.thread t).hp.hpRecords r.tNext = tNext || s.heap.pNext l.t = tNext
    | _ => true
  | _ => true

/-- The records are those of the six `HP_alloc`, and `t` and `tNext` may have been swapped. -/
structure Roles.Allocated (r : Roles) (hp : HpThread) : Prop where
  count : hp.nHpRecords = hp.savedNHpRecords + 6
  leftNodeNext : r.leftNodeNext = hp.savedNHpRecords + 1
  rightNode : r.rightNode = hp.savedNHpRecords + 2
  myLeftNode : r.myLeftNode = hp.savedNHpRecords + 5
  scan : r.t = hp.savedNHpRecords + 3 ∧ r.tNext = hp.savedNHpRecords + 4 ∨
    r.t = hp.savedNHpRecords + 4 ∧ r.tNext = hp.savedNHpRecords + 3

/-- The record holds the address, and has met a field that points there. -/
def Holds (hp : HpThread) (seen : Seen) (i a : Nat) : Prop :=
  hp.hpRecords i = ref a ∧ seen.met i = true

/-- `t` is the head, or one of two records holds it. -/
def Guarded (list : ListT) (hp : HpThread) (seen : Seen) (i j a : Nat) : Prop :=
  a = list.pHead ∨ Holds hp seen i a ∨ Holds hp seen j a

def SearchInv (list : ListT) (hp : HpThread) (seen : Seen) : SearchPc → Prop
  | .again _ => hp.savedNHpRecords ≤ 2
  | .enter _ r | .keepRight _ r | .cas _ r | .testNull _ r | .testMark _ r =>
    hp.savedNHpRecords ≤ 2 ∧ r.Allocated hp
  | .init l r _ pc => hp.savedNHpRecords ≤ 2 ∧ r.Allocated hp ∧
    Guarded list hp seen r.t r.leftNodeNext l.t ∧ (pc ≠ .fetch → l.t ∈ seen.fields)
  | .load l r _ | .test l r _ => hp.savedNHpRecords ≤ 2 ∧ r.Allocated hp ∧
    Guarded list hp seen r.t r.leftNodeNext l.t ∧ l.t ∈ seen.fields ∧ seen.met r.tNext = true
  | .follow l r _ => hp.savedNHpRecords ≤ 2 ∧ r.Allocated hp ∧ l.t ∈ seen.fields ∧
    seen.met r.tNext = true
  | .keepLeft l r tNext | .keepNext l r tNext => hp.savedNHpRecords ≤ 2 ∧ r.Allocated hp ∧
    l.t ∈ seen.fields ∧ seen.met r.tNext = true ∧ tNext.marked = false
  | .check l r => hp.savedNHpRecords ≤ 2 ∧ r.Allocated hp ∧
    Guarded list hp seen r.tNext r.leftNodeNext l.t

def Thread.Inv (list : ListT) (th : Thread) : Prop :=
  ∀ op v p pc, th.pc = .search op v p pc → SearchInv list th.hp th.seen pc

section Records
variable {list : ListT} {hp hp' : HpThread} {seen : Seen} {h : Heap} {read : List Nat}
  {i j a b : Nat} {r : Roles} {w : Ref}

@[simp] theorem HpThread.set_saved : (hp.set i w).savedNHpRecords = hp.savedNHpRecords := rfl

@[simp] theorem HpThread.set_count : (hp.set i w).nHpRecords = hp.nHpRecords := rfl

theorem HpThread.set_self : (hp.set i w).hpRecords i = w := Function.update_self _ _ _

theorem HpThread.set_of_ne (ne : j ≠ i) : (hp.set i w).hpRecords j = hp.hpRecords j :=
  Function.update_of_ne ne _ _

theorem Roles.Allocated.set (ok : r.Allocated hp) : r.Allocated (hp.set i w) :=
  ⟨ok.count, ok.leftNodeNext, ok.rightNode, ok.myLeftNode, ok.scan⟩

theorem Roles.Allocated.swap (ok : r.Allocated hp) : r.swap.Allocated hp :=
  ⟨ok.count, ok.leftNodeNext, ok.rightNode, ok.myLeftNode,
    ok.scan.symm.imp And.symm And.symm⟩

/-- A record that keeps its word has met what it had met. -/
theorem Seen.next_met (met : seen.met i = true) (same : hp'.hpRecords i = hp.hpRecords i) :
    (seen.next h hp hp' read).met i = true := by
  simp [Seen.next, met, same]

/-- A record meets its word in a field that has been read. -/
theorem Seen.next_meets (mem : a ∈ read ++ seen.fields)
    (points : (h.pNext a).addr = (hp'.hpRecords i).addr) :
    (seen.next h hp hp' read).met i = true := by
  have found : ((read ++ seen.fields).any fun a =>
      decide ((h.pNext a).addr = (hp'.hpRecords i).addr)) = true :=
    List.any_eq_true.mpr ⟨a, mem, decide_eq_true points⟩
  simp only [Seen.next, found, Bool.or_true]

theorem Seen.next_fields (mem : a ∈ seen.fields) : a ∈ (seen.next h hp hp' read).fields :=
  List.mem_append_right _ mem

theorem Holds.next (holds : Holds hp seen i a) (same : hp'.hpRecords i = hp.hpRecords i) :
    Holds hp' (seen.next h hp hp' read) i a :=
  ⟨same.trans holds.1, Seen.next_met holds.2 same⟩

theorem Guarded.next (guarded : Guarded list hp seen i j a)
    (same : hp'.hpRecords i = hp.hpRecords i) (same' : hp'.hpRecords j = hp.hpRecords j) :
    Guarded list hp' (seen.next h hp hp' read) i j a :=
  guarded.imp_right (Or.imp (·.next same) (·.next same'))

theorem SearchInv.wait {pc : SearchPc} (inv : SearchInv list hp seen pc) :
    SearchInv list hp (seen.next h hp hp []) pc := by
  cases pc with
  | again => exact inv
  | enter | keepRight | cas | testNull | testMark => exact inv
  | init l r first pc =>
    obtain ⟨small, ok, guarded, mem⟩ := inv
    exact ⟨small, ok, guarded.next rfl rfl, fun ne => Seen.next_fields (mem ne)⟩
  | load | test =>
    obtain ⟨small, ok, guarded, mem, met⟩ := inv
    exact ⟨small, ok, guarded.next rfl rfl, Seen.next_fields mem, Seen.next_met met rfl⟩
  | follow =>
    obtain ⟨small, ok, mem, met⟩ := inv
    exact ⟨small, ok, Seen.next_fields mem, Seen.next_met met rfl⟩
  | keepLeft | keepNext =>
    obtain ⟨small, ok, mem, met, unmarked⟩ := inv
    exact ⟨small, ok, Seen.next_fields mem, Seen.next_met met rfl, unmarked⟩
  | check =>
    obtain ⟨small, ok, guarded⟩ := inv
    exact ⟨small, ok, guarded.next rfl rfl⟩

theorem hpAlloc_eq (small : hp.nHpRecords < 99) :
    hpAlloc hp = some (hp.nHpRecords, { hp with nHpRecords := hp.nHpRecords + 1 }) :=
  if_neg (by unfold hpMaxRecords; omega)

/-- With two records in use the six `HP_alloc` do not abort. -/
theorem allocRoles_eq (small : hp.nHpRecords ≤ 2) :
    allocRoles hp = some (⟨hp.nHpRecords, hp.nHpRecords + 1, hp.nHpRecords + 2, hp.nHpRecords + 3,
      hp.nHpRecords + 4, hp.nHpRecords + 5⟩, { hp with nHpRecords := hp.nHpRecords + 6 }) := by
  obtain ⟨saved, n, records⟩ := hp
  have alloc (k : Nat) (le : k ≤ 5) :
      hpAlloc ⟨saved, n + k, records⟩ = some (n + k, ⟨saved, n + (k + 1), records⟩) :=
    hpAlloc_eq (show n + k < 99 by simp only at small; omega)
  have first : hpAlloc ⟨saved, n, records⟩ = some (n, ⟨saved, n + 1, records⟩) := alloc 0 (by omega)
  simp only [allocRoles, Option.bind_eq_bind, first, alloc 1 (by omega), alloc 2 (by omega),
    alloc 3 (by omega), alloc 4 (by omega), alloc 5 (by omega), Option.bind_some]
  rfl

structure SearchPc.Publishes (h : Heap) (hp : HpThread) (pc : SearchPc) : Prop where
  unmarked : ∀ l r tNext, pc = .follow l r tNext → tNext.marked = false
  recorded : ∀ l r tNext, pc = .keepNext l r tNext →
    hp.hpRecords r.tNext = tNext ∨ h.pNext l.t = tNext

/-- A step of `HP_init` keeps the records of the scan that it does not set. -/
theorem hpInit_inv {l : Locals} {first : Bool} {pc : InitPc}
    (inv : SearchInv list hp seen (.init l r first pc)) :
    match hpInit r.tNext (h.pNext l.t) hp pc with
    | (hp', some pc') => SearchInv list hp' (seen.next h hp hp' [l.t]) (.init l r first pc')
    | (hp', none) => SearchInv list hp' (seen.next h hp hp' [l.t]) (.load l r first) := by
  obtain ⟨small, ok, guarded, -⟩ := inv
  have here {hp' : HpThread} : l.t ∈ (seen.next h hp hp' [l.t]).fields := List.mem_cons_self
  cases pc with
  | fetch => exact ⟨small, ok, guarded.next rfl rfl, fun _ => here⟩
  | store w =>
    have scan := ok.scan
    have left := ok.leftNodeNext
    refine ⟨small, ok.set, guarded.next ?_ ?_, fun _ => here⟩
    · exact HpThread.set_of_ne (by omega)
    · exact HpThread.set_of_ne (by omega)
  | validate =>
    by_cases same : hp.hpRecords r.tNext = h.pNext l.t
    · simp only [hpInit, if_pos same]
      refine ⟨small, ok, guarded.next rfl rfl, here, Seen.next_meets List.mem_cons_self ?_⟩
      rw [same]
    · simp only [hpInit, if_neg same]
      exact ⟨small, ok, guarded.next rfl rfl, fun _ => here⟩

theorem searchStep_inv {v : Int} {pc pc' : SearchPc} {e : Effect (SearchPc ⊕ Locals)}
    (inv : SearchInv list hp seen pc) (publishes : pc.Publishes h hp)
    (hs : searchStep list v h hp pc = some e) (leads : e.pc = .inl pc') :
    SearchInv list e.hp (seen.next e.heap hp e.hp e.read) pc' := by
  cases pc with
  | again l =>
    have small : hp.savedNHpRecords ≤ 2 := inv
    have alloc := allocRoles_eq (show (hpRestore hp).nHpRecords ≤ 2 from small)
    simp only [searchStep, alloc, Option.map_some, Option.some.injEq] at hs
    subst hs
    cases leads
    exact ⟨small, rfl, rfl, rfl, rfl, .inl ⟨rfl, rfl⟩⟩
  | enter l r =>
    cases hs
    cases leads
    obtain ⟨small, ok⟩ := inv
    exact ⟨small, ok.set.set, .inl rfl, fun ne => absurd rfl ne⟩
  | init l r first pc =>
    have next := hpInit_inv (h := h) inv
    simp only [searchStep] at hs
    split at hs <;> cases hs <;> cases leads
    · simpa only [*] using next
    · simpa only [*] using next
  | load l r first =>
    cases hs
    cases leads
    obtain ⟨small, ok, guarded, mem, met⟩ := inv
    cases first with
    | true => exact ⟨small, ok, Seen.next_fields mem, Seen.next_met met rfl⟩
    | false => exact ⟨small, ok, guarded.next rfl rfl, Seen.next_fields mem, Seen.next_met met rfl⟩
  | test l r tNext =>
    cases hs
    obtain ⟨small, ok, -, mem, met⟩ := inv
    simp only [Sum.inl.injEq] at leads
    split at leads
    · subst leads
      exact ⟨small, ok, Seen.next_fields mem, Seen.next_met met rfl⟩
    · subst leads
      exact ⟨small, ok⟩
  | follow l r tNext =>
    have unmarked := publishes.unmarked l r tNext rfl
    cases hs
    obtain ⟨small, ok, mem, met⟩ := inv
    simp only [isMarkedRef, unmarked, Bool.false_eq_true, if_false, Sum.inl.injEq] at leads
    subst leads
    exact ⟨small, ok, Seen.next_fields mem, Seen.next_met met rfl, unmarked⟩
  | keepLeft l r tNext =>
    cases hs
    cases leads
    obtain ⟨small, ok, mem, met, unmarked⟩ := inv
    have scan := ok.scan
    have left := ok.myLeftNode
    refine ⟨small, ok.set, Seen.next_fields mem, Seen.next_met met ?_, unmarked⟩
    exact HpThread.set_of_ne (by omega)
  | keepNext l r tNext =>
    have recorded := publishes.recorded l r tNext rfl
    cases hs
    cases leads
    obtain ⟨small, ok, mem, met, unmarked⟩ := inv
    have scan := ok.scan
    have left := ok.leftNodeNext
    have word : tNext = ref tNext.addr := by
      obtain ⟨addr, marked⟩ := tNext
      exact congrArg (Ref.mk addr) unmarked
    refine ⟨small, ok.set, .inr ?_⟩
    rcases recorded with validated | still
    · have same : (hp.set r.leftNodeNext tNext).hpRecords r.tNext = hp.hpRecords r.tNext :=
        HpThread.set_of_ne (by omega)
      exact .inl ⟨(same.trans validated).trans word, Seen.next_met met same⟩
    · refine .inr ⟨HpThread.set_self.trans word, Seen.next_meets mem ?_⟩
      rw [still, HpThread.set_self]
  | check l r =>
    cases hs
    obtain ⟨small, ok, guarded⟩ := inv
    simp only [Sum.inl.injEq] at leads
    split at leads
    · subst leads
      exact ⟨small, ok⟩
    · subst leads
      exact ⟨small, ok.swap, guarded.next rfl rfl, fun ne => absurd rfl ne⟩
  | keepRight l r =>
    cases hs
    obtain ⟨small, ok⟩ := inv
    simp only [Sum.inl.injEq] at leads
    split at leads
    · subst leads
      exact ⟨small, ok.set⟩
    · subst leads
      exact ⟨small, ok.set⟩
  | cas l r =>
    simp only [searchStep] at hs
    split at hs <;> cases hs <;> cases leads <;> exact inv
  | testNull l r =>
    cases hs
    simp only at leads
    split at leads <;> cases leads
    exact inv
  | testMark l r =>
    cases hs
    simp only at leads
    split at leads <;> cases leads
    exact inv.1

/-- A node that the scan dereferences is guarded, so it is covered. -/
theorem SearchInv.covers {th : Thread} {pc : SearchPc} (inv : SearchInv list th.hp th.seen pc)
    (deref : pc.dereferences = some a) (inner : a ≠ list.pHead) : th.Covers a := by
  have covered {r : Roles} {i j : Nat} (ok : r.Allocated th.hp)
      (guarded : Guarded list th.hp th.seen i j a)
      (hi : i = r.t ∨ i = r.tNext) (hj : j = r.leftNodeNext) : th.Covers a := by
    have count := ok.count
    have scan := ok.scan
    have left := ok.leftNodeNext
    rcases guarded with isHead | ⟨holds, met⟩ | ⟨holds, met⟩
    · exact absurd isHead inner
    · exact ⟨i, by omega, by omega, holds, met⟩
    · exact ⟨j, by omega, by omega, holds, met⟩
  cases pc with
  | init l r first pc =>
    obtain ⟨-, ok, guarded, -⟩ := inv
    cases pc with
    | store => cases deref
    | fetch | validate =>
      cases deref
      exact covered ok guarded (.inl rfl) rfl
  | load l r first =>
    obtain ⟨-, ok, guarded, -⟩ := inv
    cases deref
    exact covered ok guarded (.inl rfl) rfl
  | test l r tNext =>
    obtain ⟨-, ok, guarded, -⟩ := inv
    simp only [SearchPc.dereferences] at deref
    split at deref <;> cases deref
    exact covered ok guarded (.inl rfl) rfl
  | check l r =>
    obtain ⟨-, ok, guarded⟩ := inv
    cases deref
    exact covered ok guarded (.inr rfl) rfl
  | again | enter | follow | keepLeft | keepNext | keepRight | cas | testNull | testMark =>
    cases deref

end Records

section Run
variable {list : ListT} {s s' : State} {th : Thread} {act : Act}

theorem startCall_saved {hp hp' : HpThread} {op : Op} {p : Nat}
    (hs : startCall list hp op = some (p, hp')) : hp'.savedNHpRecords ≤ 2 := by
  have first : hpAlloc (hpReset hp) = some (0, { hp with nHpRecords := 1 }) := rfl
  have second : hpAlloc { hp with nHpRecords := 1 } = some (1, { hp with nHpRecords := 2 }) := rfl
  cases op with
  | contains | add =>
    simp only [startCall, first, Option.bind_eq_bind, Option.bind_some, Option.pure_def,
      Option.some.injEq, Prod.mk.injEq] at hs
    obtain ⟨-, rfl⟩ := hs
    exact Nat.le_succ 1
  | remove =>
    simp only [startCall, first, second, Option.bind_eq_bind, Option.bind_some, Option.pure_def,
      Option.some.injEq, Prod.mk.injEq] at hs
    obtain ⟨-, rfl⟩ := hs
    exact le_rfl

theorem Thread.Inv.wait (inv : th.Inv list) (h : Heap) : (th.wait h).Inv list :=
  fun op v p pc hpc => (inv op v p pc hpc).wait

/-- What the step of a thread keeps of its own records. -/
theorem libStep_inv {h : Heap} {e : Effect Pc} (inv : th.Inv list)
    (publishes : ∀ op v p pc, th.pc = .search op v p pc → pc.Publishes h th.hp)
    (hs : libStep list h th.hp th.pc = some e) : (th.next e).Inv list := by
  intro op v p pc' hpc
  simp only [Thread.next] at hpc ⊢
  cases eq : th.pc with
  | start op' v' =>
    rw [eq] at hs
    obtain ⟨⟨q, hp'⟩, start, rfl⟩ := Option.map_eq_some_iff.mp hs
    cases hpc
    exact startCall_saved start
  | search op' v' p' pc =>
    rw [eq] at hs
    obtain ⟨f, search, rfl⟩ := Option.map_eq_some_iff.mp hs
    cases leads : f.pc with
    | inl next =>
      simp only [leads, Pc.search.injEq] at hpc ⊢
      obtain ⟨-, -, -, rfl⟩ := hpc
      exact searchStep_inv (inv _ _ _ _ eq) (publishes _ _ _ _ eq) search leads
    | inr l =>
      simp only [leads] at hpc
      cases op' with
      | contains => cases hpc
      | add | remove =>
        simp only [afterSearch] at hpc
        split at hpc <;> cases hpc
  | containsTest =>
    rw [eq] at hs
    cases hs
    cases hpc
  | insert | loadNext | mark | unlink =>
    rw [eq] at hs
    simp only [libStep] at hs
    split at hs <;> cases hs <;> cases hpc
  | initNext | cleanup =>
    rw [eq] at hs
    simp only [libStep] at hs
    split at hs <;> cases hs <;> cases hpc
  | idle | done | malloc =>
    rw [eq] at hs
    cases hs

theorem publishes_search {t : Nat} (ok : Publishes s (.lib t) = true) :
    ∀ op v p pc, (s.thread t).pc = .search op v p pc → pc.Publishes s.heap (s.thread t).hp := by
  intro op v p pc hpc
  simp only [Publishes, hpc] at ok
  constructor
  · rintro l r tNext rfl
    simpa [isMarkedRef] using ok
  · rintro l r tNext rfl
    simpa using ok

theorem State.after_inv {t : Nat} {e : Effect Pc} (inv : ∀ u, (s.thread u).Inv list)
    (own : ((s.thread t).next e).Inv list) (u : Nat) : (s.after t e u).Inv list := by
  unfold State.after
  split
  · exact own
  · exact (inv u).wait e.heap

theorem step_inv (inv : ∀ t, (s.thread t).Inv list) (ok : Publishes s act = true)
    (hs : step list s act = some s') : ∀ t, (s'.thread t).Inv list := by
  cases act with
  | call t op v =>
    simp only [step] at hs
    split at hs <;> cases hs
    exact State.after_inv inv (by rintro _ _ _ _ ⟨⟩)
  | lib t =>
    obtain ⟨e, run, rfl⟩ := Option.map_eq_some_iff.mp hs
    exact State.after_inv inv (libStep_inv (inv t) (publishes_search ok) run)
  | malloc t a =>
    simp only [step] at hs
    split at hs
    · split at hs <;> cases hs
      exact State.after_inv inv (by rintro _ _ _ _ ⟨⟩)
    · cases hs

end Run

/-- In every run of the `hp_harris_list` calls, by any threads from whatever is in their records,
whose scans take no marked link and take the link that was recorded: every node that a search
dereferences is covered. -/
theorem hp_search_covered (list : ListT) (records : Nat → Nat → Ref) (s : State)
    (h : System.Reachable (· = State.init list records) (step list)
      (fun s act => Publishes s act = true) s) : s.Covered list := by
  have inv : ∀ t, (s.thread t).Inv list :=
    h.invariant (fun s => ∀ t, (s.thread t).Inv list)
      (by rintro _ rfl t _ _ _ _ ⟨⟩) (fun _ _ _ => step_inv)
  intro t op v p pc a hpc deref inner
  exact (inv t op v p pc hpc).covers deref inner

theorem exists_run {ok : State → Act → Bool} {as : List Act} {good : State → Bool}
    (reached : ((System.run (System.guarded (step emptyList) fun s act => ok s act = true)
      (State.init emptyList fun _ _ => null) as).any good) = true) :
    ∃ s, System.Reachable (· = State.init emptyList fun _ _ => null) (step emptyList)
      (fun s act => ok s act = true) s ∧ good s = true := by
  obtain ⟨s, h, facts⟩ := System.exists_reachable (Eq.refl (State.init emptyList fun _ _ => null)) reached
  exact ⟨s, h.mono_init fun _ eq => eq.symm, facts⟩

/-- Thread 0 looks for 5 in the empty list, up to the check of the max sentinel. -/
def lookupRun : List Act := .call 0 .contains 5 :: List.replicate 10 (.lib 0)

def State.atSentinel (s : State) : Bool :=
  decide ((s.thread 0).pc = .search .contains 5 0 (.check ⟨1, 1, 2, 2⟩ ⟨1, 2, 3, 4, 5, 6⟩))

theorem hp_search_covered_sentinel : ∃ s : State, s.atSentinel = true ∧ s.Covered emptyList := by
  have reached : ((System.run
      (System.guarded (step emptyList) fun s act => Publishes s act = true)
      (State.init emptyList fun _ _ => null) lookupRun).any State.atSentinel) = true := by
    decide +kernel
  obtain ⟨s, h, sentinel⟩ := exists_run reached
  exact ⟨s, sentinel, hp_search_covered emptyList (fun _ _ => null) s h⟩

/-- Thread 0 adds 5, thread 1 marks the node of 5, and the scan of thread 2 takes the marked
link. -/
def markedLinkRun : List Act :=
  .call 0 .add 5 :: List.replicate 13 (.lib 0) ++ [.malloc 0 3, .lib 0] ++
  .call 1 .remove 5 :: List.replicate 24 (.lib 1) ++ .call 2 .contains 7 :: List.replicate 17 (.lib 2)

/-- The scan of thread 2 is at the max sentinel, and none of its records holds its address. -/
def State.uncovered (s : State) : Bool :=
  decide ((s.thread 2).pc = .search .contains 7 0 (.check ⟨1, 1, 3, 2⟩ ⟨4, 2, 3, 5, 4, 6⟩) ∧
    (s.thread 2).hp.nHpRecords = 7 ∧ ∀ i ∈ List.range 7, (s.thread 2).hp.hpRecords i ≠ ref 2)

theorem hp_search_uncovered : ¬ ∀ (list : ListT) (records : Nat → Nat → Ref) (s : State),
    System.Reachable (· = State.init list records) (step list) (fun _ _ => True) s →
      s.Covered list := by
  intro claim
  have reached : ((System.run (System.guarded (step emptyList) fun _ _ => true = true)
      (State.init emptyList fun _ _ => null) markedLinkRun).any State.uncovered) = true := by
    decide +kernel
  obtain ⟨s, h, uncovered⟩ := exists_run reached
  obtain ⟨hpc, count, missing⟩ := of_decide_eq_true uncovered
  have covered := claim emptyList _ s (h.mono fun _ _ _ => trivial)
  obtain ⟨i, -, below, holds, -⟩ := covered 2 _ _ _ _ 2 hpc rfl (by decide)
  rw [count] at below
  exact missing i (List.mem_range.mpr below) holds

end ReadLogUpdate.Hp
