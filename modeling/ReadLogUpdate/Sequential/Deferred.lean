import ReadLogUpdate.Sequential.Agreement
import ReadLogUpdate.Sequential.Change

/-!
# Deferral is invisible

One thread that calls `rlu_list_*` gets the results of a set, whatever its earlier sections have left
to be written back, and finds the set in the raw list once it has finished.
-/

namespace ReadLogUpdate.Sequential

open Chain

/-! ### Attempts and calls -/

def Changes (n : NodeT) (v : Int) : Op → Prop
  | .contains => False
  | .add => n.val ≠ v
  | .remove => n.val = v

/-- The call locks one node, and meets a lock of an earlier section of its thread on the next. -/
def MeetsLock (list : ListT) (op : Op) (v : Int) (s : RluState) : Prop :=
  ∃ fuel s₁ prev next n, s.readerLock = some s₁ ∧ rluSearch list s₁ v fuel = some (prev, next) ∧
    s₁.mem.load next = some n ∧ Changes n v op ∧ s₁.mem.getCopy prev = .null ∧
    s₁.mem.getCopy next ≠ .null

/-- If the section has to abort with a node locked, it finds its write set. -/
def KeepsSlot (list : ListT) (op : Op) (v : Int) (s : RluState) : Prop :=
  MeetsLock list op v s → RightSlot s

section Attempt
variable {ι : Type*} [DecidableEq ι] {M : Nat} {lists : ι → ListT} {s : RluState} {a : Nat}
  {S : ι → Finset Int} {v : Int} {i : ι} {op : Op}

inductive Attempted (M : Nat) (lists : ι → ListT) (s : RluState) (S : ι → Finset Int) (i : ι) (op : Op)
    (v : Int) : Outcome → Prop
  | returned {s' : RluState} : RluRep M lists s' (Function.update S i (apply (S i) v op).2) →
      s'.mem.wsTailCounter ≤ s.mem.wsTailCounter + 1 →
      Attempted M lists s S i op v (.returned (apply (S i) v op).1 s')
  | restart {s' : RluState} : ¬ s.mem.Unlocked → Restarted M lists s s' S →
      Attempted M lists s S i op v (.restart s')

theorem RluRep.attemptRead {s₁ : RluState} (rep : RluRep M lists s S) (entered : Entered s s₁)
    {r : Bool} (same : apply (S i) v op = (r, S i)) : ∃ out, rluRead M s₁ r = some out ∧
      Attempted M lists s S i op v out := by
  obtain ⟨s', done, rep', mem⟩ := rep.unlockRead entered
  refine ⟨.returned r s', congrArg (Option.map _) done, ?_⟩
  have attempted : Attempted M lists s S i op v (.returned (apply (S i) v op).1 s') := by
    refine .returned ?_ (by rw [mem]; exact Nat.le_succ _)
    rw [same, Function.update_eq_self]
    exact rep'
  rwa [same] at attempted

theorem RluRep.attempt (one : 1 ≤ M) (two : 2 * M ≤ rluMaxWriteSets) (rep : RluRep M lists s S)
    (fresh : Fresh s.mem.used a) (lo : listValMin < v) (hi : v < listValMax) (op : Op)
    (slot : s.mem.Unlocked ∨ KeepsSlot (lists i) op v s) : ∃ fuel out,
      rluAttempt M (lists i) fuel s v a op = some out ∧ Attempted M lists s S i op v out := by
  obtain ⟨s₁, locked, entered⟩ := rep.readerLock
  have inv : RluInv M lists s₁.mem 0 s.runCounter S := entered.mem ▸ rep.inv
  obtain ⟨b, fuel, place, search⟩ := inv.rluSearch entered.reads lo hi i
  have load := inv.locks.load_view (s₁.mem.next b)
  rw [entered.mem] at place search load
  refine ⟨fuel, ?_⟩
  have found : rluAttempt M (lists i) fuel s v a op =
      rluFound M s₁ v a (s.mem.view b) (s.mem.view (s.mem.next b)) op := by
    unfold rluAttempt
    simp only [Option.bind_eq_bind, locked, search, Option.bind_some]
  have load₁ : s₁.mem.load (s.mem.view (s.mem.next b)) = some (s.mem.content (s.mem.next b)) := by
    rw [entered.mem]
    exact load
  have holds := rep.inv.holds.each i
  have mem_iff := holds.mem_iff lo hi place
  have reachedNext := holds.lists.reached_next place.reached place.outer
  have rightSlot (changes : Changes (s.mem.content (s.mem.next b)) v op)
      (free : s.mem.hdr b = .null) (held : s.mem.hdr (s.mem.next b) ≠ .null) : RightSlot s := by
    rcases slot with unlocked | keeps
    · exact absurd (unlocked _) held
    · refine keeps ⟨fuel, s₁, _, _, _, locked, search, load₁, changes, ?_, ?_⟩
      · rw [entered.mem, RluMem.view_free free]
        exact free
      · rw [entered.mem]
        rcases rep.inv.locks.cases (s.mem.next b) with none | ⟨c, -, -, some, -⟩
        · exact absurd none held
        · rw [RluMem.view_held some]
          rintro ⟨⟩
  have both (changes : Changes (s.mem.content (s.mem.next b)) v op)
      (andThen : RluState → Ptr → Ptr → Option Outcome) :=
    rep.lockBoth one two entered (holds.ne_next place) (holds.allocated b place.reached)
      (holds.allocated _ reachedNext) (rightSlot changes) andThen
  rw [found]
  cases op with
  | contains =>
    unfold rluFound
    simp only [Option.bind_eq_bind, load₁, Option.bind_some]
    refine rep.attemptRead entered ?_
    rw [apply, decide_eq_decide.mpr mem_iff]
    rfl
  | add =>
    unfold rluFound
    simp only [Option.bind_eq_bind, load₁, Option.bind_some]
    by_cases present : s.mem.val (s.mem.next b) = v
    · rw [if_neg (show ¬ (s.mem.content (s.mem.next b)).val ≠ v from not_not.mpr present)]
      exact rep.attemptRead entered (apply_add_of_mem (mem_iff.mpr present))
    · have absent : v ∉ S i := fun mem => present (mem_iff.mp mem)
      rw [if_pos (show (s.mem.content (s.mem.next b)).val ≠ v from present)]
      rcases both present fun t prev next => rluLink M t v a prev next with
        ⟨busy, s', done, restarted⟩ | ⟨s₂, done, locks⟩
      · exact ⟨_, done, .restart busy restarted⟩
      · obtain ⟨s', linked, rep', tail⟩ := locks.rluLink one two rep fresh place present
        have after : Attempted M lists s S i .add v (.returned (apply (S i) v .add).1 s') := by
          refine .returned ?_ tail.le
          rw [apply_add_of_notMem absent]
          exact rep'
        rw [apply_add_of_notMem absent] at after
        exact ⟨_, done.trans linked, after⟩
  | remove =>
    unfold rluFound
    simp only [Option.bind_eq_bind, load₁, Option.bind_some]
    by_cases present : s.mem.val (s.mem.next b) = v
    · have mem : v ∈ S i := mem_iff.mpr present
      have inner : s.mem.next b ≠ (lists i).pMax := by
        intro eq
        rw [eq, holds.maxVal] at present
        exact hi.ne' present
      have next : s₁.deref (s.mem.content (s.mem.next b)).pNext =
          some (s.mem.view (s.mem.next (s.mem.next b))) := by
        rw [rep.inv.pNext_eq reachedNext inner, inv.locks.deref_view entered.reads, entered.mem]
      rw [if_pos (show (s.mem.content (s.mem.next b)).val = v from present), next, Option.bind_some]
      rcases both present fun t prev next =>
          rluUnlink M t prev next (s.mem.view (s.mem.next (s.mem.next b))) with
        ⟨busy, s', done, restarted⟩ | ⟨s₂, done, locks⟩
      · exact ⟨_, done, .restart busy restarted⟩
      · obtain ⟨s', unlinked, rep', tail⟩ := locks.rluUnlink one two rep place present hi
          (rep.inv.locks.forceActual_view _)
        have after : Attempted M lists s S i .remove v (.returned (apply (S i) v .remove).1 s') := by
          refine .returned ?_ tail.le
          rw [apply_remove_of_mem mem]
          exact rep'
        rw [apply_remove_of_mem mem] at after
        exact ⟨_, done.trans unlinked, after⟩
    · rw [if_neg (show ¬ (s.mem.content (s.mem.next b)).val = v from present)]
      exact rep.attemptRead entered (apply_remove_of_notMem fun mem => present (mem_iff.mp mem))

/-- A call returns what it returns on the set, after at most one jump to `restart`. -/
theorem RluRep.call (one : 1 ≤ M) (two : 2 * M ≤ rluMaxWriteSets) (rep : RluRep M lists s S)
    (fresh : Fresh s.mem.used a) (lo : listValMin < v) (hi : v < listValMax)
    (keeps : KeepsSlot (lists i) op v s) : ∃ s',
      RluCall M (lists i) op v a s (apply (S i) v op).1 s' ∧
      RluRep M lists s' (Function.update S i (apply (S i) v op).2) ∧
      s'.mem.wsTailCounter ≤ s.mem.wsTailCounter + 1 := by
  obtain ⟨fuel, out, fst, attempted⟩ := rep.attempt one two fresh lo hi op (.inr keeps)
  cases attempted with
  | @returned s' rep' tail =>
    refine ⟨s', ⟨fuel, ?_⟩, rep', tail⟩
    unfold rluList
    rw [fst]
    rfl
  | @restart s₁ _ restarted =>
    have fresh₁ : Fresh s₁.mem.used a := ⟨fresh.1, restarted.fewer a fresh.2⟩
    obtain ⟨fuel', out, snd, attempted⟩ :=
      restarted.rep.attempt one two fresh₁ lo hi op (.inl restarted.unlocked)
    cases attempted with
    | @returned s' rep' tail =>
      refine ⟨s', ⟨fuel + fuel', ?_⟩, rep', restarted.tail ▸ tail⟩
      unfold rluList
      rw [rluAttempt_mono fst fuel']
      show rluList M (lists i) (fuel + fuel') v a op 1 s₁ = _
      unfold rluList
      rw [Nat.add_comm, rluAttempt_mono snd fuel]
      rfl
    | restart busy => exact absurd restarted.unlocked busy

end Attempt

/-! ### The end -/

/-- `p_next` and `val` in the nodes themselves. -/
def RluMem.rawNext (m : RluMem) (o : Nat) : Nat := addrOf (m.node o).pNext

def RluMem.rawVal (m : RluMem) (o : Nat) : Int := (m.node o).val

section Finish
variable {ι : Type*} {M : Nat} {lists : ι → ListT} {s : RluState} {S : ι → Finset Int}

theorem RluMem.Unlocked.next_eq {m : RluMem} (unlocked : m.Unlocked) : m.next = m.rawNext :=
  funext fun o => congrArg (fun n : NodeT => addrOf n.pNext) (RluMem.content_free (unlocked o))

theorem RluMem.Unlocked.val_eq {m : RluMem} (unlocked : m.Unlocked) : m.val = m.rawVal :=
  funext fun o => congrArg NodeT.val (RluMem.content_free (unlocked o))

theorem RluInv.syncs (two : 2 * M ≤ rluMaxWriteSets) (inv : RluInv M lists s.mem 0 s.runCounter S)
    (even : s.runCounter % 2 = 0) : ∃ s', s.syncAndWriteback = some s' ∧
      RluInv M lists s'.mem 0 s'.runCounter S ∧ s'.runCounter = s.runCounter ∧ s'.mem.Unlocked := by
  by_cases due : s.mem.wsTailCounter = s.mem.wsHeadCounter
  · have head := inv.head_le_wb
    have tail := inv.wb_le_tail
    refine ⟨s, ?_, inv, rfl, fun o => ?_⟩
    · unfold RluState.syncAndWriteback
      rw [if_pos even, if_pos due]
    · rcases inv.locks.cases o with free | ⟨_, ctr, _, -, rest, lt, -⟩
      · exact free
      · omega
  · obtain ⟨s', done, synced⟩ := inv.sync two even due
    exact ⟨s', done, synced.runCounter ▸ synced.inv, synced.runCounter, synced.unlocked⟩

theorem RluRep.threadFinish (two : 2 * M ≤ rluMaxWriteSets) (rep : RluRep M lists s S) :
    ∃ s', s.threadFinish = some s' ∧ s'.mem.Unlocked ∧
      HoldsAll lists s'.mem.rawNext s'.mem.rawVal s'.mem.used S := by
  obtain ⟨s₁, fst, inv₁, run, -⟩ := rep.inv.syncs two rep.even
  obtain ⟨s', snd, inv', -, unlocked⟩ := inv₁.syncs two (run ▸ rep.even)
  refine ⟨s', ?_, unlocked, ?_⟩
  · unfold RluState.threadFinish
    rw [fst, Option.bind_some, snd]
  · rw [← unlocked.next_eq, ← unlocked.val_eq]
    exact inv'.holds

end Finish

/-! ### One list -/

/-- After `rlu_init` and `rlu_thread_init`, with the lists of `rlu_new_list`; `node` and `used` are the
memory with their sentinels. -/
def RluState.init (node : Nat → NodeT) (used : Nat → Bool) : RluState where
  mem := {
    node := node
    hdr := fun _ => .null
    used := used
    log := fun _ => []
    wsHeadCounter := 0
    wsWbCounter := 0
    wsTailCounter := 0
    wsCurId := 0
    freeNodes := [] }
  isCheckLocks := false
  isWriteDetected := false
  isSteal := false
  runCounter := 0
  localVersion := 0
  localCommitVersion := 0
  isSync := 0
  gWriterVersion := 0
  gCommitVersion := 0

def newListNode (list : ListT) (a : Nat) : NodeT :=
  if a = list.pHead then ⟨listValMin, .actual list.pMax⟩
  else if a = list.pMax then ⟨listValMax, .null⟩
  else ⟨0, .null⟩

def RluState.newList (list : ListT) : RluState :=
  .init (newListNode list) fun a => decide (a = list.pHead ∨ a = list.pMax)

section Init
variable {ι : Type*} {M : Nat} {lists : ι → ListT} {node : Nat → NodeT} {used : Nat → Bool}

theorem RluState.init_rep (one : 1 ≤ M) (plain : ∀ o c, (node o).pNext ≠ .copy c)
    (holds : HoldsAll lists (fun o => addrOf (node o).pNext) (fun o => (node o).val) used fun _ => ∅) :
    RluRep M lists (RluState.init node used) fun _ => ∅ := by
  have log (slot j : Nat) (e : Entry) : ¬ ((RluState.init node used).mem.log slot)[j]? = some e := by
    rintro ⟨⟩
  have hdr (o : Nat) (c : CopyAddr) : ¬ (RluState.init node used).mem.hdr o = .copy c := by
    rintro ⟨⟩
  refine ⟨{
    locks := ⟨fun o c held => absurd held (hdr o c), fun ctr j e _ _ here => absurd here (log _ j e),
      fun o => ?_⟩
    runs := fun ctr j e _ _ here => absurd here (log _ j e)
    lockedUsed := fun o c held => absurd held (hdr o c)
    empty := fun _ _ => rfl
    head_le_wb := le_rfl
    wb_le_tail := le_rfl
    tail_le := Nat.zero_le _
    wb_le := Nat.zero_le _
    curId := rfl
    holds := holds
    plain := plain
    freed := fun _ mem => absurd mem List.not_mem_nil }, rfl, rfl, ?_, le_rfl⟩
  · rintro ⟨⟩
  · show 0 < 0 + M
    omega

end Init

section List
variable {M : Nat} {list : ListT} {s : RluState} {S : Finset Int} {ops : List (Op × Int)}

theorem newListNode_next (list : ListT) :
    (fun o => addrOf (newListNode list o).pNext) = (Mem.init list).pNext := by
  funext o
  show addrOf (newListNode list o).pNext = ((Harris.State.init list).heap.pNext o).addr
  unfold newListNode Harris.State.init
  dsimp only
  by_cases head : o = list.pHead
  · rw [if_pos head, if_pos head]
    rfl
  · rw [if_neg head, if_neg head]
    by_cases last : o = list.pMax
    · rw [if_pos last]
      rfl
    · rw [if_neg last]
      rfl

theorem newListNode_val (list : ListT) : (fun o => (newListNode list o).val) = (Mem.init list).val := by
  funext o
  show (newListNode list o).val = (Harris.State.init list).heap.val o
  unfold newListNode Harris.State.init
  dsimp only
  split
  · rfl
  · split
    · rfl
    · rfl

theorem newListNode_plain (list : ListT) (o : Nat) (c : CopyAddr) :
    (newListNode list o).pNext ≠ .copy c := by
  unfold newListNode
  split
  · rintro ⟨⟩
  · split
    · rintro ⟨⟩
    · rintro ⟨⟩

theorem newList_rep (one : 1 ≤ M) (list : ListT) :
    RluRep M (fun _ : Unit => list) (RluState.newList list) fun _ => ∅ := by
  refine RluState.init_rep one (newListNode_plain list) ?_
  rw [newListNode_next, newListNode_val]
  exact (Mem.init_holds list).all

theorem rluList_implements {ι : Type*} [DecidableEq ι] (one : 1 ≤ M) (two : 2 * M ≤ rluMaxWriteSets)
    (lists : ι → ListT) : ImplementsAll (fun i => KeepsSlot (lists i)) (fun i => RluCall M (lists i))
      (fun s => Fresh s.mem.used) (RluRep M lists) where
  room := fun i _ _ rep => (rep.inv.holds.each i).fresh
  returns := by
    intro i s S op v a rep lo hi fresh keeps
    obtain ⟨s', call, -⟩ := rep.call one two fresh lo hi keeps
    exact ⟨_, s', call⟩
  agrees := by
    intro i s S op v a r s' rep lo hi fresh keeps called
    obtain ⟨s'', call, rep', -⟩ := rep.call one two fresh lo hi keeps
    obtain ⟨rfl, rfl⟩ := called.unique call
    exact ⟨rfl, rep'⟩

structure Finished (list : ListT) (s : RluState) (S : Finset Int) : Prop where
  unlocked : s.mem.Unlocked
  lists : Lists s.mem.rawNext s.mem.rawVal list.pHead list.pMax S
  size : ListSize list s.mem.rawNext S.card
  hashSize : HashListSize (fun _ => list) s.mem.rawNext 1 S.card

/-- A sequence of calls on a new list does what it does on the empty set: whatever `malloc` returned,
each call returns after at most one jump to `restart`, and the thread finishes with the set. -/
structure Invisible (M : Nat) (list : ListT) (ops : List (Op × Int)) : Prop where
  runs : ∃ rs s, Runs (RluCall M list) (fun s => Fresh s.mem.used) (.newList list) ops rs s
  returns : ∀ ops₁ op v ops₂ rs s a, ops = ops₁ ++ (op, v) :: ops₂ →
    Runs (RluCall M list) (fun s => Fresh s.mem.used) (.newList list) ops₁ rs s → Fresh s.mem.used a →
    ∃ r s', RluCall M list op v a s r s'
  same : ∀ rs s, Runs (RluCall M list) (fun s => Fresh s.mem.used) (.newList list) ops rs s →
    rs = (results ∅ ops).1
  finish : ∀ rs s, Runs (RluCall M list) (fun s => Fresh s.mem.used) (.newList list) ops rs s →
    ∃ s', s.threadFinish = some s' ∧ Finished list s' (results ∅ ops).2

theorem RluRep.finished (two : 2 * M ≤ rluMaxWriteSets)
    (rep : RluRep M (fun _ : Unit => list) s fun _ => S) : ∃ s', s.threadFinish = some s' ∧
      (Finished list s' S ↔ S.card < 2 ^ 31) := by
  obtain ⟨s', done, unlocked, holds⟩ := rep.threadFinish two
  have counted := (holds.each ()).listSize
  refine ⟨s', done, fun finished => counted.mp finished.size, fun small => ?_⟩
  have size := counted.mpr small
  refine ⟨unlocked, (holds.each ()).lists, size, 0, S.card, rfl, size, ?_, (zero_add _).symm⟩
  omega

theorem invisible_iff (one : 1 ≤ M) (two : 2 * M ≤ rluMaxWriteSets) (inRange : InRange ops)
    (keeps : Meets (KeepsSlot list) (RluCall M list) (fun s => Fresh s.mem.used) (.newList list) ops) :
    Invisible M list ops ↔ (results ∅ ops).2.card < 2 ^ 31 := by
  have impl := (rluList_implements one two fun _ : Unit => list).single
  have init := newList_rep one list
  constructor
  · intro invisible
    obtain ⟨rs, s, run⟩ := invisible.runs
    obtain ⟨s', done, finished⟩ := invisible.finish rs s run
    obtain ⟨s'', done', iff⟩ := (impl.runs init inRange keeps run).2.finished two
    obtain rfl := Option.some.inj (done.symm.trans done')
    exact iff.mp finished
  · intro small
    refine ⟨impl.total init inRange keeps, ?_, fun rs s run => (impl.runs init inRange keeps run).1, ?_⟩
    · rintro ops₁ op v ops₂ rs s a rfl run fresh
      obtain ⟨rep, next⟩ := impl.before init inRange keeps run
      obtain ⟨lo, hi⟩ := inRange (op, v) (List.mem_append_right _ List.mem_cons_self)
      exact impl.returns s _ op v a rep lo hi fresh next
    · intro rs s run
      obtain ⟨s', done, iff⟩ := (impl.runs init inRange keeps run).2.finished two
      exact ⟨s', done, iff.mpr small⟩

/-- For a thread that always finds its write set, deferral is invisible exactly as long as an `int`
counts the keys. -/
theorem deferral_invisible (M : Nat) (one : 1 ≤ M) (two : 2 * M ≤ rluMaxWriteSets) (list : ListT)
    (ops : List (Op × Int)) (inRange : InRange ops)
    (keeps : Meets (KeepsSlot list) (RluCall M list) (fun s => Fresh s.mem.used) (.newList list) ops) :
    Invisible M list ops ↔ (results ∅ ops).2.card < 2 ^ 31 :=
  invisible_iff one two inRange keeps

/-! ### Where the condition holds -/

theorem rightSlot_of_lt (lt : s.mem.wsTailCounter < 2 ^ 31) : RightSlot s := by
  unfold RightSlot wsIndexInt wsIndex
  rw [toInt32_of_lt lt]
  rfl

theorem RluRep.runs_tail {ι : Type*} [DecidableEq ι] {lists : ι → ListT} {T : ι → Finset Int}
    {call : Op → Int → Nat → RluState → Bool → RluState → Prop} {rs : List Bool} {s' : RluState}
    (one : 1 ≤ M) (two : 2 * M ≤ rluMaxWriteSets)
    (calls : ∀ op v a s r s', call op v a s r s' → ∃ i, RluCall M (lists i) op v a s r s')
    (rep : RluRep M lists s T) (inRange : InRange ops)
    (few : s.mem.wsTailCounter + ops.length ≤ 2 ^ 31)
    (run : Runs call (fun s => Fresh s.mem.used) s ops rs s') :
    s'.mem.wsTailCounter ≤ s.mem.wsTailCounter + ops.length := by
  induction run generalizing T with
  | nil => exact le_rfl
  | @cons s s₁ s' op v a r ops rs fresh called _ ih =>
    rw [List.length_cons] at few ⊢
    obtain ⟨lo, hi⟩ := inRange (op, v) List.mem_cons_self
    obtain ⟨i, called⟩ := calls op v a s r s₁ called
    have keeps : KeepsSlot (lists i) op v s := fun _ => rightSlot_of_lt (by omega)
    obtain ⟨s₁', call, rep₁, tail⟩ := rep.call one two fresh lo hi keeps
    obtain ⟨-, rfl⟩ := called.unique call
    have rest := ih rep₁ (fun p mem => inRange p (List.mem_cons_of_mem _ mem)) (by omega)
    omega

theorem rightSlot_of_few {ι : Type*} [DecidableEq ι] {lists : ι → ListT} {node : Nat → NodeT}
    {used : Nat → Bool} {call : Op → Int → Nat → RluState → Bool → RluState → Prop}
    (one : 1 ≤ M) (two : 2 * M ≤ rluMaxWriteSets)
    (calls : ∀ op v a s r s', call op v a s r s' → ∃ i, RluCall M (lists i) op v a s r s')
    (rep : RluRep M lists (RluState.init node used) fun _ => ∅) (inRange : InRange ops)
    (few : ops.length ≤ 2 ^ 31) :
    Meets (fun _ _ => RightSlot) call (fun s => Fresh s.mem.used) (.init node used) ops := by
  rintro ops₁ op v ops₂ rs s rfl run
  rw [List.length_append, List.length_cons] at few
  have zero : (RluState.init node used).mem.wsTailCounter = 0 := rfl
  have inRange₁ : InRange ops₁ := fun p mem => inRange p (List.mem_append_left _ mem)
  have tail := rep.runs_tail one two calls inRange₁ (by omega) run
  exact rightSlot_of_lt (by omega)

theorem meets_of_few (one : 1 ≤ M) (two : 2 * M ≤ rluMaxWriteSets) (list : ListT)
    (inRange : InRange ops) (few : ops.length ≤ 2 ^ 31) :
    Meets (KeepsSlot list) (RluCall M list) (fun s => Fresh s.mem.used) (.newList list) ops := by
  have right := rightSlot_of_few one two (fun _ _ _ _ _ _ called => ⟨(), called⟩)
    (newList_rep one list) inRange few
  exact fun ops₁ op v ops₂ rs s split run _ => right ops₁ op v ops₂ rs s split run

theorem RluRep.keepsSlot {op : Op} {v : Int} (rep : RluRep M (fun _ : Unit => list) s fun _ => S)
    (unlocked : s.mem.Unlocked) (lo : listValMin < v) (hi : v < listValMax) : KeepsSlot list op v s := by
  rintro ⟨fuel, s₁, prev, next, n, locked, search, -, -, -, held⟩
  obtain ⟨s₁', locked', entered⟩ := rep.readerLock
  obtain rfl := Option.some.inj (locked.symm.trans locked')
  have inv : RluInv M (fun _ : Unit => list) s₁.mem 0 s.runCounter fun _ => S :=
    entered.mem ▸ rep.inv
  obtain ⟨b, fuel', -, found⟩ := inv.rluSearch entered.reads lo hi ()
  have more := rluSearch_mono found fuel
  rw [Nat.add_comm, rluSearch_mono search fuel'] at more
  obtain ⟨-, rfl⟩ := Prod.mk.inj (Option.some.inj more)
  have free : s₁.mem.hdr (s₁.mem.next b) = .null := entered.mem ▸ unlocked _
  rw [RluMem.view_free free] at held
  exact absurd free held

theorem deferral_invisible_four : Invisible 3 pairList fourCalls :=
  (deferral_invisible 3 (by decide) (by decide) pairList fourCalls (by decide)
    (meets_of_few (by decide) (by decide) pairList (by decide) (by decide))).mpr (by decide)

/-- Where nothing is deferred nothing is met, and more keys than an `int` counts show. -/
theorem deferral_visible : ¬ ∀ (M : Nat) (list : ListT) (ops : List (Op × Int)), 1 ≤ M →
    2 * M ≤ rluMaxWriteSets → InRange ops → Invisible M list ops := by
  intro claimed
  have inRange : InRange (adds (manyKeys (2 ^ 31))) := manyKeys_inRange le_rfl
  have impl := (rluList_implements (M := 1) (by decide) (by decide) fun _ : Unit => pairList).single
  have keeps := impl.meets (fun s S op v rep lo hi => rep.keepsSlot (rep.unlocked rfl) lo hi)
    (newList_rep le_rfl pairList) inRange
  have invisible := claimed 1 pairList _ (by decide) (by decide) inRange
  have small := (invisible_iff (by decide) (by decide) inRange keeps).mp invisible
  rw [card_manyKeys] at small
  exact absurd small (lt_irrefl _)

end List

end ReadLogUpdate.Sequential
