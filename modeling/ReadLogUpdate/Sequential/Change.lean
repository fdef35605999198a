import ReadLogUpdate.Sequential.Attempt

/-!
# Sections that change a list

The two locks of an add or a remove, what the section stores once it has both, and the calls: they
follow the set, and jump to `restart` at most once.
-/

namespace ReadLogUpdate.Sequential

open Chain

/-! ### One lock -/

section TryLock
variable {s : RluState} {p : Ptr} {o : Nat} {c : CopyAddr} {e : Entry}

theorem RluState.tryLock_held (target : s.mem.lockTarget p = some o) (held : s.mem.hdr o = .copy c)
    (here : s.mem.entryAt c = some e) (id : e.threadId = uniqId) (older : e.runCounter < s.runCounter) :
    s.tryLock p = some (false, p, { s with isSync := s.isSync + 1 }) := by
  unfold RluState.tryLock
  rw [target, Option.bind_some, held]
  show ((s.mem.entryAt c).bind _ : Option _) = _
  rw [here, Option.bind_some, if_pos id, if_neg older.ne']

structure LockedBy (s s' : RluState) (o : Nat) : Prop where
  mem : s'.mem = s.mem.addCopy o s.runCounter
  runCounter : s'.runCounter = s.runCounter
  quiet : s'.isSync = s.isSync
  detected : s'.isWriteDetected = true

theorem RluState.tryLock_free (target : s.mem.lockTarget p = some o) (free : s.mem.hdr o = .null)
    (first : (s.mem.log s.mem.wsCurId).length < 2) :
    ∃ s', s.tryLock p = some (true, .copy s.mem.nextCopy, s') ∧ LockedBy s s' o := by
  have fits : ((s.mem.log s.mem.wsCurId).length + 1) * (wsObjHeaderSize + objHeaderSize + nodeSize) <
      rluMaxWriteSetBufferSize := by
    unfold wsObjHeaderSize objHeaderSize nodeSize rluMaxWriteSetBufferSize
    omega
  unfold RluState.tryLock
  rw [target, Option.bind_some, free]
  show ∃ s', s.lockFree o = _ ∧ _
  unfold RluState.lockFree
  cases detected : s.isWriteDetected with
  | false =>
    simp only [Bool.false_eq_true, if_false]
    rw [if_pos fits]
    exact ⟨_, rfl, rfl, rfl, rfl, rfl⟩
  | true =>
    simp only [if_true]
    rw [if_pos fits]
    exact ⟨_, rfl, rfl, rfl, rfl, detected⟩

end TryLock

/-! ### Two locks -/

section LockBoth
variable {ι : Type*} {M : Nat} {lists : ι → ListT} {m : RluMem} {s s₁ s₂ : RluState} {b q o rc : Nat}
  {S : ι → Finset Int} {p p' r : Ptr} {c : CopyAddr} {andThen : RluState → Ptr → Ptr → Option Outcome}

theorem RluMem.addCopy_lockTarget (target : m.lockTarget p = some o) :
    (m.addCopy b rc).lockTarget p = some o := by
  cases p with
  | null => exact target
  | actual x => exact target
  | copy c =>
    obtain ⟨e, here, eq⟩ := Option.map_eq_some_iff.mp target
    exact Option.map_eq_some_iff.mpr ⟨e, RluMem.addCopy_entry here, eq⟩

theorem RluMem.addCopy_forceActual (target : m.forceActual p = some r) :
    (m.addCopy b rc).forceActual p = some r := by
  cases p with
  | null => exact target
  | actual x => exact target
  | copy c =>
    obtain ⟨e, here, eq⟩ := Option.map_eq_some_iff.mp target
    exact Option.map_eq_some_iff.mpr ⟨e, RluMem.addCopy_entry here, eq⟩

theorem rluLockBoth_fst (fst : s.tryLock p = some (false, p', s₁)) (q : Ptr) :
    rluLockBoth s p q andThen = rluRestart s₁ := by
  unfold rluLockBoth
  rw [fst]
  rfl

theorem rluLockBoth_snd {q q' : Ptr} (fst : s.tryLock p = some (true, p', s₁))
    (snd : s₁.tryLock q = some (false, q', s₂)) : rluLockBoth s p q andThen = rluRestart s₂ := by
  unfold rluLockBoth
  rw [fst]
  show (s₁.tryLock q >>= _) = _
  rw [snd]
  rfl

theorem rluLockBoth_both {q q' : Ptr} (fst : s.tryLock p = some (true, p', s₁))
    (snd : s₁.tryLock q = some (true, q', s₂)) : rluLockBoth s p q andThen = andThen s₂ p' q' := by
  unfold rluLockBoth
  rw [fst]
  show (s₁.tryLock q >>= _) = _
  rw [snd]
  rfl

/-- The abort of a section finds the write set that the section has filled. -/
def RightSlot (s : RluState) : Prop :=
  wsIndexInt (toInt32 s.mem.wsTailCounter) = wsIndex s.mem.wsTailCounter

structure BothLocked (M : Nat) (s s' : RluState) (b q : Nat) : Prop where
  logged : Logged M s'.mem 1 (s.runCounter + 1)
  rest : s'.mem = { s.mem with hdr := s'.mem.hdr, log := s'.mem.log }
  content : s'.mem.content = s.mem.content
  fst : s'.mem.hdr b = .copy ⟨uniqId, s.mem.wsCurId, 0⟩
  snd : s'.mem.hdr q = .copy ⟨uniqId, s.mem.wsCurId, 1⟩
  runCounter : s'.runCounter = s.runCounter + 1
  quiet : s'.isSync = 0
  detected : s'.isWriteDetected = true
  forceActual : ∀ p r, s.mem.forceActual p = some r → s'.mem.forceActual p = some r

theorem rluRestart_undetected (odd : s.runCounter % 2 = 1) (undetected : s.isWriteDetected = false) :
    rluRestart s = (RluState.syncCheckpoint { s with runCounter := s.runCounter + 1 }).map
      Outcome.restart := by
  unfold rluRestart RluState.abort
  rw [if_pos odd]
  simp only [undetected, Bool.false_eq_true, if_false, Option.bind_some]

theorem RluState.unlockAborted_eq {slot : Nat}
    (index : wsIndexInt (toInt32 s.mem.wsTailCounter) = .ofNat slot) :
    s.unlockAborted = (RluMem.unlockObjs slot (s.mem.log slot).length 0 s.mem).map fun m =>
      { s with mem := m.resetWriteSet m.wsTailCounter } := by
  unfold RluState.unlockAborted
  rw [index]
  rfl

theorem rluRestart_detected (odd : s.runCounter % 2 = 1) (detected : s.isWriteDetected = true)
    (mem : s.mem = m.addCopy o rc) (clean : m.log m.wsCurId = []) (free : m.hdr o = .null)
    (cur : m.wsCurId = wsIndex m.wsTailCounter)
    (slot : wsIndexInt (toInt32 m.wsTailCounter) = m.wsCurId) :
    rluRestart s = (RluState.syncCheckpoint { s with
      mem := m
      runCounter := s.runCounter + 1
      isWriteDetected := false }).map Outcome.restart := by
  have tail : s.mem.wsTailCounter = m.wsTailCounter := by
    rw [mem]
    rfl
  have unlocked := RluMem.addCopy_unlock rc clean free cur
  rw [← mem] at unlocked
  obtain ⟨m', done, eq⟩ := Option.map_eq_some_iff.mp unlocked
  unfold rluRestart RluState.abort
  rw [if_pos odd]
  simp only [detected, if_true]
  have index : wsIndexInt (toInt32 s.mem.wsTailCounter) = .ofNat m.wsCurId := by
    rw [tail]
    exact slot
  have left := RluState.unlockAborted_eq
    (s := { s with isWriteDetected := false, runCounter := s.runCounter + 1 }) index
  rw [left]
  simp only [done, eq, Option.map_some, Option.bind_some]

theorem RluRep.older (rep : RluRep M lists s S) (held : s.mem.hdr o = .copy c) :
    ∃ e, s.mem.entryAt c = some e ∧ e.threadId = uniqId ∧ e.runCounter < s.runCounter := by
  obtain ⟨ctr, e, le, lt, at_, here, -, id, -⟩ := rep.inv.locks.entry held
  have inLog : (s.mem.log (wsIndex ctr))[c.idx]? = some e := by
    rw [at_] at here
    exact here
  exact ⟨e, here, id, (rep.inv.runs ctr c.idx e le lt inLog).2 lt⟩

theorem RluRep.busy (held : s.mem.hdr o = .copy c) : ¬ s.mem.Unlocked := by
  intro unlocked
  rw [unlocked o] at held
  cases held

theorem RluRep.failFirst (one : 1 ≤ M) (two : 2 * M ≤ rluMaxWriteSets) (rep : RluRep M lists s S)
    (entered : Entered s s₁) (held : s.mem.hdr b = .copy c) : ∃ s₂ s',
      s₁.tryLock (s.mem.view b) = some (false, s.mem.view b, s₂) ∧
      rluRestart s₂ = some (.restart s') ∧ Restarted M lists s s' S := by
  obtain ⟨mem, run, quiet, undetected, -⟩ := entered
  have even := rep.even
  obtain ⟨e, here, id, lt⟩ := rep.older held
  have target : s₁.mem.lockTarget (s.mem.view b) = some b := by
    rw [mem]
    exact rep.inv.locks.lockTarget_view b
  have failed := RluState.tryLock_held target (by rw [mem]; exact held) (by rw [mem]; exact here) id
    (by omega)
  obtain ⟨s', done, restarted⟩ := rep.restarts one two held
    (t := { s₁ with isSync := s₁.isSync + 1, runCounter := s₁.runCounter + 1 }) mem
    (by show s₁.runCounter + 1 = _; omega) (by show s₁.isSync + 1 = 1; omega)
  have aborted := rluRestart_undetected (s := { s₁ with isSync := s₁.isSync + 1 })
    (by show s₁.runCounter % 2 = 1; omega) undetected
  exact ⟨_, s', failed, aborted.trans (congrArg (Option.map Outcome.restart) done), restarted⟩

structure FirstLocked (M : Nat) (s s' : RluState) (b : Nat) : Prop where
  mem : s'.mem = s.mem.addCopy b (s.runCounter + 1)
  logged : Logged M s'.mem 1 (s.runCounter + 1)
  runCounter : s'.runCounter = s.runCounter + 1
  quiet : s'.isSync = 0
  detected : s'.isWriteDetected = true

theorem RluRep.lockFirst (two : 2 * M ≤ rluMaxWriteSets) (rep : RluRep M lists s S)
    (entered : Entered s s₁) (free : s.mem.hdr b = .null) (used : s.mem.used b = true) : ∃ s₂,
      s₁.tryLock (s.mem.view b) = some (true, .copy ⟨uniqId, s.mem.wsCurId, 0⟩, s₂) ∧
      FirstLocked M s s₂ b := by
  obtain ⟨mem, run, quiet, -, -⟩ := entered
  obtain ⟨opened, clean⟩ := rep.inv.opens two rep.room
  have target : s₁.mem.lockTarget (s.mem.view b) = some b := by
    rw [mem]
    exact rep.inv.locks.lockTarget_view b
  obtain ⟨s₂, locked, by_⟩ := RluState.tryLock_free target (by rw [mem]; exact free)
    (by rw [mem, clean]; decide)
  have next : s₁.mem.nextCopy = ⟨uniqId, s.mem.wsCurId, 0⟩ := by
    rw [mem]
    unfold RluMem.nextCopy
    rw [clean]
    rfl
  have mem₂ : s₂.mem = s.mem.addCopy b (s.runCounter + 1) := by rw [by_.mem, mem, run]
  refine ⟨s₂, next ▸ locked, mem₂, ?_, by_.runCounter.trans run, by_.quiet.trans quiet, by_.detected⟩
  rw [mem₂]
  exact opened.addCopy two rep.room free used

theorem FirstLocked.hdr (locked : FirstLocked M s s₂ b) {x : Nat} (other : x ≠ b) :
    s₂.mem.hdr x = s.mem.hdr x := by
  rw [locked.mem]
  exact Function.update_of_ne other _ _

theorem FirstLocked.lockTarget (locked : FirstLocked M s s₂ b) (rep : RluRep M lists s S) (q : Nat) :
    s₂.mem.lockTarget (s.mem.view q) = some q := by
  rw [locked.mem]
  exact RluMem.addCopy_lockTarget (rep.inv.locks.lockTarget_view q)

/-- The second node has a lock of an earlier section; the first is unlocked again. -/
theorem FirstLocked.fail (one : 1 ≤ M) (two : 2 * M ≤ rluMaxWriteSets) (locked : FirstLocked M s s₂ b)
    (rep : RluRep M lists s S) (free : s.mem.hdr b = .null) (ne : b ≠ q)
    (held : s.mem.hdr q = .copy c) (right : RightSlot s) : ∃ s₃ s',
      s₂.tryLock (s.mem.view q) = some (false, s.mem.view q, s₃) ∧
      rluRestart s₃ = some (.restart s') ∧ Restarted M lists s s' S := by
  have even := rep.even
  have run := locked.runCounter
  have quiet := locked.quiet
  obtain ⟨-, clean⟩ := rep.inv.opens two rep.room
  obtain ⟨e, here, id, lt⟩ := rep.older held
  have here₂ : s₂.mem.entryAt c = some e := by
    rw [locked.mem]
    exact RluMem.addCopy_entry here
  have failed := RluState.tryLock_held (locked.lockTarget rep q) ((locked.hdr ne.symm).trans held) here₂
    id (by omega)
  have slot : wsIndexInt (toInt32 s.mem.wsTailCounter) = s.mem.wsCurId := by
    rw [rep.inv.curId]
    exact right
  have aborted := rluRestart_detected (s := { s₂ with isSync := s₂.isSync + 1 })
    (by show s₂.runCounter % 2 = 1; omega) locked.detected locked.mem clean free rep.inv.curId slot
  obtain ⟨s', done, restarted⟩ := rep.restarts one two held
    (t := { s₂ with
      mem := s.mem
      isSync := s₂.isSync + 1
      runCounter := s₂.runCounter + 1
      isWriteDetected := false }) rfl
    (by show s₂.runCounter + 1 = _; omega) (by show s₂.isSync + 1 = 1; omega)
  exact ⟨_, s', failed, aborted.trans (congrArg (Option.map Outcome.restart) done), restarted⟩

theorem FirstLocked.lock (two : 2 * M ≤ rluMaxWriteSets) (locked : FirstLocked M s s₂ b)
    (rep : RluRep M lists s S) (freeB : s.mem.hdr b = .null) (ne : b ≠ q) (free : s.mem.hdr q = .null)
    (used : s.mem.used q = true) : ∃ s₃,
      s₂.tryLock (s.mem.view q) = some (true, .copy ⟨uniqId, s.mem.wsCurId, 1⟩, s₃) ∧
      BothLocked M s s₃ b q := by
  obtain ⟨opened, clean⟩ := rep.inv.opens two rep.room
  have log : s₂.mem.log s.mem.wsCurId = [⟨b, s.runCounter + 1, uniqId, s.mem.node b⟩] := by
    rw [locked.mem]
    show Function.update s.mem.log s.mem.wsCurId _ s.mem.wsCurId = _
    rw [Function.update_self, clean]
    rfl
  have cur : s₂.mem.wsCurId = s.mem.wsCurId := by
    rw [locked.mem]
    rfl
  have next : s₂.mem.nextCopy = ⟨uniqId, s.mem.wsCurId, 1⟩ := by
    unfold RluMem.nextCopy
    rw [cur, log]
    rfl
  have free₂ := (locked.hdr ne.symm).trans free
  obtain ⟨s₃, locked₃, by_⟩ := RluState.tryLock_free (locked.lockTarget rep q) free₂
    (by rw [cur, log]; exact Nat.lt_succ_self 1)
  have mem₃ : s₃.mem = s₂.mem.addCopy q (s.runCounter + 1) := by rw [by_.mem, locked.runCounter]
  have room : s₂.mem.wsTailCounter < s₂.mem.wsWbCounter + M := by
    rw [locked.mem]
    exact rep.room
  have used₂ : s₂.mem.used q = true := by
    rw [locked.mem]
    exact used
  refine ⟨s₃, next ▸ locked₃, ?_, ?_, ?_, ?_, ?_, by_.runCounter.trans locked.runCounter,
    by_.quiet.trans locked.quiet, by_.detected, fun p r target => ?_⟩
  · rw [mem₃]
    exact locked.logged.addCopy two room free₂ used₂
  · rw [mem₃, locked.mem]
    rfl
  · funext x
    rw [mem₃, locked.logged.addCopy_content free₂, locked.mem, opened.addCopy_content freeB]
  · rw [mem₃]
    refine (Function.update_of_ne ne _ _).trans ?_
    rw [locked.mem]
    refine (Function.update_self _ _ _).trans ?_
    unfold RluMem.nextCopy
    rw [clean]
    rfl
  · rw [mem₃, ← next]
    exact Function.update_self _ _ _
  · rw [mem₃]
    refine RluMem.addCopy_forceActual ?_
    rw [locked.mem]
    exact RluMem.addCopy_forceActual target

/-- Both nodes are locked, or a lock of an earlier section is met and the section is aborted. -/
theorem RluRep.lockBoth (one : 1 ≤ M) (two : 2 * M ≤ rluMaxWriteSets) (rep : RluRep M lists s S)
    (entered : Entered s s₁) (ne : b ≠ q) (usedB : s.mem.used b = true) (usedQ : s.mem.used q = true)
    (slot : s.mem.hdr b = .null → s.mem.hdr q ≠ .null → RightSlot s)
    (andThen : RluState → Ptr → Ptr → Option Outcome) :
    (¬ s.mem.Unlocked ∧ ∃ s', rluLockBoth s₁ (s.mem.view b) (s.mem.view q) andThen =
        some (.restart s') ∧ Restarted M lists s s' S) ∨
      ∃ s₂, rluLockBoth s₁ (s.mem.view b) (s.mem.view q) andThen =
        andThen s₂ (.copy ⟨uniqId, s.mem.wsCurId, 0⟩) (.copy ⟨uniqId, s.mem.wsCurId, 1⟩) ∧
        BothLocked M s s₂ b q := by
  rcases rep.inv.locks.cases b with freeB | ⟨c, -, -, heldB, -⟩
  · obtain ⟨s₂, fst, locked⟩ := rep.lockFirst two entered freeB usedB
    rcases rep.inv.locks.cases q with freeQ | ⟨c, -, -, heldQ, -⟩
    · obtain ⟨s₃, snd, both⟩ := locked.lock two rep freeB ne freeQ usedQ
      exact .inr ⟨s₃, rluLockBoth_both fst snd, both⟩
    · have right := slot freeB (by rw [heldQ]; rintro ⟨⟩)
      obtain ⟨s₃, s', snd, aborted, restarted⟩ := locked.fail one two rep freeB ne heldQ right
      exact .inl ⟨RluRep.busy heldQ, s', (rluLockBoth_snd fst snd).trans aborted, restarted⟩
  · obtain ⟨s₂, s', fst, aborted, restarted⟩ := rep.failFirst one two entered heldB
    exact .inl ⟨RluRep.busy heldB, s', (rluLockBoth_fst fst _).trans aborted, restarted⟩

end LockBoth

/-! ### Link and unlink -/

section Stores
variable {ι : Type*} [DecidableEq ι] {M : Nat} {lists : ι → ListT} {s s₂ t : RluState} {a b : Nat}
  {S : ι → Finset Int} {v : Int} {i : ι}

theorem readerUnlock_detected (odd : t.runCounter % 2 = 1) (detected : t.isWriteDetected = true) :
    t.readerUnlock M = (RluState.commitWriteSet M { t with
      runCounter := t.runCounter + 1
      isWriteDetected := false }).bind RluState.syncCheckpoint := by
  unfold RluState.readerUnlock
  rw [if_pos odd]
  simp only [detected, if_true]

theorem RluMem.next_eq (m : RluMem) : m.next = (fun n : NodeT => addrOf n.pNext) ∘ m.content := rfl

theorem RluMem.val_eq (m : RluMem) : m.val = NodeT.val ∘ m.content := rfl

/-- Storing a pointer in a locked node redirects it, and its key stays. -/
theorem next_update (C : Nat → NodeT) (b x : Nat) :
    (fun n : NodeT => addrOf n.pNext) ∘ Function.update C b { C b with pNext := .actual x } =
      Function.update ((fun n : NodeT => addrOf n.pNext) ∘ C) b x := Function.comp_update _ _ _ _

theorem val_update (C : Nat → NodeT) (b : Nat) (p : Ptr) :
    NodeT.val ∘ Function.update C b { C b with pNext := p } = NodeT.val ∘ C := by
  rw [Function.comp_update]
  exact Function.update_eq_self_iff.mpr rfl

theorem BothLocked.link (locked : BothLocked M s s₂ b (s.mem.next b)) (rep : RluRep M lists s S)
    (fresh : Fresh s.mem.used a)
    (place : Place s.mem.next s.mem.val (lists i).pHead (lists i).pMax v b)
    (absent : s.mem.val (s.mem.next b) ≠ v) : ∃ m m',
    (s₂.mem.newNode a v).assignNext (.actual a) (.copy ⟨uniqId, s.mem.wsCurId, 1⟩) = some m ∧
    m.assignNext (.copy ⟨uniqId, s.mem.wsCurId, 0⟩) (.actual a) = some m' ∧
    m' = { s.mem with node := m'.node, hdr := m'.hdr, log := m'.log, used := m'.used } ∧
    RluInv M lists m' 1 (s.runCounter + 1) (Function.update S i (insert v (S i))) := by
  have used₂ : s₂.mem.used = s.mem.used := by rw [locked.rest]
  have freed₂ : s₂.mem.freeNodes = s.mem.freeNodes := by rw [locked.rest]
  have fresh₂ : Fresh s₂.mem.used a := by rwa [used₂]
  obtain ⟨-, e, -, -, -, here, -⟩ := locked.logged.locks.entry locked.fst
  have target := locked.logged.locks.forceActual_held locked.snd
  have logged := locked.logged.setNode (a := a) ⟨v, .actual (s.mem.next b)⟩
  have ne : b ≠ a := (rep.inv.holds.each i).ne_fresh fresh place.reached
  have content := logged.setNext_content (q := .actual a) locked.fst here
  rw [locked.logged.setNode_content fresh₂, locked.content] at content
  have next := RluMem.next_eq ((s₂.mem.setNode a ⟨v, .actual (s.mem.next b)⟩).setNext
    ⟨uniqId, s.mem.wsCurId, 0⟩ e (.actual a))
  rw [content, next_update, Function.comp_update, ← RluMem.next_eq] at next
  have val := RluMem.val_eq ((s₂.mem.setNode a ⟨v, .actual (s.mem.next b)⟩).setNext
    ⟨uniqId, s.mem.wsCurId, 0⟩ e (.actual a))
  rw [content, val_update, Function.comp_update, ← RluMem.val_eq] at val
  have used : ((s₂.mem.setNode a ⟨v, .actual (s.mem.next b)⟩).setNext
      ⟨uniqId, s.mem.wsCurId, 0⟩ e (.actual a)).used = Function.update s.mem.used a true := by
    rw [← used₂]
    rfl
  refine ⟨_, _, locked.logged.newNode fresh₂ target, RluMem.assignNext_copy here rfl, ?_,
    { logged.setNext here with
      holds := ?_
      plain := fun o c => ?_
      freed := ?_ }⟩
  · unfold RluMem.setNext RluMem.setNode
    rw [locked.rest]
  · rw [next, val, used]
    exact rep.inv.holds.insert fresh place absent
  · rw [content]
    by_cases eq : o = b
    · subst eq
      rw [Function.update_self]
      rintro ⟨⟩
    · rw [Function.update_of_ne eq]
      by_cases new : o = a
      · subst new
        rw [Function.update_self]
        rintro ⟨⟩
      · rw [Function.update_of_ne new]
        exact rep.inv.plain o c
  · intro o mem
    have old : o ∈ s.mem.freeNodes := by rwa [← freed₂]
    obtain ⟨live, off⟩ := rep.inv.freed o old
    have other : o ≠ a := by
      rintro rfl
      rw [fresh.2] at live
      cases live
    rw [next, used, Function.update_of_ne other]
    refine ⟨live, fun j reached => ?_⟩
    rcases rep.inv.holds.insert_reached fresh place reached with ⟨eq, -⟩ | reached
    · exact other eq
    · exact off j reached

theorem BothLocked.rluLink (one : 1 ≤ M) (two : 2 * M ≤ rluMaxWriteSets)
    (locked : BothLocked M s s₂ b (s.mem.next b)) (rep : RluRep M lists s S)
    (fresh : Fresh s.mem.used a)
    (place : Place s.mem.next s.mem.val (lists i).pHead (lists i).pMax v b)
    (absent : s.mem.val (s.mem.next b) ≠ v) : ∃ s',
    Sequential.rluLink M s₂ v a (.copy ⟨uniqId, s.mem.wsCurId, 0⟩) (.copy ⟨uniqId, s.mem.wsCurId, 1⟩) =
      some (.returned true s') ∧ RluRep M lists s' (Function.update S i (insert v (S i))) ∧
    s'.mem.wsTailCounter = s.mem.wsTailCounter + 1 := by
  obtain ⟨m, m', fst, snd, rest, inv⟩ := locked.link rep fresh place absent
  have even := rep.even
  have run := locked.runCounter
  have tail : m'.wsTailCounter = s.mem.wsTailCounter := by rw [rest]
  have wb : m'.wsWbCounter = s.mem.wsWbCounter := by rw [rest]
  have freed : m'.freeNodes = s.mem.freeNodes := by rw [rest]
  have room := rep.room
  have few := rep.few
  obtain ⟨s', done, rep', tail'⟩ := inv.commit one two
    (t := { s₂ with mem := m', runCounter := s₂.runCounter + 1, isWriteDetected := false })
    (by show s₂.runCounter + 1 = _; omega) (by show (s₂.runCounter + 1) % 2 = 0; omega) locked.quiet
    (by show m'.wsTailCounter < m'.wsWbCounter + M; omega)
    (by show m'.freeNodes.length ≤ m'.wsTailCounter - m'.wsWbCounter + 1; rw [freed]; omega)
  refine ⟨s', ?_, rep', tail'.trans (congrArg (· + 1) tail)⟩
  unfold Sequential.rluLink
  simp only [Option.bind_eq_bind, fst, snd, Option.bind_some]
  have unlocked := readerUnlock_detected (M := M) (t := { s₂ with mem := m' })
    (by show s₂.runCounter % 2 = 1; omega) locked.detected
  rw [unlocked, done]
  rfl

theorem BothLocked.unlink (locked : BothLocked M s s₂ b (s.mem.next b)) (rep : RluRep M lists s S)
    (place : Place s.mem.next s.mem.val (lists i).pHead (lists i).pMax v b)
    (present : s.mem.val (s.mem.next b) = v) (hi : v < listValMax) {n : Ptr}
    (target : s.mem.forceActual n = some (.actual (s.mem.next (s.mem.next b)))) : ∃ m,
    s₂.mem.assignNext (.copy ⟨uniqId, s.mem.wsCurId, 0⟩) n = some m ∧
    m.forceActual (.copy ⟨uniqId, s.mem.wsCurId, 1⟩) = some (.actual (s.mem.next b)) ∧
    m = { s.mem with hdr := m.hdr, log := m.log } ∧
    RluInv M lists { m with freeNodes := m.freeNodes ++ [s.mem.next b] } 1 (s.runCounter + 1)
      (Function.update S i ((S i).erase v)) := by
  have used₂ : s₂.mem.used = s.mem.used := by rw [locked.rest]
  have freed₂ : s₂.mem.freeNodes = s.mem.freeNodes := by rw [locked.rest]
  obtain ⟨-, e, -, -, -, here, -⟩ := locked.logged.locks.entry locked.fst
  have logged := locked.logged.setNext (q := .actual (s.mem.next (s.mem.next b))) here
  have content := locked.logged.setNext_content
    (q := .actual (s.mem.next (s.mem.next b))) locked.fst here
  rw [locked.content] at content
  have next := RluMem.next_eq (s₂.mem.setNext ⟨uniqId, s.mem.wsCurId, 0⟩ e
    (.actual (s.mem.next (s.mem.next b))))
  rw [content, next_update, ← RluMem.next_eq] at next
  have val := RluMem.val_eq (s₂.mem.setNext ⟨uniqId, s.mem.wsCurId, 0⟩ e
    (.actual (s.mem.next (s.mem.next b))))
  rw [content, val_update, ← RluMem.val_eq] at val
  have inside := (rep.inv.holds.each i).lists.reached_next place.reached place.outer
  refine ⟨_, RluMem.assignNext_copy here (locked.forceActual n _ target),
    logged.locks.forceActual_held locked.snd, ?_,
    { locks := ⟨logged.locks.held, logged.locks.logged, logged.locks.unmarked⟩
      runs := logged.runs
      lockedUsed := logged.lockedUsed
      empty := logged.empty
      head_le_wb := logged.head_le_wb
      wb_le_tail := logged.wb_le_tail
      tail_le := logged.tail_le
      wb_le := logged.wb_le
      curId := logged.curId
      holds := ?_
      plain := fun o c => ?_
      freed := ?_ }⟩
  · unfold RluMem.setNext
    rw [locked.rest]
  · show HoldsAll lists (RluMem.next (s₂.mem.setNext _ e _)) (RluMem.val (s₂.mem.setNext _ e _))
      s₂.mem.used _
    rw [next, val, used₂]
    exact rep.inv.holds.erase place present hi (fun _ _ _ _ => rfl) fun _ free => free
  · show ((s₂.mem.setNext _ e _).content o).pNext ≠ _
    rw [content]
    by_cases eq : o = b
    · subst eq
      rw [Function.update_self]
      rintro ⟨⟩
    · rw [Function.update_of_ne eq]
      exact rep.inv.plain o c
  · intro o mem
    show s₂.mem.used o = true ∧ ∀ j, ¬ Path (RluMem.next (s₂.mem.setNext _ e _)) _ _ o
    rw [next, used₂]
    rcases List.mem_append.mp mem with old | new
    · have old : o ∈ s.mem.freeNodes := by rwa [← freed₂]
      obtain ⟨live, off⟩ := rep.inv.freed o old
      exact ⟨live, fun j reached => off j (rep.inv.holds.erase_reached place present hi reached)⟩
    · obtain rfl := List.mem_singleton.mp new
      exact ⟨(rep.inv.holds.each i).allocated _ inside, rep.inv.holds.erase_gone place present hi⟩

theorem BothLocked.rluUnlink (one : 1 ≤ M) (two : 2 * M ≤ rluMaxWriteSets)
    (locked : BothLocked M s s₂ b (s.mem.next b)) (rep : RluRep M lists s S)
    (place : Place s.mem.next s.mem.val (lists i).pHead (lists i).pMax v b)
    (present : s.mem.val (s.mem.next b) = v) (hi : v < listValMax) {n : Ptr}
    (target : s.mem.forceActual n = some (.actual (s.mem.next (s.mem.next b)))) : ∃ s',
    Sequential.rluUnlink M s₂ (.copy ⟨uniqId, s.mem.wsCurId, 0⟩) (.copy ⟨uniqId, s.mem.wsCurId, 1⟩) n =
      some (.returned true s') ∧ RluRep M lists s' (Function.update S i ((S i).erase v)) ∧
    s'.mem.wsTailCounter = s.mem.wsTailCounter + 1 := by
  obtain ⟨m, stored, actual, rest, inv⟩ := locked.unlink rep place present hi target
  have even := rep.even
  have run := locked.runCounter
  have tail : m.wsTailCounter = s.mem.wsTailCounter := by rw [rest]
  have wb : m.wsWbCounter = s.mem.wsWbCounter := by rw [rest]
  have freed : m.freeNodes = s.mem.freeNodes := by rw [rest]
  have room := rep.room
  have few := rep.few
  have many : (m.freeNodes ++ [s.mem.next b]).length = s.mem.freeNodes.length + 1 := by
    rw [freed, List.length_append, List.length_singleton]
  obtain ⟨s', done, rep', tail'⟩ := inv.commit one two
    (t := { s₂ with
      mem := { m with freeNodes := m.freeNodes ++ [s.mem.next b] }
      runCounter := s₂.runCounter + 1
      isWriteDetected := false })
    (by show s₂.runCounter + 1 = _; omega) (by show (s₂.runCounter + 1) % 2 = 0; omega) locked.quiet
    (by show m.wsTailCounter < m.wsWbCounter + M; omega)
    (by show (m.freeNodes ++ [s.mem.next b]).length ≤ m.wsTailCounter - m.wsWbCounter + 1; omega)
  have room' : s₂.runCounter % 2 = 1 ∧ m.freeNodes.length + 1 < rluMaxFreeNodes := by
    rw [freed]
    unfold rluMaxFreeNodes
    unfold rluMaxWriteSets at two
    omega
  have freeing : RluState.free { s₂ with mem := m } (.copy ⟨uniqId, s.mem.wsCurId, 1⟩) =
      some { s₂ with mem := { m with freeNodes := m.freeNodes ++ [s.mem.next b] } } := by
    unfold RluState.free
    rw [actual, Option.bind_some]
    exact if_pos room'
  refine ⟨s', ?_, rep', tail'.trans (congrArg (· + 1) tail)⟩
  unfold Sequential.rluUnlink
  simp only [Option.bind_eq_bind, stored, freeing, Option.bind_some]
  have unlocked := readerUnlock_detected (M := M)
    (t := { s₂ with mem := { m with freeNodes := m.freeNodes ++ [s.mem.next b] } })
    (by show s₂.runCounter % 2 = 1; omega) locked.detected
  rw [unlocked, done]
  rfl

end Stores

end ReadLogUpdate.Sequential
