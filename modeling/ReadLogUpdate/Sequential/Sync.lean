import ReadLogUpdate.Sequential.Pending

/-!
# Deferred write sets

What holds between the calls of a thread that defers its write-backs: the lists in what it reads, and
the locks of the write sets that wait. A sync keeps the lists and leaves no lock.
-/

namespace ReadLogUpdate.Sequential

open Chain

def FreedApart {ι : Type*} (lists : ι → ListT) (m : RluMem) : Prop :=
  ∀ o ∈ m.freeNodes, m.used o = true ∧ ∀ i, ¬ Path m.next (lists i).pMax (lists i).pHead o

/-- The log of the thread: the write sets below the tail wait, and with `k = 1` the one at the tail
belongs to a running section, whose `run_counter` is `rc`. -/
structure Logged (M : Nat) (m : RluMem) (k rc : Nat) : Prop where
  locks : m.Locks m.wsWbCounter 0 (m.wsTailCounter + k)
  runs : ∀ (ctr j : Nat) (e : Entry), m.wsWbCounter ≤ ctr → ctr < m.wsTailCounter + k →
    (m.log (wsIndex ctr))[j]? = some e → e.runCounter ≤ rc ∧ (ctr < m.wsTailCounter → e.runCounter < rc)
  lockedUsed : ∀ o c, m.hdr o = .copy c → m.used o = true
  empty : ∀ slot, (∀ ctr, m.wsHeadCounter ≤ ctr → ctr < m.wsTailCounter + k → wsIndex ctr ≠ slot) →
    m.log slot = []
  head_le_wb : m.wsHeadCounter ≤ m.wsWbCounter
  wb_le_tail : m.wsWbCounter ≤ m.wsTailCounter
  tail_le : m.wsTailCounter ≤ m.wsWbCounter + M
  wb_le : m.wsWbCounter ≤ m.wsHeadCounter + M
  curId : m.wsCurId = wsIndex m.wsTailCounter

structure RluInv {ι : Type*} (M : Nat) (lists : ι → ListT) (m : RluMem) (k rc : Nat)
    (S : ι → Finset Int) : Prop extends Logged M m k rc where
  holds : HoldsAll lists m.next m.val m.used S
  plain : ∀ o c, (m.content o).pNext ≠ .copy c
  freed : FreedApart lists m

structure RluRep {ι : Type*} (M : Nat) (lists : ι → ListT) (s : RluState) (S : ι → Finset Int) :
    Prop where
  inv : RluInv M lists s.mem 0 s.runCounter S
  even : s.runCounter % 2 = 0
  quiet : s.isSync = 0
  room : s.mem.wsTailCounter < s.mem.wsWbCounter + M
  few : s.mem.freeNodes.length ≤ s.mem.wsTailCounter - s.mem.wsWbCounter

section Sync
variable {ι : Type*} {M : Nat} {lists : ι → ListT} {m : RluMem} {s : RluState} {k rc : Nat}
  {S : ι → Finset Int}

structure Synced {ι : Type*} (M : Nat) (lists : ι → ListT) (s s' : RluState) (S : ι → Finset Int) :
    Prop where
  inv : RluInv M lists s'.mem 0 s.runCounter S
  unlocked : s'.mem.Unlocked
  quiet : s'.isSync = 0
  runCounter : s'.runCounter = s.runCounter
  tail : s'.mem.wsTailCounter = s.mem.wsTailCounter
  wb : s'.mem.wsWbCounter = s.mem.wsTailCounter
  head : s'.mem.wsHeadCounter = s.mem.wsWbCounter
  freeNodes : s'.mem.freeNodes = []
  fewer : ∀ c, s.mem.used c = false → s'.mem.used c = false

/-- The write sets that were written back before are reset; those that wait stay. -/
theorem RluInv.reset (two : 2 * M ≤ rluMaxWriteSets) (inv : RluInv M lists m 0 rc S) : ∃ log,
    RluMem.resetWriteSets (m.wsWbCounter - m.wsHeadCounter) m.wsHeadCounter m = { m with log := log } ∧
    (∀ ctr, m.wsWbCounter ≤ ctr → ctr < m.wsTailCounter → log (wsIndex ctr) = m.log (wsIndex ctr)) ∧
    ∀ slot, (∀ ctr, m.wsWbCounter ≤ ctr → ctr < m.wsTailCounter → wsIndex ctr ≠ slot) →
      log slot = [] := by
  have head := inv.head_le_wb
  have tail := inv.tail_le
  have wb := inv.wb_le
  obtain ⟨log, eq, reset, kept⟩ :=
    RluMem.resetWriteSets_eq (m.wsWbCounter - m.wsHeadCounter) m.wsHeadCounter m
  refine ⟨log, eq, fun ctr le lt => ?_, fun slot other => ?_⟩
  · exact kept _ fun k le' lt' => wsIndex_ne (by omega) (by omega)
  · by_cases old : ∃ k, m.wsHeadCounter ≤ k ∧ k < m.wsHeadCounter + (m.wsWbCounter - m.wsHeadCounter) ∧
        wsIndex k = slot
    · obtain ⟨k, le, lt, rfl⟩ := old
      exact reset k le lt
    · rw [kept slot fun k le lt same => old ⟨k, le, lt, same⟩]
      refine inv.empty slot fun ctr le lt same => ?_
      by_cases below : ctr < m.wsWbCounter
      · exact old ⟨ctr, le, by omega, same⟩
      · exact other ctr (by omega) lt same

/-- Only the write sets that wait hold locks: a log that keeps them keeps the locks. -/
theorem Logged.locks_kept (inv : Logged M m 0 rc) {log : Nat → List Entry}
    (kept : ∀ ctr, m.wsWbCounter ≤ ctr → ctr < m.wsTailCounter → log (wsIndex ctr) = m.log (wsIndex ctr)) :
    RluMem.Locks { m with log := log, wsHeadCounter := m.wsWbCounter } m.wsWbCounter 0
      m.wsTailCounter := by
  refine ⟨fun o c held => ?_, fun ctr j e rest lt here => ?_, fun o => inv.locks.unmarked o⟩
  · obtain ⟨ctr, e, rest, lt, owner, slot, here, actual⟩ := inv.locks.held o c held
    refine ⟨ctr, e, rest, lt, owner, slot, ?_, actual⟩
    show (log c.slot)[c.idx]? = some e
    rw [slot, kept ctr (by omega) lt, ← slot]
    exact here
  · have here : (log (wsIndex ctr))[j]? = some e := here
    rw [kept ctr (by omega) lt] at here
    exact inv.locks.logged ctr j e rest lt here

theorem Logged.content_kept (inv : Logged M m 0 rc) {log : Nat → List Entry}
    (kept : ∀ ctr, m.wsWbCounter ≤ ctr → ctr < m.wsTailCounter → log (wsIndex ctr) = m.log (wsIndex ctr))
    (o : Nat) :
    RluMem.content { m with log := log, wsHeadCounter := m.wsWbCounter } o = m.content o := by
  refine RluMem.content_congr inv.locks rfl (fun _ => rfl) fun c held => ?_
  obtain ⟨ctr, e, rest, lt, -, slot, -⟩ := inv.locks.held o c held
  show (log c.slot)[c.idx]? = (m.log c.slot)[c.idx]?
  rw [slot, kept ctr (by omega) lt]

theorem RluInv.sync (two : 2 * M ≤ rluMaxWriteSets) (inv : RluInv M lists s.mem 0 s.runCounter S)
    (even : s.runCounter % 2 = 0) (due : s.mem.wsTailCounter ≠ s.mem.wsHeadCounter) :
    ∃ s', s.syncAndWriteback = some s' ∧ Synced M lists s s' S := by
  obtain ⟨log, eq, kept, cleared⟩ := inv.reset two
  have le := inv.wb_le_tail
  have tail := inv.tail_le
  generalize reset : ({ s.mem with log := log, wsHeadCounter := s.mem.wsWbCounter } : RluMem) = m₁
  have locks₁ : m₁.Locks s.mem.wsWbCounter 0 s.mem.wsTailCounter := reset ▸ inv.locks_kept kept
  have content₁ (o : Nat) : m₁.content o = s.mem.content o := reset ▸ inv.content_kept kept o
  have near : s.mem.wsTailCounter ≤ s.mem.wsWbCounter + rluMaxWriteSets := by omega
  obtain ⟨m₂, written, same, unlocked⟩ :=
    locks₁.writebackWriteSets (s.mem.wsTailCounter - s.mem.wsWbCounter) (by omega) near
  obtain ⟨node, hdr, rfl⟩ : ∃ node hdr, m₂ = { m₁ with node := node, hdr := hdr } :=
    ⟨_, _, same.rest⟩
  obtain ⟨used, freed, spec⟩ := RluMem.freeAll_eq s.mem.freeNodes
    (m := { m₁ with node := node, hdr := hdr, wsWbCounter := s.mem.wsTailCounter }) unlocked
  subst reset
  have fewer (c : Nat) (free : s.mem.used c = false) : used c = false := by
    rw [spec c]
    split
    · rfl
    · exact free
  refine ⟨{ s with
    mem := { s.mem with
      node := node
      hdr := hdr
      log := log
      used := used
      wsHeadCounter := s.mem.wsWbCounter
      wsWbCounter := s.mem.wsTailCounter
      freeNodes := [] }
    isSync := 0
    gWriterVersion := s.gWriterVersion + 1
    gCommitVersion := s.gCommitVersion + 1 }, ?_, ?_, unlocked, rfl, rfl, rfl, rfl, rfl, rfl, fewer⟩
  · have back : s.mem.writebackWriteSetsAndUnlock = some { s.mem with
        node := node
        hdr := hdr
        log := log
        wsHeadCounter := s.mem.wsWbCounter
        wsWbCounter := s.mem.wsTailCounter } := by
      unfold RluMem.writebackWriteSetsAndUnlock
      rw [eq]
      exact congrArg (Option.map _) written
    unfold RluState.syncAndWriteback
    rw [if_pos even, if_neg due, back, Option.bind_some]
    unfold RluMem.processFree
    rw [freed]
    rfl
  have content (o : Nat) : RluMem.content { s.mem with
      node := node
      hdr := hdr
      log := log
      used := used
      wsHeadCounter := s.mem.wsWbCounter
      wsWbCounter := s.mem.wsTailCounter
      freeNodes := [] } o = s.mem.content o := (same.content o).trans (content₁ o)
  refine {
    holds := ?_
    plain := fun o c => by
      rw [content]
      exact inv.plain o c
    locks := ⟨fun o c held => ?_, fun ctr j e rest lt => ?_, fun o => ?_⟩
    runs := fun ctr j e ge lt => absurd ge (Nat.not_le_of_lt lt)
    lockedUsed := fun o c held => ?_
    freed := fun o mem => absurd mem List.not_mem_nil
    empty := cleared
    head_le_wb := le
    wb_le_tail := le_rfl
    tail_le := Nat.le_add_right _ _
    wb_le := tail
    curId := inv.curId }
  · exact absurd ((unlocked o).symm.trans held) (by rintro ⟨⟩)
  · have lt : ctr < s.mem.wsTailCounter := lt
    have rest : s.mem.wsTailCounter < ctr ∨ s.mem.wsTailCounter = ctr ∧ 0 ≤ j := rest
    omega
  · intro mark
    exact absurd ((unlocked o).symm.trans mark) (by rintro ⟨⟩)
  · exact absurd ((unlocked o).symm.trans held) (by rintro ⟨⟩)
  · rw [RluMem.next_congr content, RluMem.val_congr content]
    refine inv.holds.free (fun i c reached => ?_) fewer
    show used c = s.mem.used c
    rw [spec c]
    exact if_neg fun mem => (inv.freed c mem).2 i reached

end Sync

end ReadLogUpdate.Sequential
