import ReadLogUpdate.Sequential.Copies

/-!
# Attempts

A call from `restart` on: the traversal finds the place of the key, the section changes the set or
leaves it, and a section that meets a lock of an earlier one is aborted, after which nothing is
locked.
-/

namespace ReadLogUpdate.Sequential

open Chain

/-! ### Fuel -/

section Fuel
variable {M fuel tries a : Nat} {list : ListT} {s : RluState} {v : Int} {op : Op}

theorem rluScan_mono {p q : Ptr} {r : Ptr × Ptr} (found : rluScan s v fuel p q = some r) (k : Nat) :
    rluScan s v (fuel + k) p q = some r := by
  induction fuel generalizing p q with
  | zero => cases found
  | succ fuel ih =>
    rw [Nat.add_right_comm]
    unfold rluScan at found ⊢
    obtain ⟨n, load, rest⟩ := Option.bind_eq_some_iff.mp found
    rw [load, Option.bind_some]
    by_cases stop : n.val ≥ v
    · rw [if_pos stop] at rest ⊢
      exact rest
    · rw [if_neg stop] at rest ⊢
      obtain ⟨p', deref, rest⟩ := Option.bind_eq_some_iff.mp rest
      rw [deref, Option.bind_some]
      exact ih rest

theorem rluSearch_mono {r : Ptr × Ptr} (found : rluSearch list s v fuel = some r) (k : Nat) :
    rluSearch list s v (fuel + k) = some r := by
  simp only [rluSearch, Option.bind_eq_bind, Option.bind_eq_some_iff] at found ⊢
  obtain ⟨prev, fst, n, load, next, snd, scan⟩ := found
  exact ⟨prev, fst, n, load, next, snd, rluScan_mono scan k⟩

theorem rluAttempt_mono {out : Outcome} (done : rluAttempt M list fuel s v a op = some out) (k : Nat) :
    rluAttempt M list (fuel + k) s v a op = some out := by
  simp only [rluAttempt, Option.bind_eq_bind, Option.bind_eq_some_iff] at done ⊢
  obtain ⟨s₁, lock, found, search, rest⟩ := done
  exact ⟨s₁, lock, found, rluSearch_mono search k, rest⟩

theorem rluList_mono {r : Bool × RluState} (done : rluList M list fuel v a op tries s = some r)
    (k : Nat) : rluList M list (fuel + k) v a op tries s = some r := by
  induction tries generalizing s with
  | zero => cases done
  | succ tries ih =>
    unfold rluList at done ⊢
    obtain ⟨out, attempt, rest⟩ := Option.bind_eq_some_iff.mp done
    rw [rluAttempt_mono attempt k, Option.bind_some]
    cases out with
    | returned r s' => exact rest
    | restart s' => exact ih rest

theorem RluCall.unique {r r' : Bool} {s' s'' : RluState} (fst : RluCall M list op v a s r s')
    (snd : RluCall M list op v a s r' s'') : r = r' ∧ s' = s'' := by
  obtain ⟨fuel, fst⟩ := fst
  obtain ⟨fuel', snd⟩ := snd
  have more := rluList_mono snd fuel
  rw [Nat.add_comm, rluList_mono fst fuel'] at more
  exact Prod.mk.inj (Option.some.inj more)

end Fuel

/-! ### The traversal -/

section Traversal
variable {ι : Type*} {M : Nat} {lists : ι → ListT} {m : RluMem} {s : RluState} {k rc o b : Nat}
  {S : ι → Finset Int} {v : Int} {i : ι}

theorem RluInv.pNext_eq (inv : RluInv M lists m k rc S)
    (reached : Path m.next (lists i).pMax (lists i).pHead o) (outer : o ≠ (lists i).pMax) :
    (m.content o).pNext = .actual (m.next o) := by
  have holds := inv.holds.each i
  have ne := holds.ne_zero (holds.lists.reached_next reached outer)
  unfold RluMem.next at ne ⊢
  cases eq : (m.content o).pNext with
  | null =>
    rw [eq] at ne
    exact absurd rfl ne
  | actual x => rfl
  | copy c => exact absurd eq (inv.plain o c)

theorem RluInv.rluScan (inv : RluInv M lists s.mem k rc S)
    (reads : s.isCheckLocks = false → s.mem.Unlocked) (hi : v < listValMax) {a : Nat}
    (scan : Scan s.mem.next s.mem.val v a b) (reached : Path s.mem.next (lists i).pMax (lists i).pHead a)
    (outer : a ≠ (lists i).pMax) : ∃ fuel, Sequential.rluScan s v fuel (s.mem.view a)
      (s.mem.view (s.mem.next a)) = some (s.mem.view b, s.mem.view (s.mem.next b)) := by
  induction scan with
  | @here a stop =>
    refine ⟨1, ?_⟩
    unfold Sequential.rluScan
    rw [inv.locks.load_view, Option.bind_some]
    exact if_pos (not_lt.mp stop)
  | @on a b below _ ih =>
    have there := (inv.holds.each i).lists.reached_next reached outer
    have inner : s.mem.next a ≠ (lists i).pMax := by
      intro eq
      rw [eq, (inv.holds.each i).maxVal] at below
      exact hi.not_gt below
    obtain ⟨fuel, found⟩ := ih there inner
    refine ⟨fuel + 1, ?_⟩
    unfold Sequential.rluScan
    have on : ¬ (s.mem.content (s.mem.next a)).val ≥ v := below.not_ge
    rw [inv.locks.load_view, Option.bind_some, if_neg on, inv.pNext_eq there inner,
      inv.locks.deref_view reads, Option.bind_some]
    exact found

theorem RluInv.rluSearch (inv : RluInv M lists s.mem k rc S)
    (reads : s.isCheckLocks = false → s.mem.Unlocked) (lo : listValMin < v) (hi : v < listValMax)
    (i : ι) : ∃ b fuel, Place s.mem.next s.mem.val (lists i).pHead (lists i).pMax v b ∧
      Sequential.rluSearch (lists i) s v fuel = some (s.mem.view b, s.mem.view (s.mem.next b)) := by
  obtain ⟨b, scan, place⟩ := (inv.holds.each i).scan lo hi
  obtain ⟨fuel, found⟩ := inv.rluScan reads hi scan (.refl _) (lists i).ne
  refine ⟨b, fuel, place, ?_⟩
  unfold Sequential.rluSearch
  simp only [Option.bind_eq_bind]
  rw [inv.locks.deref_view reads, Option.bind_some, inv.locks.load_view, Option.bind_some,
    inv.pNext_eq (.refl _) (lists i).ne, inv.locks.deref_view reads, Option.bind_some]
  exact found

end Traversal

/-! ### Entering and leaving -/

section Leave
variable {ι : Type*} {M : Nat} {lists : ι → ListT} {m : RluMem} {s s₁ t : RluState} {k rc o : Nat}
  {S : ι → Finset Int} {c : CopyAddr}

structure Entered (s s₁ : RluState) : Prop where
  mem : s₁.mem = s.mem
  runCounter : s₁.runCounter = s.runCounter + 1
  quiet : s₁.isSync = 0
  undetected : s₁.isWriteDetected = false
  reads : s₁.isCheckLocks = false → s₁.mem.Unlocked

theorem RluRep.readerLock (rep : RluRep M lists s S) : ∃ s₁, s.readerLock = some s₁ ∧ Entered s s₁ := by
  refine ⟨{ s with
    isWriteDetected := false
    isSteal := s.gWriterVersion != s.gCommitVersion
    isCheckLocks := !(s.gWriterVersion == s.gCommitVersion &&
      s.mem.wsTailCounter == s.mem.wsWbCounter)
    runCounter := s.runCounter + 1
    localVersion := s.gWriterVersion
    localCommitVersion := s.gCommitVersion }, ?_, rfl, rfl, rep.quiet, rfl, fun shortcut => ?_⟩
  · unfold RluState.readerLock RluState.syncCheckpoint RluState.register
    rw [if_pos rep.quiet, Option.bind_some, if_pos rep.even]
  · have both : (s.gWriterVersion == s.gCommitVersion &&
        s.mem.wsTailCounter == s.mem.wsWbCounter) = true := by
      simpa only [Bool.not_eq_false'] using shortcut
    have equal : s.mem.wsTailCounter = s.mem.wsWbCounter :=
      beq_iff_eq.mp (Bool.and_eq_true_iff.mp both).2
    intro o
    rcases rep.inv.locks.cases o with free | ⟨_, ctr, _, -, rest, lt, -⟩
    · exact free
    · omega

theorem RluRep.unlocked (rep : RluRep M lists s S) (one : M = 1) : s.mem.Unlocked := by
  intro o
  have room := rep.room
  rcases rep.inv.locks.cases o with free | ⟨_, ctr, _, -, rest, lt, -⟩
  · exact free
  · omega

theorem RluInv.later {rc' : Nat} (inv : RluInv M lists m 0 rc S) (le : rc ≤ rc') :
    RluInv M lists m 0 rc' S :=
  { inv with
    runs := fun ctr j e ge lt here => by
      obtain ⟨le', lt'⟩ := inv.runs ctr j e ge lt here
      exact ⟨by omega, fun before => (lt' before).trans_le le⟩ }

theorem RluRep.unlockRead (rep : RluRep M lists s S) (entered : Entered s s₁) :
    ∃ s', s₁.readerUnlock M = some s' ∧ RluRep M lists s' S ∧ s'.mem = s.mem := by
  obtain ⟨mem, run, quiet, undetected, -⟩ := entered
  have even := rep.even
  refine ⟨{ s₁ with runCounter := s₁.runCounter + 1 }, ?_, ⟨?_, ?_, quiet, ?_, ?_⟩, mem⟩
  · unfold RluState.readerUnlock
    rw [if_pos (by omega)]
    simp only [undetected, Bool.false_eq_true, if_false, Option.bind_some]
    unfold RluState.syncCheckpoint
    exact if_pos quiet
  · show RluInv M lists s₁.mem 0 (s₁.runCounter + 1) S
    rw [mem, run]
    exact rep.inv.later (by omega)
  · show (s₁.runCounter + 1) % 2 = 0
    omega
  · show s₁.mem.wsTailCounter < s₁.mem.wsWbCounter + M
    rw [mem]
    exact rep.room
  · show s₁.mem.freeNodes.length ≤ s₁.mem.wsTailCounter - s₁.mem.wsWbCounter
    rw [mem]
    exact rep.few

structure Restarted (M : Nat) (lists : ι → ListT) (s s' : RluState) (S : ι → Finset Int) : Prop where
  rep : RluRep M lists s' S
  unlocked : s'.mem.Unlocked
  fewer : ∀ c, s.mem.used c = false → s'.mem.used c = false
  tail : s'.mem.wsTailCounter = s.mem.wsTailCounter

theorem Synced.rep {s' : RluState} (one : 1 ≤ M) (synced : Synced M lists s s' S)
    (even : s.runCounter % 2 = 0) : RluRep M lists s' S where
  inv := synced.runCounter ▸ synced.inv
  even := synced.runCounter ▸ even
  quiet := synced.quiet
  room := by
    rw [synced.tail, synced.wb]
    omega
  few := by
    rw [synced.freeNodes]
    exact Nat.zero_le _

theorem RluRep.restarts (one : 1 ≤ M) (two : 2 * M ≤ rluMaxWriteSets) (rep : RluRep M lists s S)
    (held : s.mem.hdr o = .copy c) (mem : t.mem = s.mem) (run : t.runCounter = s.runCounter + 2)
    (sync : t.isSync = 1) : ∃ s', t.syncCheckpoint = some s' ∧ Restarted M lists s s' S := by
  have even := rep.even
  obtain ⟨ctr, -, le, lt, -⟩ := rep.inv.locks.entry held
  have head := rep.inv.head_le_wb
  have inv : RluInv M lists t.mem 0 t.runCounter S := by
    rw [mem, run]
    exact rep.inv.later (by omega)
  have due : t.mem.wsTailCounter ≠ t.mem.wsHeadCounter := by
    rw [mem]
    omega
  obtain ⟨s', done, synced⟩ := inv.sync two (by omega) due
  refine ⟨s', ?_, synced.rep one (by omega), synced.unlocked, ?_, synced.tail.trans (by rw [mem])⟩
  · unfold RluState.syncCheckpoint
    rw [if_neg (by omega), done]
  · rw [← mem]
    exact synced.fewer

/-- The state in `rlu_commit_write_set` once the counter has moved. -/
def RluState.committed (t : RluState) : RluState :=
  { t with
    mem := { t.mem with
      wsTailCounter := t.mem.wsTailCounter + 1
      wsCurId := wsIndex (t.mem.wsTailCounter + 1) } }

theorem RluState.commitWriteSet_eq : t.commitWriteSet M =
    (if wsIndex t.committed.mem.wsTailCounter = wsIndex t.committed.mem.wsHeadCounter ∨
        t.committed.mem.wsTailCounter - t.committed.mem.wsWbCounter ≥ M then
      t.committed.syncAndWriteback
    else some t.committed).bind fun s =>
      if s.mem.wsTailCounter > s.mem.wsHeadCounter ∧
        wsIndex s.mem.wsTailCounter ≠ wsIndex s.mem.wsHeadCounter then some s
      else none := rfl

/-- The commit of a section, and the sync that may follow. -/
theorem RluInv.commit (one : 1 ≤ M) (two : 2 * M ≤ rluMaxWriteSets)
    (inv : RluInv M lists t.mem 1 rc S) (run : t.runCounter = rc + 1) (even : t.runCounter % 2 = 0)
    (quiet : t.isSync = 0) (room : t.mem.wsTailCounter < t.mem.wsWbCounter + M)
    (few : t.mem.freeNodes.length ≤ t.mem.wsTailCounter - t.mem.wsWbCounter + 1) :
    ∃ s', (t.commitWriteSet M).bind RluState.syncCheckpoint = some s' ∧ RluRep M lists s' S ∧
      s'.mem.wsTailCounter = t.mem.wsTailCounter + 1 := by
  have head := inv.head_le_wb
  have tail := inv.wb_le_tail
  have wb := inv.wb_le
  have inv' : RluInv M lists t.committed.mem 0 t.committed.runCounter S := {
    locks := ⟨inv.locks.held, inv.locks.logged, inv.locks.unmarked⟩
    runs := fun ctr j e le lt here => by
      have waits := (inv.runs ctr j e le lt here).1
      have later : t.committed.runCounter = rc + 1 := run
      exact ⟨by omega, fun _ => by omega⟩
    lockedUsed := inv.lockedUsed
    empty := inv.empty
    head_le_wb := head
    wb_le_tail := Nat.le_succ_of_le tail
    tail_le := room
    wb_le := wb
    curId := rfl
    holds := inv.holds
    plain := inv.plain
    freed := inv.freed }
  have tail' : t.committed.mem.wsTailCounter = t.mem.wsTailCounter + 1 := rfl
  have wb' : t.committed.mem.wsWbCounter = t.mem.wsWbCounter := rfl
  have head' : t.committed.mem.wsHeadCounter = t.mem.wsHeadCounter := rfl
  rw [RluState.commitWriteSet_eq]
  by_cases due : wsIndex t.committed.mem.wsTailCounter = wsIndex t.committed.mem.wsHeadCounter ∨
      t.committed.mem.wsTailCounter - t.committed.mem.wsWbCounter ≥ M
  · obtain ⟨s', done, synced⟩ := inv'.sync two even (by omega)
    have newTail := synced.tail
    have newHead := synced.head
    have passes : s'.mem.wsTailCounter > s'.mem.wsHeadCounter ∧
        wsIndex s'.mem.wsTailCounter ≠ wsIndex s'.mem.wsHeadCounter :=
      ⟨by omega, (wsIndex_ne (by omega) (by omega)).symm⟩
    refine ⟨s', ?_, synced.rep one even, by omega⟩
    rw [if_pos due, done, Option.bind_some, if_pos passes, Option.bind_some]
    unfold RluState.syncCheckpoint
    exact if_pos synced.quiet
  · obtain ⟨other, small⟩ := not_or.mp due
    have few' : t.committed.mem.freeNodes.length ≤
        t.committed.mem.wsTailCounter - t.committed.mem.wsWbCounter := by
      show t.mem.freeNodes.length ≤ _
      omega
    refine ⟨t.committed, ?_, ⟨inv', even, quiet, by omega, few'⟩, tail'⟩
    rw [if_neg due, Option.bind_some, if_pos ⟨by omega, other⟩, Option.bind_some]
    unfold RluState.syncCheckpoint
    exact if_pos quiet

end Leave

end ReadLogUpdate.Sequential
