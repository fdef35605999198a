import ReadLogUpdate.Rlu.Control

/-!
# Control flow

Which control points a step leads to, with the line of every assertion that it can fire.
-/

namespace ReadLogUpdate

variable {ω : Type}

inductive PcKind where
  | init | idle | inSection | mustAbort | finished | fault
  | readerLock | deref | tryLock | writerLock | readerUnlock | abort
  | syncCheckpoint (k : Caller)
  | release (r : Releaser)
  | sync (k : Caller)
  | failed (line : Nat)
  deriving DecidableEq

def Pc.kind : Pc → PcKind
  | .init => .init
  | .idle => .idle
  | .inSection => .inSection
  | .mustAbort => .mustAbort
  | .finished => .finished
  | .fault _ => .fault
  | .readerLock _ => .readerLock
  | .deref _ => .deref
  | .tryLock _ => .tryLock
  | .writerLock _ => .writerLock
  | .readerUnlock => .readerUnlock
  | .abort _ => .abort
  | .syncCheckpoint k => .syncCheckpoint k
  | .release r _ => .release r
  | .sync k _ => .sync k
  | .failed line _ => .failed line

def Caller.nexts : Caller → List PcKind
  | .readerLock => [.readerLock]
  | .commit => [.release .commit, .failed 608, .failed 609]
  | .readerUnlock | .abort | .checkpoint => [.idle]
  | .finish => [.sync .finishAgain]
  | .finishAgain => [.finished]

def Pc.nexts : Pc → List PcKind
  | .init => [.idle, .fault]
  | .idle => [.syncCheckpoint .readerLock, .syncCheckpoint .checkpoint, .sync .finish]
  | .inSection => [.inSection, .deref, .tryLock, .writerLock, .readerUnlock, .abort, .fault,
      .failed 417, .failed 433, .failed 737, .failed 774, .failed 858, .failed 940]
  | .mustAbort => [.abort, .failed 433]
  | .syncCheckpoint k => .sync k :: k.nexts
  | .readerLock .register => [.readerLock, .failed 424]
  | .readerLock .loadCommit => [.inSection]
  | .readerLock _ => [.readerLock]
  | .deref _ => [.deref, .inSection]
  | .tryLock (.syncStore _) | .tryLock (.cas _) => [.tryLock, .mustAbort, .failed 942]
  | .tryLock (.copy _ _) => [.tryLock, .fault, .failed 305]
  | .tryLock (.check _) => [.inSection, .failed 927]
  | .tryLock (.header _) | .tryLock (.storeActual _) => [.tryLock, .fault]
  | .tryLock (.runCounter _ _) => [.tryLock, .inSection]
  | .tryLock _ => [.tryLock]
  | .writerLock _ => [.inSection, .writerLock, .mustAbort, .failed 209, .failed 215]
  | .readerUnlock => .sync .commit :: .release .readOnly :: Caller.nexts .commit
  | .abort .start => [.abort, .release .abortClean, .fault]
  | .abort (.unlock _ _) => [.abort, .release .abortWrite, .failed 401, .failed 405]
  | .abort (.unlockStore _ _) => [.abort]
  | .release .commit _ | .release .readOnly _ =>
    [.release .commit, .release .readOnly, .syncCheckpoint .readerUnlock, .failed 232, .fault]
  | .release _ _ =>
    [.release .abortWrite, .release .abortClean, .syncCheckpoint .abort, .failed 232, .fault]
  | .sync k .start => .sync k :: .failed 553 :: k.nexts
  | .sync k (.initLoop _) | .sync k (.waitLoop _ _) => [.sync k, .fault]
  | .sync k (.entry _ _) => [.sync k, .failed 332, .failed 573]
  | .sync k (.check _ _) => [.sync k, .failed 345, .fault]
  | .sync k (.freeCheck _) => .sync k :: .failed 450 :: k.nexts
  | .sync k (.free _) => [.sync k, .fault]
  | .sync k _ => [.sync k]
  | .finished | .failed _ _ | .fault _ => []

attribute [local simp] Pc.kind Caller.nexts Pc.nexts

theorem Pc.tryLock_of_nexts {pc : Pc} (h : PcKind.tryLock ∈ pc.nexts) :
    pc = .inSection ∨ ∃ q, pc = .tryLock q := by
  cases pc with
  | inSection => exact .inl rfl
  | tryLock q => exact .inr ⟨q, rfl⟩
  | syncCheckpoint k => cases k <;> simp at h
  | readerLock q => cases q <;> simp at h
  | abort q => cases q <;> simp at h
  | release r q => cases r <;> simp at h
  | sync k q => cases q <;> cases k <;> simp at h
  | _ => simp at h

theorem Pc.deref_of_nexts {pc : Pc} (h : PcKind.deref ∈ pc.nexts) :
    pc = .inSection ∨ ∃ q, pc = .deref q := by
  cases pc with
  | inSection => exact .inl rfl
  | deref q => exact .inr ⟨q, rfl⟩
  | syncCheckpoint k => cases k <;> simp at h
  | readerLock q => cases q <;> simp at h
  | tryLock q => cases q <;> simp at h
  | abort q => cases q <;> simp at h
  | release r q => cases r <;> simp at h
  | sync k q => cases q <;> cases k <;> simp at h
  | _ => simp at h

/-- Where the assertions about the headers of locked objects are made. -/
theorem Pc.lockAssertion_of_nexts {pc : Pc} {line : Nat} (h : PcKind.failed line ∈ pc.nexts)
    (mem : line ∈ [345, 405, 927]) :
    (∃ k ctr i, pc = .sync k (.check ctr i)) ∨ (∃ slot i, pc = .abort (.unlock slot i)) ∨
    ∃ o, pc = .tryLock (.check o) := by
  have line_cases : line = 345 ∨ line = 405 ∨ line = 927 := by simpa using mem
  cases pc with
  | syncCheckpoint k =>
    cases k <;> simp at h
    omega
  | readerLock q =>
    cases q <;> simp at h
    omega
  | tryLock q =>
    cases q with
    | check o => exact .inr (.inr ⟨o, rfl⟩)
    | _ => simp at h <;> omega
  | abort q =>
    cases q with
    | unlock slot i => exact .inr (.inl ⟨slot, i, rfl⟩)
    | _ => simp at h
  | release r q => cases r <;> simp at h <;> omega
  | sync k q =>
    cases q with
    | check ctr i => exact .inl ⟨k, ctr, i, rfl⟩
    | start | freeCheck => cases k <;> simp at h <;> omega
    | _ => simp at h <;> omega
  | _ => simp at h <;> omega

section Family
variable {cfg : Config} {t : Nat} {s : State ω} {th : Thread ω}

theorem afterSync_flow (k : Caller) : (afterSync th k).1.pc.kind ∈ k.nexts := by
  cases k with
  | commit =>
    simp only [afterSync]
    split_ifs <;> simp [Thread.go, Thread.fail]
  | _ => exact List.mem_cons_self

theorem readerLockStep_flow (pc : ReaderLockPc) :
    (readerLockStep s th pc).1.pc.kind ∈ (Pc.readerLock pc).nexts := by
  cases pc with
  | register =>
    simp only [readerLockStep]
    split_ifs <;> simp [Thread.go, Thread.fail]
  | _ => exact List.mem_cons_self

theorem derefStep_flow (pc : DerefPc) :
    (derefStep s t th pc).1.pc.kind ∈ (Pc.deref pc).nexts := by
  cases pc <;> simp only [derefStep, derefReturn] <;> (repeat' split) <;>
    simp [Thread.go]

theorem tryLockStep_flow (pc : TryLockPc) :
    (tryLockStep cfg s t th pc).1.pc.kind ∈ (Pc.tryLock pc).nexts := by
  cases pc with
  | header p =>
    cases p <;> simp only [tryLockStep, tryLockFree] <;> (repeat' split) <;>
      simp [Thread.go, Thread.fault]
  | owner | runCounter | syncStore | cas | check =>
    simp only [tryLockStep, tryLockFail, tryLockReturn]
    (repeat' split) <;> simp [Thread.go, Thread.fail]
  | storeActual | copy =>
    simp only [tryLockStep]
    split_ifs <;> simp [Thread.go, Thread.fail, Thread.fault]
  | _ => exact List.mem_cons_self

theorem writerLockStep_flow (pc : WriterLockPc) :
    (writerLockStep s t th pc).1.pc.kind ∈ (Pc.writerLock pc).nexts := by
  cases pc <;> simp only [writerLockStep] <;> split_ifs <;> simp [Thread.go]

theorem releaseStep_flow (r : Releaser) (pc : ReleasePc) :
    (releaseStep s t th r pc).1.pc.kind ∈ (Pc.release r pc).nexts := by
  cases pc <;> simp only [releaseStep] <;> (repeat' split) <;> cases r <;>
    simp [afterRelease, Thread.go, Thread.fail, Thread.fault]

theorem readerUnlockStep_flow :
    (readerUnlockStep cfg th).1.pc.kind ∈ Pc.readerUnlock.nexts := by
  simp only [readerUnlockStep]
  split_ifs
  · exact List.mem_cons_self
  · exact List.mem_cons_of_mem _ (List.mem_cons_of_mem _ (afterSync_flow .commit))
  · simp [Thread.go]

theorem abortStep_flow (pc : AbortPc) :
    (abortStep s t th pc).1.pc.kind ∈ (Pc.abort pc).nexts := by
  cases pc <;> simp only [abortStep] <;> (repeat' split) <;>
    simp [Thread.go, Thread.fail, Thread.fault]

theorem syncStep_flow (k : Caller) (pc : SyncPc) :
    (syncStep cfg s t th k pc).1.pc.kind ∈ (Pc.sync k pc).nexts := by
  cases pc with
  | start =>
    simp only [syncStep]
    split_ifs
    · exact List.mem_cons_of_mem _ (List.mem_cons_of_mem _ (afterSync_flow k))
    · exact List.mem_cons_self
    · simp [Thread.fail, Thread.go]
  | freeCheck i =>
    simp only [syncStep]
    repeat' split
    · exact List.mem_cons_self
    · simp [Thread.fail, Thread.go]
    · exact List.mem_cons_of_mem _ (List.mem_cons_of_mem _ (afterSync_flow k))
  | _ =>
    simp only [syncStep]
    (repeat' split) <;> simp [Thread.fail, Thread.fault, Thread.go]

theorem rluUnregisterThread_flow (pc : Pc) :
    (rluUnregisterThread th pc).1.pc.kind ∈ [pc.kind, .failed 433] := by
  unfold rluUnregisterThread
  split_ifs <;> simp [Thread.fail, Thread.go]

theorem callInSection_flow {op : Op ω} {e : Effect ω}
    (called : callInSection cfg s t th op = some e) : e.1.pc.kind ∈ Pc.inSection.nexts := by
  cases op with
  | readerLock | checkpoint | finish => cases called
  | readerUnlock | abort =>
    obtain rfl := Option.some.inj called
    simp only [rluUnregisterThread]
    split_ifs <;> simp [Thread.fail, Thread.go]
  | deref p | tryLock p | lock p | tryWriterLock l =>
    simp only [callInSection, ← apply_ite some, Option.some.injEq] at called
    subst called
    (repeat' split) <;> simp [derefReturn, Thread.fail, Thread.go]
  | store c w x =>
    simp only [callInSection] at called
    split_ifs at called
    obtain rfl := Option.some.inj called
    exact List.mem_cons_self
  | free p =>
    obtain rfl := Option.some.inj called
    simp only [rluFree]
    (repeat' split) <;> simp [Thread.fail, Thread.fault, Thread.go]

theorem call_flow {op : Op ω} {e : Effect ω} (called : call cfg s t th op th.pc = some e) :
    e.1.pc.kind ∈ th.pc.nexts := by
  cases hpc : th.pc with
  | idle =>
    rw [hpc] at called
    cases op with
    | readerLock | checkpoint | finish =>
      obtain rfl := Option.some.inj called
      simp [Thread.go]
    | _ => cases called
  | mustAbort =>
    rw [hpc] at called
    cases op with
    | abort =>
      obtain rfl := Option.some.inj called
      exact rluUnregisterThread_flow _
    | _ => cases called
  | inSection =>
    rw [hpc] at called
    exact callInSection_flow called
  | _ =>
    rw [hpc] at called
    cases called

theorem libStep_flow {e : Effect ω} (stepped : libStep cfg s t th th.pc = some e) :
    e.1.pc.kind ∈ th.pc.nexts := by
  cases hpc : th.pc with
  | idle | inSection | mustAbort | finished | failed | fault =>
    rw [hpc] at stepped
    cases stepped
  | init =>
    rw [hpc] at stepped
    rcases libStep_init stepped with ⟨-, rfl⟩ | rfl
    · exact List.mem_cons_self
    · simp [Thread.fault, Thread.go]
  | syncCheckpoint k =>
    rw [hpc] at stepped
    simp only [libStep, ← apply_ite some, Option.some.injEq] at stepped
    subst stepped
    split_ifs
    · exact List.mem_cons_of_mem _ (afterSync_flow k)
    · exact List.mem_cons_self
  | readerLock pc =>
    rw [hpc] at stepped
    obtain rfl := Option.some.inj stepped
    exact readerLockStep_flow pc
  | deref pc =>
    rw [hpc] at stepped
    obtain rfl := Option.some.inj stepped
    exact derefStep_flow pc
  | tryLock pc =>
    rw [hpc] at stepped
    obtain rfl := Option.some.inj stepped
    exact tryLockStep_flow pc
  | writerLock pc =>
    rw [hpc] at stepped
    obtain rfl := Option.some.inj stepped
    exact writerLockStep_flow pc
  | readerUnlock =>
    rw [hpc] at stepped
    obtain rfl := Option.some.inj stepped
    exact readerUnlockStep_flow
  | abort pc =>
    rw [hpc] at stepped
    obtain rfl := Option.some.inj stepped
    exact abortStep_flow pc
  | release r pc =>
    rw [hpc] at stepped
    obtain rfl := Option.some.inj stepped
    exact releaseStep_flow r pc
  | sync k pc =>
    rw [hpc] at stepped
    obtain rfl := Option.some.inj stepped
    exact syncStep_flow k pc

/-- The control points a step reaches are those that `Pc.nexts` lists. -/
theorem actEffect_flow {a : Act ω} {e : Effect ω} (act : ActEffect cfg s a t e) :
    e.1.pc.kind ∈ (s.thread t).pc.nexts := by
  rcases act with ⟨op, -, called⟩ | ⟨-, stepped⟩
  · exact call_flow called
  · exact libStep_flow stepped

theorem afterSync_start (k : Caller) {k' : Caller} {q : SyncPc}
    (e : (afterSync th k).1.pc = .sync k' q) : q = .start := by
  cases k with
  | commit =>
    simp only [afterSync] at e
    split_ifs at e <;> cases e
  | finish =>
    cases e
    rfl
  | _ => cases e

theorem actEffect_start {a : Act ω} {e : Effect ω} (act : ActEffect cfg s a t e) {k : Caller}
    {q : SyncPc} (hpc : e.1.pc = .sync k q) :
    q = .start ∨ ∃ k' q', (s.thread t).pc = .sync k' q' := by
  have flow := actEffect_flow act
  rw [hpc] at flow
  cases pc : (s.thread t).pc with
  | sync k' q' => exact .inr ⟨k', q', rfl⟩
  | idle =>
    rcases act with ⟨op, -, called⟩ | ⟨-, stepped⟩
    · rw [pc] at called
      cases op with
      | readerLock | checkpoint | finish =>
        obtain rfl := Option.some.inj called
        cases hpc
        try exact .inl rfl
      | _ => cases called
    · rw [pc] at stepped
      cases stepped
  | syncCheckpoint k' =>
    rcases act with ⟨op, -, called⟩ | ⟨-, stepped⟩
    · rw [pc] at called
      cases called
    · rw [pc] at stepped
      simp only [libStep, ← apply_ite some, Option.some.injEq] at stepped
      subst stepped
      split_ifs at hpc
      · exact .inl (afterSync_start k' hpc)
      · cases hpc
        exact .inl rfl
  | readerUnlock =>
    rcases act with ⟨op, -, called⟩ | ⟨-, stepped⟩
    · rw [pc] at called
      cases called
    · rw [pc] at stepped
      obtain rfl := Option.some.inj stepped
      simp only [readerUnlockStep] at hpc
      split_ifs at hpc
      · cases hpc
        exact .inl rfl
      · exact .inl (afterSync_start .commit hpc)
      · cases hpc
  | readerLock q' => rw [pc] at flow; cases q' <;> simp at flow
  | tryLock q' => rw [pc] at flow; cases q' <;> simp at flow
  | abort q' => rw [pc] at flow; cases q' <;> simp at flow
  | release r q' => rw [pc] at flow; cases r <;> simp at flow
  | _ => rw [pc] at flow; simp at flow

end Family

end ReadLogUpdate
