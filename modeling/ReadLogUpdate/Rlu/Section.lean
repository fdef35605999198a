import ReadLogUpdate.Rlu.Flow

/-!
# What a step does to its thread's section

The counters, the flags and the results of `RLU_DEREF` that make up the running section of a
thread change in `rlu_reader_lock`, in `RLU_DEREF` and in `rlu_unregister_thread` only.
-/

namespace ReadLogUpdate

variable {ω : Type}

/-- What a step with effect `e` does to the section of thread `t`. -/
inductive SectionStep (s : State ω) (t : Nat) (th : Thread ω) (e : Effect ω) : Prop
  | same (run : e.1.runCounter = th.runCounter) (version : e.1.localVersion = th.localVersion)
      (steal : e.1.isSteal = th.isSteal) (check : e.1.isCheckLocks = false → th.isCheckLocks = false)
      (derefs : e.1.derefs = th.derefs) (notLocking : th.pc.kind ≠ .readerLock)
      (notLocking' : e.1.pc.kind ≠ .readerLock)
  | outside (even : th.runCounter % 2 = 0) (run : e.1.runCounter = th.runCounter)
      (version : e.1.localVersion = th.localVersion)
      (locking : e.1.pc.kind = .readerLock → e.1.pc = .readerLock .register)
  | register (pc : th.pc = .readerLock .register)
      (effect : e =
        { th with runCounter := th.runCounter + 1, derefs := [] }.go (.readerLock .loadVersion))
  | loadVersion (pc : th.pc = .readerLock .loadVersion)
      (effect : e = th.go (.readerLock (.storeVersion s.gWriterVersion)))
  | storeVersion (v : Nat) (pc : th.pc = .readerLock (.storeVersion v))
      (effect : e = { th with localVersion := v }.go (.readerLock .loadCommit))
  | loadCommit (pc : th.pc = .readerLock .loadCommit)
      (effect : e = readerLockStep s th .loadCommit)
  | deref (p r : Ptr) (effect : e = derefReturn th p r)
      (source : th.pc = .inSection ∧ (th.isCheckLocks = false ∨ p = .null) ∧ r = p ∨
        ∃ pc, th.pc = .deref pc ∧ derefStep s t th pc = derefReturn th p r)
  | leave (odd : th.runCounter % 2 = 1) (run : e.1.runCounter = th.runCounter + 1)
      (version : e.1.localVersion = th.localVersion) (pc : e.1.pc.kind ≠ .readerLock)

structure Thread.SameSection (th th' : Thread ω) : Prop where
  run : th'.runCounter = th.runCounter
  version : th'.localVersion = th.localVersion
  steal : th'.isSteal = th.isSteal
  check : th'.isCheckLocks = false → th.isCheckLocks = false
  derefs : th'.derefs = th.derefs

section Family
variable {cfg : Config} {t : Nat} {s : State ω} {th : Thread ω}

theorem SectionStep.of_same {e : Effect ω} (same : th.SameSection e.1)
    (notLocking : th.pc.kind ≠ .readerLock) (notLocking' : e.1.pc.kind ≠ .readerLock) :
    SectionStep s t th e :=
  .same same.run same.version same.steal same.check same.derefs notLocking notLocking'

theorem readerLockStep_section {pc : ReaderLockPc} (hpc : th.pc = .readerLock pc)
    (even : pc = .register → th.runCounter % 2 = 0) :
    SectionStep s t th (readerLockStep s th pc) := by
  cases pc with
  | register =>
    simp only [readerLockStep, even rfl, ↓reduceIte]
    exact .register hpc rfl
  | loadVersion => exact .loadVersion hpc rfl
  | storeVersion v => exact .storeVersion v hpc rfl
  | loadCommit => exact .loadCommit hpc rfl

theorem derefStep_section {pc : DerefPc} (hpc : th.pc = .deref pc) :
    SectionStep s t th (derefStep s t th pc) := by
  have next (pc' : DerefPc) : SectionStep s t th (th.go (.deref pc')) :=
    .of_same ⟨rfl, rfl, rfl, id, rfl⟩ (by rw [hpc]; nofun) nofun
  have done {p r : Ptr} (eq : derefStep s t th pc = derefReturn th p r) :
      SectionStep s t th (derefStep s t th pc) := .deref p r eq (.inr ⟨pc, hpc, eq⟩)
  cases pc with
  | header p =>
    by_cases free : s.getCopy p = .null
    · exact done (if_pos free)
    · have eq : derefStep s t th (.header p) = th.go (.deref (.slow p)) := if_neg free
      rw [eq]
      exact next _
  | slow p =>
    cases e : s.getCopy p with
    | null => exact done (p := p) (r := p) (by simp only [derefStep, e])
    | ptrIdObjCopy => exact done (p := p) (r := p) (by simp only [derefStep, e])
    | copy c =>
      have eq : derefStep s t th (.slow p) = th.go (.deref (.owner p c)) := by
        simp only [derefStep, e]
      rw [eq]
      exact next _
  | owner p c =>
    by_cases mine : (s.wsObj c).threadId = t
    · exact done (if_pos mine)
    · by_cases steal : th.isSteal = true
      · have eq : derefStep s t th (.owner p c) =
            th.go (.deref (.version p c (s.wsObj c).threadId)) := by
          simp only [derefStep, mine, steal, ↓reduceIte]
        rw [eq]
        exact next _
      · exact done (p := p) (r := p) (by simp only [derefStep, mine, steal, ↓reduceIte]; rfl)
  | version p c thId =>
    cases e : (s.thread thId).writerVersion with
    | none => exact done (p := p) (r := p) (by simp only [derefStep, e])
    | some v =>
      by_cases le : v ≤ th.localVersion
      · exact done (p := p) (r := .copy c) (by simp only [derefStep, e, le, ↓reduceIte])
      · exact done (p := p) (r := p) (by simp only [derefStep, e, le, ↓reduceIte])

theorem tryLockStep_sameSection (pc : TryLockPc) :
    th.SameSection (tryLockStep cfg s t th pc).1 := by
  cases pc with
  | header p =>
    cases p <;> simp only [tryLockStep, tryLockFree] <;> (repeat' split) <;>
      first | exact ⟨rfl, rfl, rfl, id, rfl⟩ | exact ⟨rfl, rfl, rfl, by rintro ⟨⟩, rfl⟩
  | owner | runCounter | syncStore | storeActual | cas | copy | check =>
    simp only [tryLockStep, tryLockFail, tryLockReturn]
    (repeat' split) <;> exact ⟨rfl, rfl, rfl, id, rfl⟩
  | _ => exact ⟨rfl, rfl, rfl, id, rfl⟩

theorem writerLockStep_sameSection (pc : WriterLockPc) :
    th.SameSection (writerLockStep s t th pc).1 := by
  cases pc <;> simp only [writerLockStep] <;> split_ifs <;> exact ⟨rfl, rfl, rfl, id, rfl⟩

structure Thread.SameCounters (th th' : Thread ω) : Prop where
  run : th'.runCounter = th.runCounter
  version : th'.localVersion = th.localVersion
  locking : th'.pc.kind = .readerLock → th'.pc = .readerLock .register

theorem afterSync_sameCounters (th : Thread ω) (k : Caller) : th.SameCounters (afterSync th k).1 := by
  cases k with
  | commit =>
    simp only [afterSync]
    split_ifs <;> exact ⟨rfl, rfl, by rintro ⟨⟩⟩
  | readerLock => exact ⟨rfl, rfl, fun _ => rfl⟩
  | _ => exact ⟨rfl, rfl, by rintro ⟨⟩⟩

theorem releaseStep_sameCounters (r : Releaser) (pc : ReleasePc) :
    th.SameCounters (releaseStep s t th r pc).1 := by
  cases pc <;> simp only [releaseStep] <;> (repeat' split) <;> cases r <;>
    exact ⟨rfl, rfl, by rintro ⟨⟩⟩

theorem readerUnlockStep_sameCounters : th.SameCounters (readerUnlockStep cfg th).1 := by
  simp only [readerUnlockStep, afterSync]
  (repeat' split) <;> exact ⟨rfl, rfl, by rintro ⟨⟩⟩

theorem abortStep_sameCounters (pc : AbortPc) : th.SameCounters (abortStep s t th pc).1 := by
  cases pc <;> simp only [abortStep] <;> (repeat' split) <;> exact ⟨rfl, rfl, by rintro ⟨⟩⟩

theorem syncStep_sameCounters (k : Caller) (pc : SyncPc) :
    th.SameCounters (syncStep cfg s t th k pc).1 := by
  cases pc with
  | start =>
    simp only [syncStep]
    split_ifs
    · exact afterSync_sameCounters th k
    · exact ⟨rfl, rfl, by rintro ⟨⟩⟩
    · exact ⟨rfl, rfl, by rintro ⟨⟩⟩
  | reset =>
    simp only [syncStep, Thread.go]
    rw [rluResetWriteSets_rest]
    exact ⟨rfl, rfl, by rintro ⟨⟩⟩
  | freeCheck i =>
    simp only [syncStep]
    repeat' split
    · exact ⟨rfl, rfl, by rintro ⟨⟩⟩
    · exact ⟨rfl, rfl, by rintro ⟨⟩⟩
    · obtain ⟨run, version, locking⟩ := afterSync_sameCounters { th with freeNodes := [] } k
      exact ⟨run, version, locking⟩
  | _ =>
    simp only [syncStep]
    (repeat' split) <;> exact ⟨rfl, rfl, by rintro ⟨⟩⟩

theorem SectionStep.of_outside {e : Effect ω} (even : th.runCounter % 2 = 0)
    (same : th.SameCounters e.1) : SectionStep s t th e :=
  .outside even same.run same.version same.locking

theorem rluUnregisterThread_section {pc : Pc} (odd : th.runCounter % 2 = 1)
    (hpc : pc.kind ≠ .readerLock) : SectionStep s t th (rluUnregisterThread th pc) := by
  unfold rluUnregisterThread
  rw [if_pos odd]
  exact .leave odd rfl rfl hpc

theorem callInSection_section {op : Op ω} {e : Effect ω} (odd : th.runCounter % 2 = 1)
    (hpc : th.pc = .inSection) (called : callInSection cfg s t th op = some e) :
    SectionStep s t th e := by
  have same {e : Effect ω} (same : th.SameSection e.1) (kind : e.1.pc.kind ≠ .readerLock) :
      SectionStep s t th e := .of_same same (by rw [hpc]; rintro ⟨⟩) kind
  cases op with
  | readerLock | checkpoint | finish => cases called
  | readerUnlock =>
    obtain rfl := Option.some.inj called
    exact rluUnregisterThread_section odd (by rintro ⟨⟩)
  | abort =>
    obtain rfl := Option.some.inj called
    exact rluUnregisterThread_section odd (by rintro ⟨⟩)
  | deref p =>
    simp only [callInSection, ← apply_ite some, Option.some.injEq] at called
    subst called
    split_ifs with fast
    · exact .deref p p rfl (.inl ⟨hpc, fast, rfl⟩)
    · exact same ⟨rfl, rfl, rfl, id, rfl⟩ (by rintro ⟨⟩)
  | tryLock p | lock p | tryWriterLock l =>
    simp only [callInSection, ← apply_ite some, Option.some.injEq] at called
    subst called
    split_ifs <;> exact same ⟨rfl, rfl, rfl, id, rfl⟩ (by rintro ⟨⟩)
  | store c w x =>
    simp only [callInSection] at called
    split_ifs at called
    obtain rfl := Option.some.inj called
    exact same ⟨rfl, rfl, rfl, id, rfl⟩ (by rintro ⟨⟩)
  | free p =>
    obtain rfl := Option.some.inj called
    unfold rluFree
    split
    · exact same ⟨rfl, rfl, rfl, id, rfl⟩ (by rintro ⟨⟩)
    · rw [if_pos odd]
      refine same ⟨rfl, rfl, rfl, id, rfl⟩ ?_
      dsimp only [Thread.go]
      split_ifs <;> rintro ⟨⟩
    · exact same ⟨rfl, rfl, rfl, id, rfl⟩ (by rintro ⟨⟩)

theorem call_section {op : Op ω} {e : Effect ω} (h : ThreadOk cfg t th)
    (called : call cfg s t th op th.pc = some e) : SectionStep s t th e := by
  have control := h.control
  cases hpc : th.pc with
  | idle =>
    rw [hpc] at called control
    cases op with
    | readerLock | checkpoint | finish =>
      obtain rfl := Option.some.inj called
      exact .of_outside control.1 ⟨rfl, rfl, nofun⟩
    | _ => cases called
  | inSection =>
    rw [hpc] at called control
    exact callInSection_section control.1 hpc called
  | mustAbort =>
    rw [hpc] at called control
    cases op with
    | abort =>
      obtain rfl := Option.some.inj called
      exact rluUnregisterThread_section control.1 nofun
    | _ => cases called
  | _ =>
    rw [hpc] at called
    cases called

/-- Outside `rlu_reader_lock` and the section itself, the run counter is even. -/
theorem ThreadOk.even_of_sync (h : ThreadOk cfg t th) {k : Caller} {pc : SyncPc}
    (hpc : th.pc = .sync k pc) : th.runCounter % 2 = 0 := by
  have control := h.control
  rw [hpc] at control
  cases pc with
  | start | storeMax | commitAdd => exact control.1
  | loadSync | storeSync | freeCheck | free => exact control.1.1
  | entry => exact control.1.1
  | _ => exact control.1.1

theorem ThreadOk.even_of_release (h : ThreadOk cfg t th) {r : Releaser} {pc : ReleasePc}
    (hpc : th.pc = .release r pc) : th.runCounter % 2 = 0 := by
  have control := h.control
  rw [hpc] at control
  cases r with
  | abortWrite => exact control.1
  | commit | readOnly | abortClean => exact control.1.1

theorem ThreadOk.even_of_abort (h : ThreadOk cfg t th) {pc : AbortPc} (hpc : th.pc = .abort pc) :
    th.runCounter % 2 = 0 := by
  have control := h.control
  rw [hpc] at control
  cases pc <;> exact control.1.1

theorem libStep_section {e : Effect ω} (h : ThreadOk cfg t th)
    (stepped : libStep cfg s t th th.pc = some e) : SectionStep s t th e := by
  have control := h.control
  cases hpc : th.pc with
  | idle | inSection | mustAbort | finished | failed | fault =>
    rw [hpc] at stepped
    cases stepped
  | init =>
    rw [hpc] at stepped control
    rcases libStep_init stepped with ⟨-, rfl⟩ | rfl <;>
    exact .of_outside control.1 ⟨rfl, rfl, by rintro ⟨⟩⟩
  | syncCheckpoint k =>
    rw [hpc] at stepped control
    simp only [libStep, ← apply_ite some, Option.some.injEq] at stepped
    subst stepped
    refine .of_outside control.1.1 ?_
    split_ifs
    · exact afterSync_sameCounters th k
    · exact ⟨rfl, rfl, by rintro ⟨⟩⟩
  | readerLock pc =>
    rw [hpc] at stepped control
    obtain rfl := Option.some.inj stepped
    exact readerLockStep_section hpc fun e => by
      subst e
      exact control.1.1
  | deref pc =>
    rw [hpc] at stepped
    obtain rfl := Option.some.inj stepped
    exact derefStep_section hpc
  | tryLock pc =>
    rw [hpc] at stepped
    obtain rfl := Option.some.inj stepped
    refine .of_same (tryLockStep_sameSection pc) (by rw [hpc]; rintro ⟨⟩) fun locking => ?_
    have flow : PcKind.readerLock ∈ (Pc.tryLock pc).nexts := locking ▸ tryLockStep_flow pc
    cases pc <;> simp [Pc.nexts] at flow
  | writerLock pc =>
    rw [hpc] at stepped
    obtain rfl := Option.some.inj stepped
    refine .of_same (writerLockStep_sameSection pc) (by rw [hpc]; rintro ⟨⟩) fun locking => ?_
    have flow : PcKind.readerLock ∈ (Pc.writerLock pc).nexts := locking ▸ writerLockStep_flow pc
    cases pc <;> simp [Pc.nexts] at flow
  | readerUnlock =>
    rw [hpc] at stepped control
    obtain rfl := Option.some.inj stepped
    exact .of_outside control.1.1 readerUnlockStep_sameCounters
  | abort pc =>
    rw [hpc] at stepped
    obtain rfl := Option.some.inj stepped
    exact .of_outside (h.even_of_abort hpc) (abortStep_sameCounters pc)
  | release r pc =>
    rw [hpc] at stepped
    obtain rfl := Option.some.inj stepped
    exact .of_outside (h.even_of_release hpc) (releaseStep_sameCounters r pc)
  | sync k pc =>
    rw [hpc] at stepped
    obtain rfl := Option.some.inj stepped
    exact .of_outside (h.even_of_sync hpc) (syncStep_sameCounters k pc)

end Family

theorem actEffect_section {cfg : Config} {s : State ω} {a : Act ω} {t : Nat} {e : Effect ω}
    (h : ThreadOk cfg t (s.thread t)) (act : ActEffect cfg s a t e) :
    SectionStep s t (s.thread t) e := by
  rcases act with ⟨op, -, called⟩ | ⟨-, stepped⟩
  · exact call_section h called
  · exact libStep_section h stepped

end ReadLogUpdate
