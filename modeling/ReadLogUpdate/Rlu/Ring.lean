import ReadLogUpdate.Rlu.Ownership

/-!
# The ring of write sets between the calls of a thread

`p_cur` stands behind the last counted entry of a slot, except that a try-lock that lost its
compare-and-swap leaves it behind a header until `rlu_abort` resets the slot. With the
counters of `RingOk` this gives the state of the ring whenever a thread is outside the library.
Nothing is assumed of the other threads.
-/

namespace ReadLogUpdate

variable {ω : Type}

def Config.wsObjSize (cfg : Config) : Nat := wsObjHeaderSize + objHeaderSize + 8 * cfg.objWords

def Pc.filling : Pc → Bool
  | .tryLock (.cas _) | .tryLock (.copy _ _) => true
  | _ => false

/-- `p_cur` of the current slot may stand behind a header that is not counted. -/
def Pc.overhangs (write : Bool) : Pc → Bool
  | .tryLock (.cas _) | .tryLock (.copy _ _) => true
  | .mustAbort | .abort .start => write
  | .abort _ | .release .abortWrite _ | .failed _ _ | .fault _ => true
  | _ => false

def Thread.overhangs (th : Thread ω) : Bool := th.pc.overhangs th.isWriteDetected

structure PCurOk (cfg : Config) (th : Thread ω) : Prop where
  settled : ∀ slot, (slot = th.wsCurId → th.overhangs = false) →
    (th.objWriteSet slot).pCur = (th.objWriteSet slot).numOfObjs * cfg.wsObjSize
  filled : th.pc.filling = true →
    th.cur.pCur = th.cur.numOfObjs * cfg.wsObjSize + wsObjHeaderSize + objHeaderSize

/-! ### One step -/

section Step
variable {cfg : Config} {s : State ω} {t : Nat} {th th' : Thread ω}

def Thread.SameCounts (th th' : Thread ω) : Prop :=
  ∀ slot, (th'.objWriteSet slot).pCur = (th.objWriteSet slot).pCur ∧
    (th'.objWriteSet slot).numOfObjs = (th.objWriteSet slot).numOfObjs

theorem Thread.sameCounts_of_log (log : th'.objWriteSet = th.objWriteSet) : th.SameCounts th' :=
  fun slot => by simp [log]

theorem Thread.sameCounts_of_update {slot : Nat} {ws : WriteSet ω}
    (log : th'.objWriteSet = Function.update th.objWriteSet slot ws)
    (pCur : ws.pCur = (th.objWriteSet slot).pCur)
    (num : ws.numOfObjs = (th.objWriteSet slot).numOfObjs) : th.SameCounts th' := by
  intro slot'
  rw [log]
  by_cases eq : slot' = slot
  · subst eq
    rw [Function.update_self]
    exact ⟨pCur, num⟩
  · rw [Function.update_of_ne eq]
    exact ⟨rfl, rfl⟩

theorem PCurOk.of_settled (h : PCurOk cfg th) (calm : th.overhangs = false)
    (same : th.SameCounts th') (filling : th'.pc.filling = false) : PCurOk cfg th' where
  settled slot _ := by
    rw [(same slot).1, (same slot).2]
    exact h.settled slot fun _ => calm
  filled fills := by
    rw [filling] at fills
    cases fills

theorem PCurOk.of_overhangs (h : PCurOk cfg th) (beyond : th'.overhangs = true)
    (same : th.SameCounts th') (cur : th'.wsCurId = th.wsCurId)
    (filling : th'.pc.filling = true → th.pc.filling = true) : PCurOk cfg th' where
  settled slot calm := by
    rw [(same slot).1, (same slot).2]
    refine h.settled slot fun eq => ?_
    rw [calm (eq.trans cur.symm)] at beyond
    cases beyond
  filled fills := by
    unfold Thread.cur
    rw [cur, (same _).1, (same _).2]
    exact h.filled (filling fills)

theorem PCurOk.fail (h : PCurOk cfg th) (line : Nat) : PCurOk cfg (th.fail line).1 :=
  h.of_overhangs rfl (Thread.sameCounts_of_log rfl) rfl nofun

theorem PCurOk.fault (h : PCurOk cfg th) : PCurOk cfg th.fault.1 :=
  h.of_overhangs rfl (Thread.sameCounts_of_log rfl) rfl nofun

theorem PCurOk.go (h : PCurOk cfg th) (calm : th.overhangs = false)
    (log : th'.objWriteSet = th.objWriteSet) (filling : th'.pc.filling = false) : PCurOk cfg th' :=
  h.of_settled calm (Thread.sameCounts_of_log log) filling

theorem afterSync_pCur {k : Caller} (h : PCurOk cfg th) (calm : th.overhangs = false) :
    PCurOk cfg (afterSync th k).1 := by
  cases k with
  | commit =>
    simp only [afterSync]
    split_ifs <;> first | exact h.fail _ | exact h.go calm rfl rfl
  | _ => exact h.go calm rfl rfl

theorem readerLockStep_pCur {pc : ReaderLockPc} (h : PCurOk cfg th) (hpc : th.pc = .readerLock pc) :
    PCurOk cfg (readerLockStep s th pc).1 := by
  have calm : th.overhangs = false := by rw [Thread.overhangs, hpc]; rfl
  cases pc with
  | register =>
    simp only [readerLockStep]
    split_ifs
    · exact h.go calm rfl rfl
    · exact h.fail _
  | _ => exact h.go calm rfl rfl

theorem derefStep_pCur {pc : DerefPc} (h : PCurOk cfg th) (hpc : th.pc = .deref pc) :
    PCurOk cfg (derefStep s t th pc).1 := by
  have calm : th.overhangs = false := by rw [Thread.overhangs, hpc]; rfl
  cases pc <;> simp only [derefStep] <;> (repeat' split) <;> exact h.go calm rfl rfl

theorem writerLockStep_pCur {pc : WriterLockPc} (h : PCurOk cfg th) (hpc : th.pc = .writerLock pc) :
    PCurOk cfg (writerLockStep s t th pc).1 := by
  have calm : th.overhangs = false := by rw [Thread.overhangs, hpc]; rfl
  cases pc with
  | load l =>
    simp only [writerLockStep]
    split_ifs <;> exact h.go calm rfl rfl
  | cas l =>
    simp only [writerLockStep]
    split_ifs
    · exact h.of_settled calm (Thread.sameCounts_of_update rfl rfl rfl) rfl
    · exact h.of_settled calm (Thread.sameCounts_of_update rfl rfl rfl) rfl
    · exact h.of_settled calm (Thread.sameCounts_of_update rfl rfl rfl) rfl
    · exact h.go calm rfl rfl

theorem tryLockFree_pCur {o : Nat} (h : PCurOk cfg th) (calm : th.overhangs = false) :
    PCurOk cfg (tryLockFree th o).1 := by
  unfold tryLockFree
  split_ifs <;> exact h.go calm rfl rfl

theorem tryLockFail_pCur (h : PCurOk cfg th)
    (beyond : th.overhangs = false ∨ th.isWriteDetected = true) : PCurOk cfg (tryLockFail th).1 := by
  unfold tryLockFail
  split_ifs
  · exact h.fail _
  · rcases beyond with calm | write
    · exact h.go calm rfl rfl
    · exact h.of_overhangs write (Thread.sameCounts_of_log rfl) rfl nofun

theorem storeHeader_pCur {pc : TryLockPc} {f : WsObj ω → WsObj ω} (h : PCurOk cfg th)
    (calm : th.overhangs = false) (filling : (Pc.tryLock pc).filling = false) :
    PCurOk cfg ((th.storeHeader f th.cur.pCur).go (.tryLock pc)).1 :=
  h.of_settled calm (Thread.sameCounts_of_update rfl rfl rfl) filling

theorem tryLockStep_pCur {pc : TryLockPc} (ok : ThreadOk cfg t th) (h : PCurOk cfg th)
    (hpc : th.pc = .tryLock pc) : PCurOk cfg (tryLockStep cfg s t th pc).1 := by
  obtain ⟨inside, control⟩ : th.Inside cfg ∧ tryLockControl t th pc := by
    simpa [hpc, Control] using ok.control
  have calm (e : (Pc.tryLock pc).overhangs th.isWriteDetected = false) : th.overhangs = false := by
    rw [Thread.overhangs, hpc, e]
  cases pc with
  | header p =>
    cases p with
    | null => exact h.fault
    | copy c =>
      simp only [tryLockStep]
      split_ifs
      · exact h.go (calm rfl) rfl rfl
      · exact h.fault
    | actual o =>
      simp only [tryLockStep]
      split
      · exact tryLockFree_pCur h (calm rfl)
      · exact h.fault
      · exact h.go (calm rfl) rfl rfl
  | actual | sendLoad | sendStore | syncLoad => exact h.go (calm rfl) rfl rfl
  | owner | runCounter =>
    simp only [tryLockStep]
    split_ifs <;> exact h.go (calm rfl) rfl rfl
  | syncStore v => exact tryLockFail_pCur h (.inl (calm rfl))
  | storeActual o =>
    simp only [tryLockStep]
    split_ifs
    · exact storeHeader_pCur h (calm rfl) rfl
    · exact h.fault
  | storeRun o | storeId o => exact storeHeader_pCur h (calm rfl) rfl
  | storeMark o =>
    refine ⟨fun slot settled => ?_, fun _ => ?_⟩
    · have ne : slot ≠ th.wsCurId := fun eq => Bool.noConfusion (settled eq)
      show (Function.update th.objWriteSet th.wsCurId _ slot).pCur =
        (Function.update th.objWriteSet th.wsCurId _ slot).numOfObjs * _
      rw [Function.update_of_ne ne]
      exact h.settled slot fun eq => absurd eq ne
    · show (Function.update th.objWriteSet th.wsCurId _ th.wsCurId).pCur =
        (Function.update th.objWriteSet th.wsCurId _ th.wsCurId).numOfObjs * _ + _ + _
      rw [Function.update_self]
      show th.cur.pCur + _ + _ = th.cur.numOfObjs * _ + _ + _
      rw [show th.cur.pCur = th.cur.numOfObjs * cfg.wsObjSize from
        h.settled th.wsCurId fun _ => calm rfl]
  | cas o =>
    simp only [tryLockStep]
    split_ifs
    · exact h.of_overhangs rfl (Thread.sameCounts_of_log rfl) rfl fun _ => by rw [hpc]; rfl
    · exact tryLockFail_pCur h (.inr control.1)
  | copy o w =>
    simp only [tryLockStep]
    split_ifs
    · exact h.of_overhangs rfl (Thread.sameCounts_of_update rfl rfl rfl) rfl fun _ => by
        rw [hpc]
        rfl
    · exact h.fault
    · -- the entry is counted from here on, and `p_cur` stands behind its copy
      refine ⟨fun slot _ => ?_, by rintro ⟨⟩⟩
      show (Function.update th.objWriteSet th.wsCurId _ slot).pCur =
        (Function.update th.objWriteSet th.wsCurId _ slot).numOfObjs * _
      by_cases eq : slot = th.wsCurId
      · subst eq
        rw [Function.update_self]
        show th.cur.pCur + _ = (th.cur.numOfObjs + 1) * _
        rw [h.filled (by rw [hpc]; rfl), Nat.add_mul, Nat.one_mul]
        exact (Nat.add_assoc _ _ _).trans ((Nat.add_assoc _ _ _).trans
          (congrArg _ (Nat.add_assoc _ _ _).symm))
      · rw [Function.update_of_ne eq]
        exact h.settled slot fun e => absurd e eq
    · exact h.fail _
  | check o =>
    simp only [tryLockStep]
    split_ifs
    · exact h.go (calm rfl) rfl rfl
    · exact h.fail _

theorem reset_pCur {slot : Nat} (h : PCurOk cfg th)
    (log : th'.objWriteSet = Function.update th.objWriteSet slot (th.objWriteSet slot).reset)
    (beyond : th.overhangs = true → slot = th.wsCurId) (filling : th'.pc.filling = false) :
    PCurOk cfg th' where
  settled slot' _ := by
    rw [log]
    by_cases eq : slot' = slot
    · subst eq
      rw [Function.update_self]
      exact (Nat.zero_mul _).symm
    · rw [Function.update_of_ne eq]
      refine h.settled slot' fun e => ?_
      by_contra beyond'
      exact eq (e.trans (beyond (by simpa using beyond')).symm)
  filled fills := by
    rw [filling] at fills
    cases fills

theorem releaseStep_pCur {r : Releaser} {pc : ReleasePc} (ok : ThreadOk cfg t th)
    (h : PCurOk cfg th) (hpc : th.pc = .release r pc) :
    PCurOk cfg (releaseStep s t th r pc).1 := by
  have beyond : th.overhangs = (Pc.release r pc).overhangs th.isWriteDetected := by
    rw [Thread.overhangs, hpc]
  cases pc with
  | check i =>
    simp only [releaseStep]
    split
    · split_ifs
      · cases r with
        | abortWrite => exact h.of_overhangs rfl (Thread.sameCounts_of_log rfl) rfl (by rintro ⟨⟩)
        | _ => exact h.go beyond rfl rfl
      · exact h.fail _
    · cases r with
      | commit => exact h.go beyond rfl rfl
      | readOnly | abortClean =>
        exact h.of_settled beyond (Thread.sameCounts_of_update rfl rfl rfl) rfl
      | abortWrite => exact reset_pCur h rfl (fun _ => ok.curId.symm) rfl
  | store i =>
    simp only [releaseStep]
    split
    · cases r with
      | abortWrite => exact h.of_overhangs rfl (Thread.sameCounts_of_log rfl) rfl (by rintro ⟨⟩)
      | _ => exact h.go beyond rfl rfl
    · exact h.fault

theorem readerUnlockStep_pCur (h : PCurOk cfg th) (hpc : th.pc = .readerUnlock) :
    PCurOk cfg (readerUnlockStep cfg th).1 := by
  have calm : th.overhangs = false := by rw [Thread.overhangs, hpc]; rfl
  simp only [readerUnlockStep]
  split_ifs
  · exact h.go calm rfl rfl
  · refine afterSync_pCur (h.go calm rfl ?_) ?_
    · show th.pc.filling = false
      rw [hpc]
      rfl
    · show th.pc.overhangs false = false
      rw [hpc]
      rfl
  · exact h.go calm rfl rfl

theorem abortStep_pCur {pc : AbortPc} (h : PCurOk cfg th) (hpc : th.pc = .abort pc) :
    PCurOk cfg (abortStep s t th pc).1 := by
  cases pc with
  | start =>
    simp only [abortStep]
    split_ifs with write
    · split <;> exact h.of_overhangs rfl (Thread.sameCounts_of_log rfl) rfl (by rintro ⟨⟩)
    · refine h.go ?_ rfl rfl
      rw [Thread.overhangs, hpc]
      show th.isWriteDetected = false
      simpa using write
  | unlock slot i =>
    simp only [abortStep]
    split_ifs
    · exact h.fail _
    · exact h.fail _
    · exact h.of_overhangs rfl (Thread.sameCounts_of_log rfl) rfl (by rintro ⟨⟩)
    · exact h.of_overhangs rfl (Thread.sameCounts_of_log rfl) rfl (by rintro ⟨⟩)
  | unlockStore slot i => exact h.of_overhangs rfl (Thread.sameCounts_of_log rfl) rfl (by rintro ⟨⟩)

theorem rluResetWriteSets_pCur (h : PCurOk cfg th) (calm : th.overhangs = false)
    (filling : th.pc.filling = false) (ctr n : Nat) : PCurOk cfg (th.rluResetWriteSets ctr n) := by
  induction n generalizing th ctr with
  | zero => exact h
  | succ n ih =>
    have first : PCurOk cfg (th.rluResetWriteSet ctr) :=
      reset_pCur h rfl (fun beyond => Bool.noConfusion (calm.symm.trans beyond)) filling
    exact ih first calm filling (ctr + 1)

theorem syncStep_pCur {k : Caller} {pc : SyncPc} (h : PCurOk cfg th) (hpc : th.pc = .sync k pc) :
    PCurOk cfg (syncStep cfg s t th k pc).1 := by
  have calm : th.overhangs = false := by rw [Thread.overhangs, hpc]; rfl
  cases pc with
  | reset =>
    have resets := rluResetWriteSets_pCur h calm (by rw [hpc]; rfl) th.wsHeadCounter
      (th.wsWbCounter - th.wsHeadCounter)
    refine resets.go ?_ rfl rfl
    rw [rluResetWriteSets_rest]
    exact calm
  | start =>
    simp only [syncStep]
    split_ifs
    · exact afterSync_pCur h calm
    · exact h.go calm rfl rfl
    · exact h.fail _
  | freeCheck i =>
    simp only [syncStep]
    split
    · split_ifs
      · exact h.go calm rfl rfl
      · exact h.fail _
    · exact afterSync_pCur (h.go calm rfl (by rw [hpc]; rfl)) calm
  | check ctr i =>
    simp only [syncStep]
    split
    · split_ifs
      · exact h.go calm rfl rfl
      · exact h.fail _
    · exact h.fault
  | entry ctr i =>
    simp only [syncStep]
    split_ifs
    · exact h.go calm rfl rfl
    · exact h.fail _
    · exact h.go calm rfl rfl
    · exact h.go calm rfl rfl
    · exact h.fail _
  | free i =>
    simp only [syncStep]
    split
    · exact h.go calm rfl rfl
    · exact h.fault
  | _ =>
    simp only [syncStep]
    repeat' split
    all_goals exact h.go calm rfl rfl

theorem libStep_pCur {e : Effect ω} (ok : ThreadOk cfg t th) (h : PCurOk cfg th)
    (stepped : libStep cfg s t th th.pc = some e) : PCurOk cfg e.1 := by
  cases hpc : th.pc with
  | idle | inSection | mustAbort | finished | failed _ _ | fault _ =>
    rw [hpc] at stepped
    cases stepped
  | syncCheckpoint k =>
    have calm : th.overhangs = false := by rw [Thread.overhangs, hpc]; rfl
    rw [hpc] at stepped
    simp only [libStep, ← apply_ite some, Option.some.injEq] at stepped
    subst stepped
    split_ifs
    · exact afterSync_pCur h calm
    · exact h.go calm rfl rfl
  | init =>
    have calm : th.overhangs = false := by rw [Thread.overhangs, hpc]; rfl
    rw [hpc] at stepped
    rcases libStep_init stepped with ⟨-, rfl⟩ | rfl
    · exact h.go calm rfl rfl
    · exact h.fault
  | _ =>
    rw [hpc] at stepped
    obtain rfl := Option.some.inj stepped
    first
    | exact readerLockStep_pCur h hpc
    | exact derefStep_pCur h hpc
    | exact tryLockStep_pCur ok h hpc
    | exact writerLockStep_pCur h hpc
    | exact readerUnlockStep_pCur h hpc
    | exact abortStep_pCur h hpc
    | exact releaseStep_pCur ok h hpc
    | exact syncStep_pCur h hpc

theorem rluUnregisterThread_pCur {pc : Pc} (h : PCurOk cfg th)
    (beyond : th.overhangs = pc.overhangs th.isWriteDetected) (filling : pc.filling = false) :
    PCurOk cfg (rluUnregisterThread th pc).1 := by
  unfold rluUnregisterThread
  split_ifs
  · cases eq : pc.overhangs th.isWriteDetected with
    | false => exact h.go (beyond.trans eq) rfl filling
    | true =>
      exact h.of_overhangs eq (Thread.sameCounts_of_log rfl) rfl fun fills =>
        Bool.noConfusion (filling.symm.trans fills)
  · exact h.fail _

theorem callInSection_pCur {op : Op ω} {e : Effect ω} (h : PCurOk cfg th)
    (hpc : th.pc = .inSection) (called : callInSection cfg s t th op = some e) :
    PCurOk cfg e.1 := by
  have calm : th.overhangs = false := by rw [Thread.overhangs, hpc]; rfl
  cases op with
  | readerLock | checkpoint | finish => cases called
  | readerUnlock =>
    obtain rfl := Option.some.inj called
    exact rluUnregisterThread_pCur h calm rfl
  | abort =>
    obtain rfl := Option.some.inj called
    unfold rluUnregisterThread
    split_ifs
    · exact h.go calm rfl rfl
    · exact h.fail _
  | store c w x =>
    simp only [callInSection] at called
    split_ifs at called
    obtain rfl := Option.some.inj called
    exact h.of_settled calm (Thread.sameCounts_of_update rfl rfl rfl) rfl
  | free p =>
    obtain rfl := Option.some.inj called
    unfold rluFree
    split
    · exact h.go calm rfl rfl
    · split_ifs
      · exact h.go calm rfl rfl
      · exact h.go calm rfl rfl
      · exact h.fail _
    · exact h.fault
  | _ =>
    simp only [callInSection, ← apply_ite some, Option.some.injEq] at called
    subst called
    split_ifs <;> first | exact h.fail _ | exact h.go calm rfl rfl

theorem call_pCur {op : Op ω} {e : Effect ω} (h : PCurOk cfg th)
    (called : call cfg s t th op th.pc = some e) : PCurOk cfg e.1 := by
  cases hpc : th.pc with
  | idle =>
    rw [hpc] at called
    have calm : th.overhangs = false := by rw [Thread.overhangs, hpc]; rfl
    cases op with
    | readerLock | checkpoint | finish =>
      obtain rfl := Option.some.inj called
      exact h.go calm rfl rfl
    | _ => cases called
  | inSection =>
    rw [hpc] at called
    exact callInSection_pCur h hpc called
  | mustAbort =>
    rw [hpc] at called
    cases op with
    | abort =>
      obtain rfl := Option.some.inj called
      exact rluUnregisterThread_pCur h (by rw [Thread.overhangs, hpc]; rfl) rfl
    | _ => cases called
  | _ =>
    rw [hpc] at called
    cases called

end Step

/-! ### Between calls -/

section Ring
variable {cfg : Config} {t : Nat} {th : Thread ω}

/-- `t` is not inside a library call. -/
def Pc.outsideLibrary : Pc → Prop
  | .idle | .inSection | .mustAbort | .finished => True
  | _ => False

theorem Pc.outsideLibrary_of_kind {pc : Pc} (kind : pc.kind = .inSection) : pc.outsideLibrary := by
  cases pc with
  | inSection => trivial
  | _ => cases kind

def Pc.openSection : Pc → Prop
  | .inSection | .mustAbort => True
  | _ => False

/-- The counters are in order and the slots outside them are empty. -/
structure Thread.Ring (cfg : Config) (th : Thread ω) : Prop where
  head_le_wb : th.wsHeadCounter ≤ th.wsWbCounter
  wb_le_tail : th.wsWbCounter ≤ th.wsTailCounter
  wb_sub_head : th.wsWbCounter - th.wsHeadCounter ≤ cfg.maxWriteSets
  tail_sub_wb : th.wsTailCounter - th.wsWbCounter < cfg.maxWriteSets
  curId : th.wsCurId = th.wsTailCounter % rluMaxWriteSets
  empty : ∀ slot,
    (∀ ctr, th.wsHeadCounter ≤ ctr → ctr < th.wsTailCounter → wsIndex ctr ≠ slot) →
    ¬ (th.pc.openSection ∧ slot = th.wsCurId) → (th.objWriteSet slot).Empty

/-- The first test of `rlu_commit_write_set`, after the counter has moved. -/
def Thread.ringFull (th : Thread ω) : Prop :=
  wsIndex (th.wsTailCounter + 1) = wsIndex th.wsHeadCounter

def Thread.limitReached (cfg : Config) (th : Thread ω) : Prop :=
  th.wsTailCounter + 1 - th.wsWbCounter ≥ cfg.maxWriteSets

theorem ThreadOk.empty_of_closed (ok : ThreadOk cfg t th) (h : PCurOk cfg th) {slot : Nat}
    (outside : ∀ ctr, th.wsHeadCounter ≤ ctr → ctr < th.wsTailCounter → wsIndex ctr ≠ slot)
    (closed : slot = th.wsCurId → th.pc.closed)
    (settled : slot = th.wsCurId → th.overhangs = false) : (th.objWriteSet slot).Empty := by
  obtain ⟨num, locks⟩ := ok.empty slot outside closed
  refine ⟨num, ?_, locks⟩
  rw [h.settled slot settled, num, Nat.zero_mul]

theorem Thread.ring_of_ok (ok : ThreadOk cfg t th) (h : PCurOk cfg th)
    (outside : th.pc.outsideLibrary) : th.Ring cfg := by
  have strict : th.wsTailCounter < th.wsWbCounter + cfg.maxWriteSets := by
    have control := ok.control
    cases hpc : th.pc with
    | idle | finished | inSection | mustAbort =>
      rw [hpc] at control
      exact control.2.1
    | _ =>
      rw [hpc] at outside
      exact outside.elim
  have wb_le_tail := ok.wb_le_tail
  refine ⟨ok.head_le_wb, wb_le_tail, by have := ok.wb_le_head; omega, by omega, ok.curId,
    fun slot none other => ?_⟩
  have closed (eq : slot = th.wsCurId) : th.pc.closed ∧ th.overhangs = false := by
    unfold Thread.overhangs
    cases hpc : th.pc with
    | idle | finished => exact ⟨trivial, rfl⟩
    | inSection | mustAbort =>
      rw [hpc] at other
      exact absurd ⟨trivial, eq⟩ other
    | _ =>
      rw [hpc] at outside
      exact outside.elim
  exact ok.empty_of_closed h none (fun eq => (closed eq).1) fun eq => (closed eq).2

/-- A commit moves the tail by one, so it can only meet the head a full limit after the
write-back counter. -/
theorem Thread.limitReached_of_ringFull (ok : ThreadOk cfg t th)
    (full : th.ringFull) : th.limitReached cfg := by
  unfold Thread.ringFull at full
  unfold Thread.limitReached
  by_contra below
  have := ok.head_le_wb
  have := ok.wb_le_tail
  have := ok.wb_le_head
  have := cfg.two_le
  have := wsIndex_inj full.symm (by omega) (by omega)
  omega

end Ring

/-! ### Every run -/

/-- The tail counter of thread `t` is below `2 ^ 31` whenever it acts. -/
def TailBelowOf (t : Nat) (s : State ω) (a : Act ω) : Prop := a.thread s = t → TailBelow s a

instance (t : Nat) (s : State ω) (a : Act ω) : Decidable (TailBelowOf t s a) :=
  inferInstanceAs (Decidable (_ → _))

theorem ActEffect.thread_eq {cfg : Config} {s : State ω} {a : Act ω} {t : Nat} {e : Effect ω}
    (act : ActEffect cfg s a t e) : a.thread s = t := by
  rcases act with ⟨op, rfl, -⟩ | ⟨rfl, -⟩ <;> rfl

theorem actEffect_pCur {cfg : Config} {s : State ω} {a : Act ω} {t : Nat} {e : Effect ω}
    (ok : ThreadOk cfg t (s.thread t)) (h : PCurOk cfg (s.thread t))
    (act : ActEffect cfg s a t e) : PCurOk cfg e.1 := by
  rcases act with ⟨op, -, called⟩ | ⟨rfl, stepped⟩
  · exact call_pCur h called
  · exact libStep_pCur ok h stepped

section Runs
variable [Inhabited ω] {cfg : Config} {t : Nat} {s : State ω}

theorem PCurOk.init : PCurOk (ω := ω) cfg Thread.init :=
  ⟨fun _ _ => (Nat.zero_mul _).symm, nofun⟩

theorem step_ring {s' : State ω} {a : Act ω} (right : a.thread s = t → RightSlot s a)
    (inv : ThreadOk cfg t (s.thread t) ∧ PCurOk cfg (s.thread t)) (hs : step cfg s a = some s') :
    ThreadOk cfg t (s'.thread t) ∧ PCurOk cfg (s'.thread t) := by
  rcases step_cases hs with ⟨rfl, rfl⟩ | ⟨u, e, -, act, rfl⟩
  · dsimp only
    by_cases eq : t = s.gCurThreads
    · rw [eq, Function.update_self]
      exact ⟨ThreadOk.init cfg _, PCurOk.init⟩
    · rw [Function.update_of_ne eq]
      exact inv
  · rw [State.apply_thread]
    by_cases eq : t = u
    · subst eq
      rw [Function.update_self]
      exact ⟨actEffect_ok inv.1 (right act.thread_eq) act, actEffect_pCur inv.1 inv.2 act⟩
    · rw [Function.update_of_ne eq]
      exact inv

theorem init_ring (h : Init s) : ThreadOk cfg t (s.thread t) ∧ PCurOk cfg (s.thread t) := by
  obtain ⟨obj, rfl⟩ := h
  exact ⟨ThreadOk.init cfg t, PCurOk.init⟩

/-- The ring of one thread does not depend on what the others do. -/
theorem reachable_ring {ok : State ω → Act ω → Prop}
    (right : ∀ s a, ok s a → a.thread s = t → RightSlot s a)
    (h : System.Reachable Init (step cfg) ok s) :
    ThreadOk cfg t (s.thread t) ∧ PCurOk cfg (s.thread t) :=
  System.Reachable.invariant
    (fun s : State ω => ThreadOk cfg t (s.thread t) ∧ PCurOk cfg (s.thread t))
    (fun _ => init_ring) (fun s a _ inv hok hs => step_ring (right s a hok) inv hs) h

end Runs

end ReadLogUpdate
