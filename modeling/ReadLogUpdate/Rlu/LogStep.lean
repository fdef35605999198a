import ReadLogUpdate.Rlu.Control

/-!
# What a step does to the locks and the logs

Every step of a thread is one of eleven things to the object headers, the objects, the logs and
the versions in flight. The invariants about these are proved from this list.
-/

namespace ReadLogUpdate

variable {ω : Type}

/-- The scan and the wait of a sync, up to the reset of the recycled slots. -/
def Pc.waiting : Pc → Prop
  | .sync _ (.initLoop _) | .sync _ (.initThread _) | .sync _ (.initCounter _) => True
  | .sync _ .waitStart | .sync _ (.waitLoop _ _) | .sync _ (.waitCounter _ _) => True
  | .sync _ (.waitVersion _ _) | .sync _ .reset => True
  | _ => False

structure State.SameObjects (s s' : State ω) : Prop where
  hdr : s'.hdr = s.hdr
  obj : s'.obj = s.obj
  left : s'.left = s.left
  published : s'.published = s.published
  writerVersion : s'.gWriterVersion = s.gWriterVersion
  commitVersion : s'.gCommitVersion = s.gCommitVersion

structure Thread.SameLog (th th' : Thread ω) : Prop where
  window : th'.window = th.window
  log : th'.objWriteSet = th.objWriteSet
  live : ∀ ctr i, th'.Live ctr i ↔ th.Live ctr i

/-- New ids in a write set are its owner's, and no entry is made to point at a copy. -/
def WriteSet.Owned (ws : WriteSet ω) (t : Nat) (old : WriteSet ω) : Prop :=
  ∀ i, ((ws.buffer i).threadId = t ∨ (ws.buffer i).threadId = (old.buffer i).threadId) ∧
    ∀ c, (ws.buffer i).pObjCopy = .copy c → (old.buffer i).pObjCopy = .copy c

theorem WriteSet.Owned.modifyObj (ws : WriteSet ω) (t j : Nat) {f : WsObj ω → WsObj ω}
    (id : (f (ws.buffer j)).threadId = t ∨ (f (ws.buffer j)).threadId = (ws.buffer j).threadId)
    (mark : ∀ c, (f (ws.buffer j)).pObjCopy = .copy c → (ws.buffer j).pObjCopy = .copy c) :
    (ws.modifyObj j f).Owned t ws := by
  intro i
  by_cases e : i = j
  · subst e
    rw [WriteSet.modifyObj_buffer_self]
    exact ⟨id, mark⟩
  · rw [WriteSet.modifyObj_buffer_of_ne _ _ e]
    exact ⟨.inr rfl, fun _ same => same⟩

theorem WriteSet.Owned.refl (ws : WriteSet ω) (t : Nat) : ws.Owned t ws :=
  fun _ => ⟨.inr rfl, fun _ same => same⟩

/-- What a step of thread `t` from `s` to `s'` does to the locks, the objects and the logs. -/
inductive LogStep (cfg : Config) (t : Nat) (s s' : State ω) (th th' : Thread ω) : Prop
  | quiet (objects : s.SameObjects s') (log : th.SameLog th') (flight : th'.flight = th.flight)
      (waiting : th'.pc.waiting → th.pc.waiting)
  /-- The current write set changes, but for the objects that its live entries lock. -/
  | write (ws : WriteSet ω) (objects : s.SameObjects s') (window : th'.window = th.window)
      (log : th'.objWriteSet = Function.update th.objWriteSet th.wsCurId ws)
      (live : ∀ ctr i, th'.Live ctr i ↔ th.Live ctr i)
      (actual : ∀ i, th.Live th.wsTailCounter i →
        (ws.buffer i).pObjActual = (th.cur.buffer i).pObjActual)
      (owned : ws.Owned t th.cur) (strict : th.wsTailCounter < th.wsWbCounter + cfg.maxWriteSets)
      (flight : th.flight = none) (flight' : th'.flight = none) (waiting : ¬ th'.pc.waiting)
      (grows : th.runCounter % 2 = 0 ∨ th.cur.numOfObjs ≤ ws.numOfObjs)
      (contents : ∀ i < th.cur.numOfObjs,
        th.pc = .inSection ∨ (ws.buffer i).copy = (th.cur.buffer i).copy)
  | lock (o : Nat) (pc : th.pc = .tryLock (.cas o)) (free : s.hdr o = .null)
      (record : th' = { th with pc := .tryLock (.copy o 0) })
      (state : s' = s.apply t th' (.hdr o (.copy (th.nextCopy t))))
  | commit (pc' : Pc) (pc : th.pc = .readerUnlock) (detected : th.isWriteDetected = true)
      (next : pc' = .sync .commit .start ∨ pc' = .release .commit (.check 0))
      (record : th' = { th with
        isWriteDetected := false
        wsTailCounter := th.wsTailCounter + 1
        wsCurId := wsIndex (th.wsTailCounter + 1)
        pc := pc' })
      (state : s' = s.apply t th' (.commit th.currentObjs))
  | abortUnlock (i : Nat) (pc : th.pc = .abort (.unlockStore th.wsCurId i))
      (record : th' = { th with pc := .abort (.unlock th.wsCurId (i + 1)) })
      (state : s' = s.apply t th' (.hdr (th.cur.buffer i).pObjActual .null))
  | publish (k : Caller) (pc : th.pc = .sync k .fetchAdd)
      (record : th' = { th with flight := th.writerVersion, pc := .sync k (.initLoop 0) })
      (state : s' = s.apply t th' .addWriterVersion)
  | recycle (k : Caller) (pc : th.pc = .sync k .reset)
      (record : th' = { th with
        objWriteSet :=
          (th.rluResetWriteSets th.wsHeadCounter (th.wsWbCounter - th.wsHeadCounter)).objWriteSet
        wsHeadCounter := th.wsWbCounter
        pc := .sync k (.entry th.wsWbCounter 0) })
      (state : s' = s.apply t th' .none)
  | writeWord (k : Caller) (ctr i w : Nat) (pc : th.pc = .sync k (.copy ctr i w))
      (bound : w < cfg.objWords) (record : th' = { th with pc := .sync k (.copy ctr i (w + 1)) })
      (state : s' = s.apply t th' (.obj (th.entry ctr i).pObjActual w ((th.entry ctr i).copy w)))
  | unlock (k : Caller) (ctr i : Nat) (pc : th.pc = .sync k (.unlock ctr i))
      (record : th' = { th with pc := .sync k (.entry ctr (i + 1)) })
      (state : s' = s.apply t th' (.hdr (th.entry ctr i).pObjActual .null))
  | finishWb (k : Caller) (pc : th.pc = .sync k (.entry th.wsTailCounter 0))
      (record : th' = { th with wsWbCounter := th.wsTailCounter, pc := .sync k .storeMax })
      (state : s' = s.apply t th' .none)
  | commitVersion (k : Caller) (pc : th.pc = .sync k .commitAdd)
      (record : th' = { th with flight := none, pc := .sync k .loadSync })
      (state : s' = s.apply t th' .addCommitVersion)

def Write.Quiet : Write ω → Prop
  | .none | .isSync _ _ | .writerLock _ _ | .register | .free _ => True
  | _ => False

theorem State.apply_sameObjects (s : State ω) (t : Nat) (th : Thread ω) {w : Write ω}
    (quiet : w.Quiet) : s.SameObjects (s.apply t th w) := by
  cases w with
  | none | isSync | writerLock | register | free => exact ⟨rfl, rfl, rfl, rfl, rfl, rfl⟩
  | hdr | obj | addWriterVersion | addCommitVersion | commit => exact quiet.elim

section Family
variable {cfg : Config} {t : Nat} {s : State ω} {th th' : Thread ω}

theorem Thread.SameLog.of_walk (window : th'.window = th.window)
    (log : th'.objWriteSet = th.objWriteSet) (walk : th.pc.SameWalk th'.pc) : th.SameLog th' :=
  ⟨window, log, Thread.live_congr window log walk.pos walk.dropped walk.extra⟩

theorem Thread.SameLog.trans {th'' : Thread ω} (h : th.SameLog th') (h' : th'.SameLog th'') :
    th.SameLog th'' :=
  ⟨h'.window.trans h.window, h'.log.trans h.log, fun ctr i => (h'.live ctr i).trans (h.live ctr i)⟩

theorem LogStep.of_quiet {w : Write ω} (quiet : w.Quiet) (log : th.SameLog th')
    (flight : th'.flight = th.flight) (waiting : th'.pc.waiting → th.pc.waiting) :
    LogStep cfg t s (s.apply t th' w) th th' :=
  .quiet (s.apply_sameObjects t th' quiet) log flight waiting

theorem LogStep.go {pc : Pc} (walk : th.pc.SameWalk pc) (waiting : pc.waiting → th.pc.waiting) :
    LogStep cfg t s (s.apply t (th.go pc).1 (th.go pc).2) th (th.go pc).1 :=
  .of_quiet trivial (.of_walk rfl rfl walk) rfl waiting

theorem LogStep.fail (line : Nat) :
    LogStep cfg t s (s.apply t (th.fail line).1 (th.fail line).2) th (th.fail line).1 :=
  .go ⟨rfl, rfl, rfl, id⟩ nofun

theorem LogStep.fault : LogStep cfg t s (s.apply t th.fault.1 th.fault.2) th th.fault.1 :=
  .go ⟨rfl, rfl, rfl, id⟩ nofun

/-- Rewriting the current write set keeps the live entries of the others. -/
theorem Thread.live_set_cur {ws : WriteSet ω} (h : ThreadOk cfg t th)
    (window : th'.window = th.window)
    (log : th'.objWriteSet = Function.update th.objWriteSet th.wsCurId ws)
    (strict : th.wsTailCounter < th.wsWbCounter + cfg.maxWriteSets)
    (pos : th.pc.wbPos = fun wb => (wb, 0)) (pos' : th'.pc.wbPos = fun wb => (wb, 0))
    (current : ∀ i, i < ws.numOfObjs + th'.pc.extra ∧ ¬ th'.pc.dropped i ↔
      i < th.cur.numOfObjs + th.pc.extra ∧ ¬ th.pc.dropped i) (ctr i : Nat) :
    th'.Live ctr i ↔ th.Live ctr i := by
  obtain ⟨-, wb, tail, -⟩ := Thread.window_eq window
  rw [Thread.live_iff pos, Thread.live_iff pos', wb, tail, log]
  refine and_congr_right fun ge => or_congr ?_ ?_
  · refine and_congr_right fun lt => ?_
    rw [Function.update_of_ne (h.slot_ne strict (Nat.le_trans h.head_le_wb ge) lt)]
  · refine and_congr_right fun e => ?_
    subst e
    have here := current i
    rw [Thread.cur, h.curId] at here
    rw [h.curId, Function.update_self]
    exact here

theorem afterSync_log (th : Thread ω) (k : Caller) (walk : th.pc.SameWalk .idle)
    (closed : th.pc.closed) :
    th.SameLog (afterSync th k).1 ∧ (afterSync th k).1.flight = th.flight ∧
    ¬ (afterSync th k).1.pc.waiting ∧ (afterSync th k).2 = .none := by
  have same (pc : Pc) (same : Pc.SameWalk .idle pc) : th.pc.SameWalk pc :=
    ⟨same.pos.trans walk.pos, same.dropped.trans walk.dropped, same.extra.trans walk.extra,
      fun _ => closed⟩
  cases k with
  | readerLock | readerUnlock | abort | checkpoint | finish | finishAgain =>
    exact ⟨.of_walk rfl rfl (same _ ⟨rfl, rfl, rfl, id⟩), rfl, id, rfl⟩
  | commit =>
    simp only [afterSync]
    split_ifs
    · exact ⟨.of_walk rfl rfl ⟨rfl, rfl, rfl, id⟩, rfl, id, rfl⟩
    · exact ⟨.of_walk rfl rfl (same _ ⟨rfl, rfl, rfl, id⟩), rfl, id, rfl⟩
    · exact ⟨.of_walk rfl rfl ⟨rfl, rfl, rfl, id⟩, rfl, id, rfl⟩

abbrev LogEffect (cfg : Config) (t : Nat) (s : State ω) (th : Thread ω) (e : Effect ω) : Prop :=
  LogStep cfg t s (s.apply t e.1 e.2) th e.1

theorem afterSync_logStep (k : Caller) (walk : th.pc.SameWalk .idle)
    (closed : th.pc.closed) : LogEffect cfg t s th (afterSync th k) := by
  obtain ⟨same, flight, waiting, quiet⟩ := afterSync_log th k walk closed
  exact .of_quiet (by rw [quiet]; trivial) same flight fun w => absurd w waiting

theorem readerLockStep_log {pc : ReaderLockPc} (h : ThreadOk cfg t th)
    (hpc : th.pc = .readerLock pc) : LogEffect cfg t s th (readerLockStep s th pc) := by
  have control := h.control
  rw [hpc] at control
  cases pc with
  | register =>
    simp only [readerLockStep]
    split_ifs
    · exact .of_quiet trivial (.of_walk rfl rfl (hpc ▸ ⟨rfl, rfl, rfl, id⟩)) rfl (by rintro ⟨⟩)
    · exact .fail _
  | loadVersion => exact .go (hpc ▸ ⟨rfl, rfl, rfl, id⟩) (by rintro ⟨⟩)
  | storeVersion v =>
    exact .of_quiet trivial (.of_walk rfl rfl (hpc ▸ ⟨rfl, rfl, rfl, id⟩)) rfl (by rintro ⟨⟩)
  | loadCommit =>
    -- the write set of the section opens, and it is empty
    have strict := control.1.2.1
    have empty := h.cur_empty strict (by rw [hpc]; trivial)
    refine .of_quiet trivial ⟨rfl, rfl, Thread.live_set_cur h rfl
      (Function.update_eq_self _ _).symm strict (by rw [hpc]; rfl) rfl fun i => ?_⟩ rfl (by rintro ⟨⟩)
    rw [hpc]
    have none : ¬ i < th.cur.numOfObjs := by omega
    exact ⟨fun e => absurd e.1 none, fun e => absurd e.1 none⟩

theorem derefReturn_log {p r : Ptr} (walk : th.pc.SameWalk .inSection) :
    LogEffect cfg t s th (derefReturn th p r) :=
  .of_quiet trivial (.of_walk rfl rfl walk) rfl nofun

theorem derefStep_log {pc : DerefPc} (hpc : th.pc = .deref pc) :
    LogEffect cfg t s th (derefStep s t th pc) := by
  have done {p r : Ptr} : LogEffect cfg t s th (derefReturn th p r) :=
    derefReturn_log (hpc ▸ ⟨rfl, rfl, rfl, id⟩)
  have next (pc' : DerefPc) : LogEffect cfg t s th (th.go (.deref pc')) :=
    .go (hpc ▸ ⟨rfl, rfl, rfl, id⟩) nofun
  cases pc with
  | header p =>
    simp only [derefStep]
    split
    · exact done
    · exact next _
  | slow p =>
    simp only [derefStep]
    split
    · exact done
    · exact done
    · exact next _
  | owner p c =>
    simp only [derefStep]
    split_ifs
    · exact done
    · exact next _
    · exact done
  | version p c thId =>
    simp only [derefStep]
    split
    · split_ifs <;> exact done
    · exact done

theorem writerLockStep_log {pc : WriterLockPc} (h : ThreadOk cfg t th)
    (hpc : th.pc = .writerLock pc) : LogEffect cfg t s th (writerLockStep s t th pc) := by
  have inside : th.Inside cfg := by simpa [hpc, Control] using h.control
  cases pc with
  | load l =>
    simp only [writerLockStep]
    split_ifs <;> exact .go (hpc ▸ ⟨rfl, rfl, rfl, id⟩) (by rintro ⟨⟩)
  | cas l =>
    have written {pc' : Pc} (pos : pc'.wbPos = fun wb => (wb, 0)) (extra : pc'.extra = 0)
        (dropped : pc'.dropped = fun _ => False) (waiting : ¬ pc'.waiting) :
        LogEffect cfg t s th
          ({ th.setWriteSet th.wsCurId (th.cur.addWriterLock l) with pc := pc' },
            .writerLock l (lockId t)) := by
      refine .write (th.cur.addWriterLock l) (s.apply_sameObjects t _ trivial) rfl rfl
        (Thread.live_set_cur h rfl rfl inside.2.1 (by rw [hpc]; rfl) pos fun i => ?_)
        (fun _ _ => rfl) (.refl th.cur t) inside.2.1 inside.2.2.1 inside.2.2.1 waiting
        (.inr (Nat.le_refl _)) fun _ _ => .inr rfl
      show i < th.cur.numOfObjs + pc'.extra ∧ ¬ pc'.dropped i ↔ _
      rw [extra, dropped, hpc]
      rfl
    simp only [writerLockStep]
    split_ifs
    · exact written (by rw [hpc]; rfl) (by rw [hpc]; rfl) (by rw [hpc]; rfl) id
    · exact written rfl rfl rfl id
    · exact written (by rw [hpc]; rfl) (by rw [hpc]; rfl) (by rw [hpc]; rfl) id
    · exact .go (hpc ▸ ⟨rfl, rfl, rfl, id⟩) (by rintro ⟨⟩)

theorem tryLockFree_log {o : Nat} (walk : th.pc.SameWalk .inSection) :
    LogEffect cfg t s th (tryLockFree th o) := by
  have walk' : th.pc.SameWalk (.tryLock (.storeActual o)) :=
    ⟨walk.pos, walk.dropped, walk.extra, nofun⟩
  unfold tryLockFree
  split_ifs
  · exact .go walk' nofun
  · exact .of_quiet trivial (.of_walk rfl rfl walk') rfl nofun

theorem tryLockFail_log (w : Write ω) (quiet : w.Quiet) (walk : th.pc.SameWalk .inSection) :
    LogEffect cfg t s th ((tryLockFail th).1, w) := by
  unfold tryLockFail
  split_ifs
  · exact .of_quiet quiet (.of_walk rfl rfl ⟨rfl, rfl, rfl, id⟩) rfl nofun
  · exact .of_quiet quiet (.of_walk rfl rfl ⟨walk.pos, walk.dropped, walk.extra, nofun⟩) rfl nofun

/-- Stores into the entry that is being filled, which no header points at yet. -/
theorem storeHeader_log {pc pc' : TryLockPc} {f : WsObj ω → WsObj ω} {p : Nat}
    (h : ThreadOk cfg t th) (hpc : th.pc = .tryLock pc) (extra : th.pc.extra = 0) (extra' : (Pc.tryLock pc').extra = 0)
    (inside : th.Inside cfg) (id : (f (th.cur.buffer th.cur.numOfObjs)).threadId = t ∨
      (f (th.cur.buffer th.cur.numOfObjs)).threadId =
        (th.cur.buffer th.cur.numOfObjs).threadId)
    (mark : ∀ c, (f (th.cur.buffer th.cur.numOfObjs)).pObjCopy = .copy c →
      (th.cur.buffer th.cur.numOfObjs).pObjCopy = .copy c) :
    LogEffect cfg t s th ((th.storeHeader f p).go (.tryLock pc')) := by
  refine .write (th.cur.storeHeader th.cur.numOfObjs f p) (s.apply_sameObjects t _ trivial) rfl rfl
    (Thread.live_set_cur h rfl rfl inside.2.1 (by rw [hpc]; rfl) rfl fun i => ?_) (fun i live => ?_)
    (.modifyObj _ t _ id mark) inside.2.1 inside.2.2.1 inside.2.2.1 nofun (.inr (Nat.le_refl _))
    fun i lt => .inr (by rw [WriteSet.storeHeader_buffer, WriteSet.modifyObj_buffer_of_ne _ _ (Nat.ne_of_lt lt)])
  · show i < th.cur.numOfObjs + (Pc.tryLock pc').extra ∧ ¬ (Pc.tryLock pc').dropped i ↔ _
    rw [extra, extra', hpc]
    rfl
  · obtain ⟨-, ⟨lt, -⟩ | ⟨-, lt, -⟩⟩ := live
    · exact absurd lt (Nat.lt_irrefl _)
    · rw [extra, ← h.curId] at lt
      have lt' : i < th.cur.numOfObjs := lt
      rw [WriteSet.storeHeader_buffer, WriteSet.modifyObj_buffer_of_ne _ _ (Nat.ne_of_lt lt')]

theorem tryLockStep_log {pc : TryLockPc} (h : ThreadOk cfg t th) (hpc : th.pc = .tryLock pc) :
    LogEffect cfg t s th (tryLockStep cfg s t th pc) := by
  obtain ⟨inside, control⟩ : th.Inside cfg ∧ tryLockControl t th pc := by
    simpa [hpc, Control] using h.control
  have next {pc' : TryLockPc} (extra : th.pc.extra = (Pc.tryLock pc').extra) :
      LogEffect cfg t s th (th.go (.tryLock pc')) :=
    .go ⟨by rw [hpc]; rfl, by rw [hpc]; rfl, extra.symm, by rintro ⟨⟩⟩ (by rintro ⟨⟩)
  have walk (extra : th.pc.extra = 0) : th.pc.SameWalk .inSection :=
    ⟨by rw [hpc]; rfl, by rw [hpc]; rfl, extra.symm, by rintro ⟨⟩⟩
  cases pc with
  | header p =>
    have extra : th.pc.extra = 0 := by rw [hpc]; rfl
    cases p with
    | null => exact .fault
    | copy c =>
      simp only [tryLockStep]
      split_ifs
      · exact next extra
      · exact .fault
    | actual o =>
      simp only [tryLockStep]
      split
      · exact tryLockFree_log (walk extra)
      · exact .fault
      · exact next extra
  | actual c => exact next (by rw [hpc]; rfl)
  | owner o c =>
    simp only [tryLockStep]
    split_ifs <;> exact next (by rw [hpc]; rfl)
  | runCounter o c =>
    simp only [tryLockStep]
    split_ifs
    · exact .of_quiet trivial (.of_walk rfl rfl (walk (by rw [hpc]; rfl))) rfl (by rintro ⟨⟩)
    · exact next (by rw [hpc]; rfl)
  | sendLoad thId => exact next (by rw [hpc]; rfl)
  | sendStore thId v =>
    exact .of_quiet trivial (.of_walk rfl rfl (hpc ▸ ⟨rfl, rfl, rfl, id⟩)) rfl (by rintro ⟨⟩)
  | syncLoad => exact next (by rw [hpc]; rfl)
  | syncStore v => exact tryLockFail_log _ trivial (walk (by rw [hpc]; rfl))
  | storeActual o =>
    simp only [tryLockStep]
    split_ifs
    · exact storeHeader_log h hpc (by rw [hpc]; rfl) rfl inside (.inr rfl) fun _ same => same
    · exact .fault
  | storeRun o =>
    exact storeHeader_log h hpc (by rw [hpc]; rfl) rfl inside (.inr rfl) fun _ same => same
  | storeId o =>
    exact storeHeader_log h hpc (by rw [hpc]; rfl) rfl inside (.inl rfl) fun _ same => same
  | storeMark o =>
    exact storeHeader_log h hpc (by rw [hpc]; rfl) rfl inside (.inr rfl) (by rintro _ ⟨⟩)
  | cas o =>
    simp only [tryLockStep]
    split_ifs with free
    · exact .lock o hpc free rfl rfl
    · have failed : tryLockFail th = ((tryLockFail th).1, .none) := by
        unfold tryLockFail
        split_ifs <;> rfl
      rw [failed]
      exact tryLockFail_log _ trivial (walk (by rw [hpc]; rfl))
  | copy o w =>
    simp only [tryLockStep]
    split_ifs
    · refine .write _ (s.apply_sameObjects t _ trivial) rfl rfl
        (Thread.live_set_cur h rfl rfl inside.2.1 (by rw [hpc]; rfl) rfl fun i => ?_)
        (fun i _ => ?_) (.modifyObj _ t _ (.inr rfl) fun _ same => same) inside.2.1 inside.2.2.1
        inside.2.2.1 (by rintro ⟨⟩) (.inr (Nat.le_refl _))
        fun i lt => .inr (by rw [WriteSet.modifyObj_buffer_of_ne _ _ (Nat.ne_of_lt lt)]; rfl)
      · rw [hpc]
        rfl
      · by_cases e : i = th.cur.numOfObjs
        · subst e
          rw [WriteSet.modifyObj_buffer_self]
          rfl
        · rw [WriteSet.modifyObj_buffer_of_ne _ _ e]
          rfl
    · exact .fault
    · -- the entry is counted from here on
      refine .write _ (s.apply_sameObjects t _ trivial) rfl rfl
        (Thread.live_set_cur h rfl rfl inside.2.1 (by rw [hpc]; rfl) rfl fun i => ?_)
        (fun i _ => rfl) (.refl th.cur t) inside.2.1 inside.2.2.1 inside.2.2.1 (by rintro ⟨⟩)
        (.inr (Nat.le_succ _)) fun _ _ => .inr rfl
      rw [hpc]
      rfl
    · exact .fail _
  | check o =>
    simp only [tryLockStep]
    split_ifs
    · exact .of_quiet trivial (.of_walk rfl rfl (walk (by rw [hpc]; rfl))) rfl (by rintro ⟨⟩)
    · exact .fail _

theorem afterRelease_log {r : Releaser} {pc : ReleasePc} (h : ThreadOk cfg t th)
    (hpc : th.pc = .release r pc) : LogEffect cfg t s th (afterRelease th r) := by
  have control := h.control
  rw [hpc] at control
  cases r with
  | commit => exact .go (hpc ▸ ⟨rfl, rfl, rfl, id⟩) (by rintro ⟨⟩)
  | readOnly | abortClean =>
    obtain ⟨⟨even, strict, flight, writer⟩, num⟩ := control
    refine .write th.cur.resetWriterLocks (s.apply_sameObjects t _ trivial) rfl rfl
      (Thread.live_set_cur h rfl rfl strict (by rw [hpc]; rfl) rfl fun i => ?_)
      (fun _ _ => rfl) (.refl th.cur t) strict flight flight (by rintro ⟨⟩) (.inl even) fun _ _ => .inr rfl
    rw [hpc]
    exact ⟨fun e => absurd trivial e.2, fun e => absurd (num ▸ e.1) (Nat.not_lt_zero i)⟩
  | abortWrite =>
    obtain ⟨even, strict, flight, writer⟩ : th.Outside cfg := control
    have log : (th.rluResetWriteSet th.wsTailCounter).objWriteSet =
        Function.update th.objWriteSet th.wsCurId th.cur.reset := by
      rw [Thread.cur, h.curId]
      rfl
    refine .write th.cur.reset (s.apply_sameObjects t _ trivial) rfl log
      (Thread.live_set_cur h rfl log strict (by rw [hpc]; rfl) rfl fun i => ?_)
      (fun _ _ => rfl) (.refl th.cur t) strict flight flight (by rintro ⟨⟩) (.inl even) fun _ _ => .inr rfl
    rw [hpc]
    exact ⟨fun e => absurd trivial e.2, fun e => absurd trivial e.2⟩

theorem releaseStep_log {r : Releaser} {pc : ReleasePc} (h : ThreadOk cfg t th)
    (hpc : th.pc = .release r pc) : LogEffect cfg t s th (releaseStep s t th r pc) := by
  have walk (pc' : ReleasePc) : th.pc.SameWalk (.release r pc') := by
    rw [hpc]
    cases r <;> exact ⟨rfl, rfl, rfl, id⟩
  cases pc with
  | check i =>
    simp only [releaseStep]
    split
    · split_ifs
      · exact .go (walk _) (by rintro ⟨⟩)
      · exact .fail _
    · exact afterRelease_log h hpc
  | store i =>
    simp only [releaseStep]
    split
    · exact .of_quiet trivial (.of_walk rfl rfl (walk _)) rfl (by rintro ⟨⟩)
    · exact .fault

theorem readerUnlockStep_log (h : ThreadOk cfg t th) (hpc : th.pc = .readerUnlock) :
    LogEffect cfg t s th (readerUnlockStep cfg th) := by
  obtain ⟨outside, num⟩ : th.Leaving cfg := by simpa [hpc, Control] using h.control
  simp only [readerUnlockStep]
  split_ifs with write full
  · exact .commit _ hpc write (.inl rfl) rfl rfl
  · have ok := commitWriteSet_ok h hpc outside
    have strict : th.wsTailCounter + 1 < th.wsWbCounter + cfg.maxWriteSets := by
      have := not_or.mp full
      have := h.wb_le_tail
      omega
    have ring : wsIndex (th.wsTailCounter + 1) ≠ wsIndex th.wsHeadCounter := fun e => full (.inl e)
    have le := h.head_le_wb
    have le' := h.wb_le_tail
    simp only [afterSync]
    rw [if_neg (by omega), if_neg ring]
    exact .commit _ hpc write (.inr rfl) rfl rfl
  · exact .go (hpc ▸ ⟨rfl, rfl, rfl, by rintro ⟨⟩⟩) (by rintro ⟨⟩)

theorem abortStep_log {pc : AbortPc} (h : ThreadOk cfg t th) (hpc : th.pc = .abort pc)
    (right : pc = .start → th.isWriteDetected = true → th.RightSlot) :
    LogEffect cfg t s th (abortStep s t th pc) := by
  have control := h.control
  rw [hpc] at control
  cases pc with
  | start =>
    simp only [abortStep]
    split_ifs with write
    · rw [right rfl write]
      refine .of_quiet trivial (.of_walk rfl rfl ⟨by rw [hpc]; rfl, ?_, by rw [hpc]; rfl, by rintro ⟨⟩⟩)
        rfl (by rintro ⟨⟩)
      rw [hpc]
      funext i
      exact propext ⟨fun lt => absurd lt (Nat.not_lt_zero i), False.elim⟩
    · exact .go (hpc ▸ ⟨rfl, rfl, rfl, by rintro ⟨⟩⟩) (by rintro ⟨⟩)
  | unlock slot i =>
    obtain ⟨outside, rfl, le⟩ := control
    simp only [abortStep]
    split_ifs with lt mark holds
    · exact .fail _
    · exact .fail _
    · exact .go (hpc ▸ ⟨rfl, rfl, rfl, by rintro ⟨⟩⟩) (by rintro ⟨⟩)
    · refine .of_quiet trivial ⟨rfl, rfl, Thread.live_set_cur h rfl
        (Function.update_eq_self _ _).symm outside.2.1 (by rw [hpc]; rfl) rfl fun j => ?_⟩ rfl (by rintro ⟨⟩)
      rw [hpc]
      refine ⟨fun e => absurd trivial e.2, fun e => absurd ?_ e.2⟩
      have lt' : j < (th.objWriteSet th.wsCurId).numOfObjs := e.1
      show j < i
      omega
  | unlockStore slot i =>
    obtain ⟨outside, rfl, lt⟩ := control
    exact .abortUnlock i hpc rfl rfl

theorem syncStep_log {k : Caller} {pc : SyncPc} (h : ThreadOk cfg t th)
    (hpc : th.pc = .sync k pc) : LogEffect cfg t s th (syncStep cfg s t th k pc) := by
  have control := h.control
  rw [hpc] at control
  have closed : th.pc.closed := by rw [hpc]; trivial
  have idle (pos : (Pc.sync k pc).wbPos = fun wb => (wb, 0)) : th.pc.SameWalk .idle :=
    ⟨by rw [hpc]; exact pos.symm, by rw [hpc]; rfl, by rw [hpc]; rfl, fun _ => closed⟩
  cases pc with
  | start =>
    simp only [syncStep]
    split_ifs
    · exact afterSync_logStep k (idle rfl) closed
    · exact .of_quiet trivial (.of_walk rfl rfl (hpc ▸ ⟨rfl, rfl, rfl, id⟩)) rfl (by rintro ⟨⟩)
    · exact .fail _
  | loadVersion => exact .go (hpc ▸ ⟨rfl, rfl, rfl, id⟩) (by rintro ⟨⟩)
  | storeVersion v =>
    exact .of_quiet trivial (.of_walk rfl rfl (hpc ▸ ⟨rfl, rfl, rfl, id⟩)) rfl (by rintro ⟨⟩)
  | fetchAdd => exact .publish k hpc rfl rfl
  | initLoop u =>
    simp only [syncStep]
    split_ifs
    · exact .of_quiet trivial (.of_walk rfl rfl (hpc ▸ ⟨rfl, rfl, rfl, id⟩)) rfl
        fun _ => by rw [hpc]; trivial
    · exact .of_quiet trivial (.of_walk rfl rfl (hpc ▸ ⟨rfl, rfl, rfl, id⟩)) rfl
        fun _ => by rw [hpc]; trivial
    · exact .fault
    · exact .go (hpc ▸ ⟨rfl, rfl, rfl, id⟩) fun _ => by rw [hpc]; trivial
  | initThread u =>
    simp only [syncStep]
    split_ifs <;> exact .go (hpc ▸ ⟨rfl, rfl, rfl, id⟩) fun _ => by rw [hpc]; trivial
  | initCounter u | waitStart =>
    exact .of_quiet trivial (.of_walk rfl rfl (hpc ▸ ⟨rfl, rfl, rfl, id⟩)) rfl
      fun _ => by rw [hpc]; trivial
  | waitLoop n u =>
    simp only [syncStep]
    split_ifs
    · exact .go (hpc ▸ ⟨rfl, rfl, rfl, id⟩) fun _ => by rw [hpc]; trivial
    · exact .go (hpc ▸ ⟨rfl, rfl, rfl, id⟩) fun _ => by rw [hpc]; trivial
    · exact .fault
    · exact .go (hpc ▸ ⟨rfl, rfl, rfl, id⟩) fun _ => by rw [hpc]; trivial
  | waitCounter n u =>
    simp only [syncStep]
    split_ifs <;> exact .of_quiet trivial (.of_walk rfl rfl (hpc ▸ ⟨rfl, rfl, rfl, id⟩)) rfl
      fun _ => by rw [hpc]; trivial
  | waitVersion n u =>
    simp only [syncStep]
    split
    · split_ifs <;> exact .of_quiet trivial (.of_walk rfl rfl (hpc ▸ ⟨rfl, rfl, rfl, id⟩)) rfl
        fun _ => by rw [hpc]; trivial
    · exact .go (hpc ▸ ⟨rfl, rfl, rfl, id⟩) fun _ => by rw [hpc]; trivial
  | reset =>
    refine .recycle k hpc ?_ rfl
    show { th.rluResetWriteSets th.wsHeadCounter (th.wsWbCounter - th.wsHeadCounter) with
      wsHeadCounter := th.wsWbCounter, pc := .sync k (.entry th.wsWbCounter 0) } = _
    rw [rluResetWriteSets_rest]
  | entry ctr i =>
    obtain ⟨⟨even, head, num, committed, ge, le, flight, writer⟩, first⟩ := control
    simp only [syncStep]
    split_ifs with lt lt'
    · exact .go (hpc ▸ ⟨rfl, rfl, rfl, id⟩) (by rintro ⟨⟩)
    · exact .fail _
    · -- the walk leaves a write set it has unlocked
      refine .of_quiet trivial ⟨rfl, rfl, fun c j => ?_⟩ rfl (by rintro ⟨⟩)
      unfold Thread.Live
      rw [hpc]
      show (ctr + 1 < c ∨ ctr + 1 = c ∧ 0 ≤ j) ∧ _ ↔ (ctr < c ∨ ctr = c ∧ i ≤ j) ∧ _
      refine ⟨fun h => ⟨by omega, h.2⟩, fun h => ⟨?_, h.2⟩⟩
      obtain ⟨past, now⟩ := h
      rcases now with ⟨-, num⟩ | ⟨-, -, active⟩
      · rcases past with past | ⟨rfl, past⟩
        · exact (Nat.eq_or_lt_of_le (Nat.succ_le_of_lt past)).symm.imp id fun e => ⟨e, Nat.zero_le j⟩
        · have num' : j < (th.objWriteSet (wsIndex ctr)).numOfObjs := num
          omega
      · exact absurd trivial active
    · have last : ctr = th.wsTailCounter := by omega
      have i_eq := first last
      subst last i_eq
      exact .finishWb k hpc rfl rfl
    · exact .fail _
  | copy ctr i w =>
    simp only [syncStep]
    split_ifs with bound
    · exact .writeWord k ctr i w hpc bound rfl rfl
    · exact .go (hpc ▸ ⟨rfl, rfl, rfl, id⟩) (by rintro ⟨⟩)
  | check ctr i =>
    simp only [syncStep]
    split
    · split_ifs
      · exact .go (hpc ▸ ⟨rfl, rfl, rfl, id⟩) (by rintro ⟨⟩)
      · exact .fail _
    · exact .fault
  | unlock ctr i => exact .unlock k ctr i hpc rfl rfl
  | storeMax => exact .of_quiet trivial (.of_walk rfl rfl (hpc ▸ ⟨rfl, rfl, rfl, id⟩)) rfl (by rintro ⟨⟩)
  | commitAdd => exact .commitVersion k hpc rfl rfl
  | loadSync =>
    simp only [syncStep]
    split_ifs <;> exact .go (hpc ▸ ⟨rfl, rfl, rfl, id⟩) (by rintro ⟨⟩)
  | storeSync => exact .of_quiet trivial (.of_walk rfl rfl (hpc ▸ ⟨rfl, rfl, rfl, id⟩)) rfl (by rintro ⟨⟩)
  | freeCheck i =>
    simp only [syncStep]
    split
    · split_ifs
      · exact .go (hpc ▸ ⟨rfl, rfl, rfl, id⟩) (by rintro ⟨⟩)
      · exact .fail _
    · obtain ⟨same, flight, waiting, quiet⟩ :=
        afterSync_log { th with freeNodes := [] } k (idle rfl) closed
      refine .of_quiet (by rw [quiet]; trivial) (.trans ?_ same) flight fun w => absurd w waiting
      exact .of_walk rfl rfl ⟨rfl, rfl, rfl, id⟩
  | free i =>
    simp only [syncStep]
    split
    · exact .of_quiet trivial (.of_walk rfl rfl (hpc ▸ ⟨rfl, rfl, rfl, id⟩)) rfl (by rintro ⟨⟩)
    · exact .fault

theorem rluUnregisterThread_log {pc : Pc} (walk : th.pc.SameWalk .inSection)
    (hpc : pc = .readerUnlock ∨ pc = .abort .start) :
    LogEffect cfg t s th (rluUnregisterThread th pc) := by
  unfold rluUnregisterThread
  split_ifs
  · refine .of_quiet trivial (.of_walk rfl rfl ?_) rfl ?_
    · rcases hpc with rfl | rfl <;> exact ⟨walk.pos, walk.dropped, walk.extra, nofun⟩
    · rcases hpc with rfl | rfl <;> exact nofun
  · exact .fail _

theorem callInSection_log {op : Op ω} {e : Effect ω} (h : ThreadOk cfg t th)
    (hpc : th.pc = .inSection) (call : callInSection cfg s t th op = some e) :
    LogEffect cfg t s th e := by
  have inside : th.Inside cfg := by simpa [hpc, Control] using h.control
  have walk : th.pc.SameWalk .inSection := hpc ▸ ⟨rfl, rfl, rfl, id⟩
  cases op with
  | readerLock | checkpoint | finish => cases call
  | readerUnlock =>
    obtain rfl := Option.some.inj call
    exact rluUnregisterThread_log walk (.inl rfl)
  | abort =>
    obtain rfl := Option.some.inj call
    exact rluUnregisterThread_log walk (.inr rfl)
  | deref p =>
    simp only [callInSection, ← apply_ite some, Option.some.injEq] at call
    subst call
    split_ifs
    · exact derefReturn_log walk
    · exact .go (hpc ▸ ⟨rfl, rfl, rfl, id⟩) (by rintro ⟨⟩)
  | tryLock p =>
    simp only [callInSection, ← apply_ite some, Option.some.injEq] at call
    subst call
    split_ifs
    · exact .fail _
    · exact .of_quiet trivial (.of_walk rfl rfl (hpc ▸ ⟨rfl, rfl, rfl, id⟩)) rfl (by rintro ⟨⟩)
  | lock p =>
    simp only [callInSection, ← apply_ite some, Option.some.injEq] at call
    subst call
    split_ifs
    · exact .fail _
    · exact .fail _
    · exact .of_quiet trivial (.of_walk rfl rfl (hpc ▸ ⟨rfl, rfl, rfl, id⟩)) rfl (by rintro ⟨⟩)
  | tryWriterLock l =>
    simp only [callInSection, ← apply_ite some, Option.some.injEq] at call
    subst call
    split_ifs
    · exact .go (hpc ▸ ⟨rfl, rfl, rfl, id⟩) (by rintro ⟨⟩)
    · exact .fail _
  | store c w x =>
    simp only [callInSection] at call
    split_ifs at call with own
    obtain rfl := Option.some.inj call
    obtain ⟨-, slot, -⟩ := own
    rw [slot]
    refine .write _ (s.apply_sameObjects t _ trivial) rfl rfl
      (Thread.live_set_cur h rfl rfl inside.2.1 (by rw [hpc]; rfl) rfl fun i => ?_)
      (fun i _ => ?_) (.modifyObj _ t _ (.inr rfl) fun _ same => same) inside.2.1 inside.2.2.1
      inside.2.2.1 (by rintro ⟨⟩) (.inr (Nat.le_refl _)) fun _ _ => .inl hpc
    · rw [hpc]
      rfl
    · by_cases e : i = c.idx
      · subst e
        rw [WriteSet.modifyObj_buffer_self]
        rfl
      · rw [WriteSet.modifyObj_buffer_of_ne _ _ e]
        rfl
  | free p =>
    obtain rfl := Option.some.inj call
    unfold rluFree
    split
    · exact .go (hpc ▸ ⟨rfl, rfl, rfl, id⟩) (by rintro ⟨⟩)
    · split_ifs
      · exact .of_quiet trivial (.of_walk rfl rfl (hpc ▸ ⟨rfl, rfl, rfl, id⟩)) rfl (by rintro ⟨⟩)
      · exact .of_quiet trivial (.of_walk rfl rfl (hpc ▸ ⟨rfl, rfl, rfl, id⟩)) rfl (by rintro ⟨⟩)
      · exact .fail _
    · exact .fault

theorem call_log {op : Op ω} {e : Effect ω} (h : ThreadOk cfg t th)
    (called : call cfg s t th op th.pc = some e) : LogEffect cfg t s th e := by
  cases hpc : th.pc with
  | idle =>
    rw [hpc] at called
    cases op with
    | readerLock | checkpoint | finish =>
      obtain rfl := Option.some.inj called
      exact .go (hpc ▸ ⟨rfl, rfl, rfl, id⟩) nofun
    | _ => cases called
  | inSection =>
    rw [hpc] at called
    exact callInSection_log h hpc called
  | mustAbort =>
    rw [hpc] at called
    cases op with
    | abort =>
      obtain rfl := Option.some.inj called
      exact rluUnregisterThread_log (hpc ▸ ⟨rfl, rfl, rfl, id⟩) (.inr rfl)
    | _ => cases called
  | _ =>
    rw [hpc] at called
    cases called

theorem libStep_log {e : Effect ω} (h : ThreadOk cfg t th)
    (right : th.pc = .abort .start → th.isWriteDetected = true → th.RightSlot)
    (stepped : libStep cfg s t th th.pc = some e) : LogEffect cfg t s th e := by
  cases hpc : th.pc with
  | idle | inSection | mustAbort | finished | failed _ _ | fault _ =>
    rw [hpc] at stepped
    cases stepped
  | init =>
    rw [hpc] at stepped
    rcases libStep_init stepped with ⟨-, rfl⟩ | rfl
    · exact .of_quiet trivial (.of_walk rfl rfl (hpc ▸ ⟨rfl, rfl, rfl, id⟩)) rfl (by rintro ⟨⟩)
    · exact .fault
  | syncCheckpoint k =>
    rw [hpc] at stepped
    simp only [libStep, ← apply_ite some, Option.some.injEq] at stepped
    subst stepped
    split_ifs
    · exact afterSync_logStep k (hpc ▸ ⟨rfl, rfl, rfl, id⟩) (by rw [hpc]; trivial)
    · exact .go (hpc ▸ ⟨rfl, rfl, rfl, id⟩) (by rintro ⟨⟩)
  | readerLock pc =>
    rw [hpc] at stepped
    obtain rfl := Option.some.inj stepped
    exact readerLockStep_log h hpc
  | deref pc =>
    rw [hpc] at stepped
    obtain rfl := Option.some.inj stepped
    exact derefStep_log hpc
  | tryLock pc =>
    rw [hpc] at stepped
    obtain rfl := Option.some.inj stepped
    exact tryLockStep_log h hpc
  | writerLock pc =>
    rw [hpc] at stepped
    obtain rfl := Option.some.inj stepped
    exact writerLockStep_log h hpc
  | readerUnlock =>
    rw [hpc] at stepped
    obtain rfl := Option.some.inj stepped
    exact readerUnlockStep_log h hpc
  | abort pc =>
    rw [hpc] at stepped
    obtain rfl := Option.some.inj stepped
    exact abortStep_log h hpc fun e => right (e ▸ hpc)
  | release r pc =>
    rw [hpc] at stepped
    obtain rfl := Option.some.inj stepped
    exact releaseStep_log h hpc
  | sync k pc =>
    rw [hpc] at stepped
    obtain rfl := Option.some.inj stepped
    exact syncStep_log h hpc

end Family

theorem actEffect_log {cfg : Config} {s : State ω} {a : Act ω} {t : Nat} {e : Effect ω}
    (h : ThreadOk cfg t (s.thread t)) (right : RightSlot s a) (act : ActEffect cfg s a t e) :
    LogEffect cfg t s (s.thread t) e := by
  rcases act with ⟨op, -, called⟩ | ⟨rfl, stepped⟩
  · exact call_log h called
  · exact libStep_log h right.of_start stepped

/-- The steps of the system, from states that are in order. -/
theorem step_logStep [Inhabited ω] {cfg : Config} {s s' : State ω} {a : Act ω}
    (h : WellFormed cfg s) (right : RightSlot s a) (hs : step cfg s a = some s') :
    ∃ t th', s'.thread = Function.update s.thread t th' ∧
      LogStep cfg t s s' (s.thread t) th' := by
  rcases step_cases hs with ⟨rfl, rfl⟩ | ⟨t, e, -, act, rfl⟩
  · refine ⟨s.gCurThreads, Thread.init, rfl, ?_⟩
    rw [h.fresh _ (Nat.le_refl _)]
    exact .quiet ⟨rfl, rfl, rfl, rfl, rfl, rfl⟩ (.of_walk rfl rfl ⟨rfl, rfl, rfl, id⟩) rfl id
  · exact ⟨t, e.1, State.apply_thread _ _ _ _, actEffect_log (h.threads t) right act⟩

end ReadLogUpdate
