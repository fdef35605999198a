import ReadLogUpdate.Rlu.Solo

/-!
# Past `2 ^ 31` commits

A thread that commits alone reaches every value of its tail counter. At `2 ^ 31 + 48` the `int`
that `rlu_unlock_objs` gets selects another slot than the current one, and an abort leaves the
object it locked pointing into the log.
-/

namespace ReadLogUpdate

variable {ω : Type} [Inhabited ω]

/-- A condition that the steps of the only thread meet, but for the first of `rlu_abort`. -/
def LibFree (ok : State ω → Act ω → Prop) : Prop :=
  ∀ (g : State ω) (th : Thread ω), g.gCurThreads = 1 → th.pc.isAbortStart = false →
    ok (g.withThread 0 th) (.lib 0)

omit [Inhabited ω] in
theorem versionAtomic_of_one {s : State ω} {a : Act ω} (one : s.gCurThreads = 1)
    (own : a.thread s = 0) : VersionAtomic s a := by
  intro u lt ne
  omega

omit [Inhabited ω] in
theorem libFree_undisturbed : LibFree (ω := ω) Undisturbed := by
  intro g th one calm
  refine ⟨versionAtomic_of_one one rfl, fun start => ?_⟩
  rw [State.withThread_thread, calm] at start
  cases start

omit [Inhabited ω] in
theorem libFree_versionAtomic : LibFree (ω := ω) VersionAtomic :=
  fun _ _ one _ => versionAtomic_of_one one rfl

omit [Inhabited ω] in
theorem releaseStep_last {s : State ω} {t i : Nat} {th : Thread ω} {r : Releaser}
    (last : (th.objWriteSet (releaserSlot th r)).writerLocks[i]? = none) :
    releaseStep s t th r (.check i) = afterRelease th r := by
  simp only [releaseStep, last]

section Section
variable {cfg : Config} {ok : State ω → Act ω → Prop} {g : State ω} {th : Thread ω} {w : Write ω}
  {Q : State ω → Prop}

theorem lib_lead {t : Thread ω} (one : g.gCurThreads = 1) (allowed : ok (g.withThread 0 th) (.lib 0))
    (stepped : libStep cfg (g.withThread 0 th) 0 th th.pc = some (t, w))
    (next : System.Leads (step cfg) ok (.lib 0) ((g.write 0 t w).withThread 0 t) Q) :
    System.Leads (step cfg) ok (.lib 0) (g.withThread 0 th) Q := by
  refine .head allowed ?_ next
  simp only [ReadLogUpdate.step, State.withThread_gCurThreads, one, Nat.zero_lt_one, if_true,
    State.withThread_thread, stepped, Option.map_some, State.write_withThread]

theorem LibFree.lead {t : Thread ω} (free : LibFree ok) (one : g.gCurThreads = 1)
    (calm : th.pc.isAbortStart = false)
    (stepped : libStep cfg (g.withThread 0 th) 0 th th.pc = some (t, w))
    (next : System.Leads (step cfg) ok (.lib 0) ((g.write 0 t w).withThread 0 t) Q) :
    System.Leads (step cfg) ok (.lib 0) (g.withThread 0 th) Q :=
  lib_lead one (free g th one calm) stepped next

def Thread.entered (th : Thread ω) (g : State ω) : Thread ω :=
  { th with
    isWriteDetected := false
    isSteal := g.gWriterVersion != g.gCommitVersion
    isCheckLocks := !(g.gWriterVersion == g.gCommitVersion && th.wsTailCounter == th.wsWbCounter)
    runCounter := th.runCounter + 1
    derefs := []
    localVersion := g.gWriterVersion
    localCommitVersion := g.gCommitVersion
    pc := .inSection }

theorem LibFree.enter (free : LibFree ok) (one : g.gCurThreads = 1) (even : th.runCounter % 2 = 0)
    (clear : g.isSync 0 = 0) (pc : th.pc = .syncCheckpoint .readerLock) :
    System.Leads (step cfg) ok (.lib 0) (g.withThread 0 th) fun s' =>
      s' = g.withThread 0 (th.entered g) := by
  refine free.lead (t := (afterSync th .readerLock).1) (w := .none) one (by rw [pc]; rfl) ?_ ?_
  · rw [pc]
    show (if g.isSync 0 = 0 then _ else _) = _
    rw [if_pos clear]
    rfl
  refine free.lead one rfl (congrArg some (if_pos even)) ?_
  refine free.lead one rfl rfl ?_
  refine free.lead one rfl rfl ?_
  exact free.lead one rfl rfl (.done rfl)

end Section

/-! ### Locking a free object -/

def Thread.withCur (th : Thread ω) (ws : WriteSet ω) (pc : Pc) : Thread ω :=
  { th with
    objWriteSet := Function.update th.objWriteSet th.wsCurId ws
    pc := pc }

section WithCur
variable (th : Thread ω) (ws ws' : WriteSet ω) (pc pc' : Pc)

omit [Inhabited ω]

@[simp] theorem Thread.withCur_pc : (th.withCur ws pc).pc = pc := rfl

@[simp] theorem Thread.withCur_wsCurId : (th.withCur ws pc).wsCurId = th.wsCurId := rfl

@[simp] theorem Thread.withCur_cur : (th.withCur ws pc).cur = ws := Function.update_self _ _ _

@[simp] theorem Thread.withCur_withCur :
    (th.withCur ws pc).withCur ws' pc' = th.withCur ws' pc' := by
  simp only [Thread.withCur, Function.update_idem]

theorem Thread.withCur_set : ((th.withCur ws pc).setWriteSet th.wsCurId ws').go pc' =
    (th.withCur ws' pc', .none) := by
  simp only [Thread.withCur, Thread.setWriteSet, Thread.go, Function.update_idem]

theorem Thread.withCur_storeHeader (f : WsObj ω → WsObj ω) (p : Nat) :
    ((th.withCur ws pc).storeHeader f p).go pc' =
      (th.withCur (ws.storeHeader ws.numOfObjs f p) pc', .none) := by
  unfold Thread.storeHeader
  rw [Thread.withCur_cur]
  exact th.withCur_set ws _ pc pc'

theorem Thread.withCur_modifyObj (i : Nat) (f : WsObj ω → WsObj ω) :
    ((th.withCur ws pc).modifyObj th.wsCurId i f).go pc' =
      (th.withCur (ws.modifyObj i f) pc', .none) := by
  have cur : (th.withCur ws pc).objWriteSet th.wsCurId = ws := Function.update_self _ _ _
  unfold Thread.modifyObj
  rw [cur]
  exact th.withCur_set ws _ pc pc'

end WithCur

structure Thread.Locked (th : Thread ω) (o : Nat) (th' : Thread ω) : Prop where
  pc : th'.pc = .inSection
  window : th'.window = th.window
  run : th'.runCounter = th.runCounter
  detected : th'.isWriteDetected = true
  checks : th'.isCheckLocks = true
  num : th'.cur.numOfObjs = th.cur.numOfObjs + 1
  locks : th'.cur.writerLocks = th.cur.writerLocks
  actual : (th'.cur.buffer th.cur.numOfObjs).pObjActual = o
  id : (th'.cur.buffer th.cur.numOfObjs).threadId = 0
  others : ∀ slot, slot ≠ th.wsCurId → th'.objWriteSet slot = th.objWriteSet slot
  version : th'.localVersion = th.localVersion
  derefs : th'.derefs = th.derefs
  frees : th'.freeNodes = th.freeNodes

section Section
variable {ok : State ω → Act ω → Prop} {g : State ω} {th : Thread ω} {o : Nat}

theorem LibFree.lock (free : LibFree ok) (one : g.gCurThreads = 1) (unlocked : g.hdr o = .null)
    (pc : th.pc = .tryLock (.header (.actual o))) (first : th.isWriteDetected = false)
    (room : th.cur.pCur + 48 < rluMaxWriteSetBufferSize) :
    System.Leads (step oneWriteSet) ok (.lib 0) (g.withThread 0 th) fun s' => ∃ th',
      s' = (g.withHdr (Function.update g.hdr o
        (.copy ⟨0, th.wsCurId, th.cur.numOfObjs⟩))).withThread 0 th' ∧ th.Locked o th' := by
  generalize flagged : ({ th with isWriteDetected := true, isCheckLocks := true } : Thread ω) = th₁
  have start : th₁.withCur th.cur (.tryLock (.storeActual o)) =
      { th with isWriteDetected := true, isCheckLocks := true }.atPc (.tryLock (.storeActual o)) := by
    rw [← flagged]
    unfold Thread.withCur Thread.cur
    rw [Function.update_eq_self]
    rfl
  refine free.lead (t := th₁.withCur th.cur (.tryLock (.storeActual o))) (w := .none) one
    (by rw [pc]; rfl) ?_ ?_
  · rw [pc, start]
    simp only [libStep, tryLockStep, State.withThread_hdr, unlocked, tryLockFree, first]
    rfl
  have header : (th₁.withCur th.cur (.tryLock (.storeActual o))).headerFits := by
    unfold Thread.headerFits wsObjHeaderSize objHeaderSize
    rw [Thread.withCur_cur]
    omega
  refine free.lead one rfl
    (congrArg some ((if_pos header).trans (Thread.withCur_storeHeader ..))) ?_
  refine free.lead one rfl (congrArg some (Thread.withCur_storeHeader ..)) ?_
  refine free.lead one rfl (congrArg some (Thread.withCur_storeHeader ..)) ?_
  refine free.lead one rfl (congrArg some (Thread.withCur_storeHeader ..)) ?_
  simp only [Thread.withCur_cur, State.write]
  generalize logged : WriteSet.storeHeader _ _ _ _ = ws
  have facts : ws.numOfObjs = th.cur.numOfObjs ∧ ws.writerLocks = th.cur.writerLocks ∧
      ws.pCur = th.cur.pCur + 40 ∧ (ws.buffer th.cur.numOfObjs).pObjActual = o ∧
      (ws.buffer th.cur.numOfObjs).threadId = 0 := by
    rw [← logged]
    simp [WriteSet.storeHeader, WriteSet.modifyObj, WriteSet.writerLocks, wsObjHeaderSize,
      objHeaderSize]
  obtain ⟨num, locks, pCur, actual, id⟩ := facts
  refine free.lead (t := th₁.withCur ws (.tryLock (.copy o 0)))
    (w := .hdr o (.copy ⟨0, th₁.wsCurId, ws.numOfObjs⟩)) one rfl ?_ ?_
  · refine congrArg some ((if_pos unlocked).trans ?_)
    simp only [Thread.nextCopy, Thread.withCur_cur, Thread.withCur_wsCurId]
    rfl
  have words : oneWriteSet.objWords = 1 := rfl
  generalize filled : (fun e : WsObj ω =>
    { e with copy := Function.update e.copy 0 (g.obj o 0) }) = fill
  refine free.lead (t := th₁.withCur (ws.modifyObj ws.numOfObjs fill) (.tryLock (.copy o 1)))
    (w := .none) one rfl ?_ ?_
  · have fits : ws.pCur + 8 * (0 + 1) ≤ rluMaxWriteSetBufferSize := by omega
    simp only [libStep, tryLockStep, Thread.withCur_pc, Thread.withCur_cur, Thread.withCur_wsCurId,
      words, Nat.zero_lt_one, if_true, fits]
    rw [← filled]
    exact congrArg some (Thread.withCur_modifyObj ..)
  have filledFacts : (fill (ws.buffer th.cur.numOfObjs)).pObjActual = o ∧
      (fill (ws.buffer th.cur.numOfObjs)).threadId = 0 := by
    rw [← filled]
    exact ⟨actual, id⟩
  refine free.lead (t := th₁.withCur ((ws.modifyObj ws.numOfObjs fill).addObj 8)
    (.tryLock (.check o))) (w := .none) one rfl ?_ ?_
  · have fits : (ws.modifyObj ws.numOfObjs fill).pCur + 8 * 1 < rluMaxWriteSetBufferSize := by
      show ws.pCur + 8 * 1 < _
      omega
    simp only [libStep, tryLockStep, Thread.withCur_pc, Thread.withCur_cur, Thread.withCur_wsCurId,
      words, Nat.lt_irrefl, if_false, fits, if_true]
    exact congrArg some (Thread.withCur_set ..)
  refine free.lead (t := { th₁ with ret := .copy ⟨0, th₁.wsCurId, ws.numOfObjs⟩ }.withCur
    ((ws.modifyObj ws.numOfObjs fill).addObj 8) .inSection) (w := .none) one rfl ?_ ?_
  · have held : (g.withHdr (Function.update g.hdr o
        (.copy ⟨0, th₁.wsCurId, ws.numOfObjs⟩))).hdr o = .copy ⟨0, th₁.wsCurId, ws.numOfObjs⟩ :=
      Function.update_self _ _ _
    have last : ((ws.modifyObj ws.numOfObjs fill).addObj 8).numOfObjs - 1 = ws.numOfObjs := rfl
    simp only [libStep, tryLockStep, Thread.withCur_pc, Thread.withCur_cur, Thread.withCur_wsCurId,
      State.withThread_hdr, State.write, last, held, if_true]
    rfl
  have curId : th₁.wsCurId = th.wsCurId := by rw [← flagged]
  refine .done ⟨_, by rw [← curId, ← num]; rfl, ?_⟩
  rw [← flagged]
  exact {
    pc := rfl
    window := rfl
    run := rfl
    detected := rfl
    checks := rfl
    num := by
      rw [Thread.withCur_cur]
      exact congrArg (· + 1) num
    locks := by
      rw [Thread.withCur_cur]
      exact locks
    actual := by
      rw [Thread.withCur_cur, ← num]
      show ((ws.modifyObj ws.numOfObjs fill).buffer ws.numOfObjs).pObjActual = o
      rw [WriteSet.modifyObj_buffer_self, num]
      exact filledFacts.1
    id := by
      rw [Thread.withCur_cur, ← num]
      show ((ws.modifyObj ws.numOfObjs fill).buffer ws.numOfObjs).threadId = 0
      rw [WriteSet.modifyObj_buffer_self, num]
      exact filledFacts.2
    others := fun slot ne => Function.update_of_ne ne _ _
    version := rfl
    derefs := rfl
    frees := rfl }

end Section

/-! ### One commit after the other -/

/-- Thread 0 is idle after `n` commits that are all written back. -/
structure Drained (init : Nat → Nat → ω) (n : Nat) (s : State ω) : Prop where
  solo : Solo oneWriteSet init s
  idle : (s.thread 0).pc = .idle
  tail : (s.thread 0).wsTailCounter = n
  wb : (s.thread 0).wsWbCounter = n
  head : n = (s.thread 0).wsHeadCounter + 1 ∨ n = 0
  clear : s.isSync 0 = 0
  versions : s.gWriterVersion = s.gCommitVersion

structure Holding (init : Nat → Nat → ω) (n o : Nat) (g : State ω) (th : Thread ω) : Prop where
  solo : Solo oneWriteSet init (g.withThread 0 th)
  inside : th.pc = .inSection
  tail : th.wsTailCounter = n
  wb : th.wsWbCounter = n
  head : n = th.wsHeadCounter + 1 ∨ n = 0
  clear : g.isSync 0 = 0
  versions : g.gWriterVersion = g.gCommitVersion
  detected : th.isWriteDetected = true
  num : th.cur.numOfObjs = 1
  locks : th.cur.writerLocks = []
  held : g.hdr o = .copy ⟨0, wsIndex n, 0⟩
  free : ∀ o', o' ≠ o → g.hdr o' = .null
  actual : (th.cur.buffer 0).pObjActual = o
  id : (th.cur.buffer 0).threadId = 0

section Pump
variable {init : Nat → Nat → ω} {n o : Nat} {s g : State ω} {th : Thread ω}

theorem Solo.call {th' : Thread ω} (h : Solo oneWriteSet init (g.withThread 0 th)) (op : Op ω)
    (called : ReadLogUpdate.call oneWriteSet (g.withThread 0 th) 0 th op th.pc = some (th', .none)) :
    Solo oneWriteSet init (g.withThread 0 th') := by
  have one : g.gCurThreads = 1 := h.one
  have hs : ReadLogUpdate.step oneWriteSet (g.withThread 0 th) (.call 0 op) =
      some (g.withThread 0 th') := by
    simp only [ReadLogUpdate.step, State.withThread_gCurThreads, one, Nat.zero_lt_one, if_true,
      State.withThread_thread, called, Option.map_some, State.write_withThread, State.write]
  exact ⟨h.reach.step (h.ok (.inr ⟨op, rfl⟩) trivial) hs, one⟩

theorem SoloLeads.exists {Q : State ω → Prop} (h : Solo oneWriteSet init s)
    (leads : SoloLeads oneWriteSet s Q) : ∃ s', Solo oneWriteSet init s' ∧ Q s' := by
  obtain ⟨s', -, q⟩ := leads.solo h
  exact ⟨s', q⟩

theorem Drained.ready (h : Drained init n s) : (s.thread 0).runCounter % 2 = 0 ∧
    (s.thread 0).cur.Empty ∧ (s.thread 0).wsCurId = wsIndex n ∧ ∀ o, s.hdr o = .null := by
  obtain ⟨ok, pCur⟩ := reachable_ring (t := 0) (fun _ _ und _ => und.2) h.solo.reach.reachable
  have control := ok.control
  rw [h.idle] at control
  have ring := Thread.ring_of_ok ok pCur (by rw [h.idle]; trivial)
  have strict := control.2.1
  refine ⟨control.1, ?_, ring.curId.trans (by rw [h.tail]; rfl), h.solo.unlocked ?_ fun i => ?_⟩
  · obtain ⟨num, locks⟩ := ok.cur_empty strict (by rw [h.idle]; trivial)
    have settled := pCur.settled (s.thread 0).wsCurId fun _ => by rw [Thread.overhangs, h.idle]; rfl
    exact ⟨num, settled.trans (by rw [← Thread.cur, num, Nat.zero_mul]), locks⟩
  · rw [h.wb, h.tail]
  · rw [h.idle]
    trivial

theorem Drained.hold (h : Drained init n s) (o : Nat) : ∃ g th, Holding init n o g th := by
  obtain ⟨even, ⟨num, pCur, locks⟩, curId, unlocked⟩ := h.ready
  have start : s = s.withThread 0 (s.thread 0) := (State.withThread_self s 0).symm
  obtain ⟨solo, idle, tail, wb, head, clear, versions⟩ := h
  generalize s.thread 0 = th at *
  rw [start] at solo
  have one : s.gCurThreads = 1 := solo.one
  have enters : Solo oneWriteSet init (s.withThread 0 (th.atPc (.syncCheckpoint .readerLock))) :=
    solo.call .readerLock (by rw [idle]; rfl)
  obtain ⟨_, solo, rfl⟩ := SoloLeads.exists enters
    (libFree_undisturbed.enter one even clear rfl)
  have tries : Solo oneWriteSet init (s.withThread 0
      ({ th.entered s with inLock := false }.atPc (.tryLock (.header (.actual o))))) :=
    solo.call (.tryLock (.actual o)) rfl
  have room : th.cur.pCur + 48 < rluMaxWriteSetBufferSize := by rw [pCur]; decide
  obtain ⟨_, solo, th', rfl, locked⟩ := SoloLeads.exists tries
    (libFree_undisturbed.lock one (unlocked o) rfl rfl room)
  obtain ⟨head', wb', tail', -⟩ := Thread.window_eq locked.window
  have actual : (th'.cur.buffer th.cur.numOfObjs).pObjActual = o := locked.actual
  have id : (th'.cur.buffer th.cur.numOfObjs).threadId = 0 := locked.id
  rw [num] at actual id
  exact ⟨_, th', {
    solo := solo
    inside := locked.pc
    tail := tail'.trans tail
    wb := wb'.trans wb
    head := by
      rw [head']
      exact head
    clear := clear
    versions := versions
    detected := locked.detected
    num := locked.num.trans (congrArg (· + 1) num)
    locks := locked.locks.trans locks
    held := (Function.update_self _ _ _).trans (by
      show PObjCopy.copy ⟨0, th.wsCurId, th.cur.numOfObjs⟩ = _
      rw [curId, num])
    free := fun o' ne => (Function.update_of_ne ne _ _).trans (unlocked o')
    actual := actual
    id := id }⟩

def Thread.committed (th : Thread ω) : Thread ω :=
  { th with
    runCounter := th.runCounter + 1
    isWriteDetected := false
    wsTailCounter := th.wsTailCounter + 1
    wsCurId := wsIndex (th.wsTailCounter + 1) }

theorem Holding.commit (h : Holding init n o g th) : ∃ s', Drained init (n + 1) s' := by
  have ok := h.solo.wf.threads 0
  rw [State.withThread_thread] at ok
  have odd : th.runCounter % 2 = 1 := by
    have control := ok.control
    rw [h.inside] at control
    exact control.1
  have curId : th.wsCurId = wsIndex n := ok.curId.trans (congrArg wsIndex h.tail)
  have head : th.wsHeadCounter ≤ n := ok.head_le_wb.trans_eq h.wb
  have left : Solo oneWriteSet init
      (g.withThread 0 ({ th with runCounter := th.runCounter + 1 }.atPc .readerUnlock)) := by
    refine h.solo.call .readerUnlock ?_
    rw [h.inside]
    exact congrArg some (if_pos odd)
  obtain ⟨solo, tail, wb, clear, versions, detected, locks⟩ :
      Solo oneWriteSet init (g.withThread 0 th) ∧ th.wsTailCounter = n ∧ th.wsWbCounter = n ∧
        g.isSync 0 = 0 ∧ g.gWriterVersion = g.gCommitVersion ∧ th.isWriteDetected = true ∧
        th.cur.writerLocks = [] :=
    ⟨h.solo, h.tail, h.wb, h.clear, h.versions, h.detected, h.locks⟩
  have published : SoloLeads oneWriteSet
      (g.withThread 0 ({ th with runCounter := th.runCounter + 1 }.atPc .readerUnlock)) fun s' =>
        s' = (g.write 0 th (.commit th.currentObjs)).withThread 0
          (th.committed.atPc (.sync .commit .start)) := by
    refine left.step (th.committed.atPc (.sync .commit .start)) (.commit th.currentObjs) ?_ (by rintro ⟨⟩)
      fun _ => .done rfl
    have due : th.wsTailCounter + 1 - th.wsWbCounter ≥ oneWriteSet.maxWriteSets := by
      rw [tail, wb, Nat.add_sub_cancel_left]
      rfl
    show some (if th.isWriteDetected then _ else _) = _
    rw [if_pos detected]
    exact congrArg some (if_pos (.inr due))
  obtain ⟨_, published, rfl⟩ := SoloLeads.exists left published
  obtain ⟨_, synced, g', q, log, rfl, slots, write, commit, clear', -⟩ :=
    SoloLeads.exists published (published.sync (by
      show th.wsTailCounter + 1 ≠ th.wsHeadCounter
      omega))
  have empty : (log (wsIndex n)).writerLocks = [] := by
    rcases slots (wsIndex n) with reset | same
    · rw [reset]
      rfl
    · rw [same, ← curId]
      exact locks
  -- no writer lock is released, and no other thread asks for a sync
  have released : SoloLeads oneWriteSet (g'.withThread 0
      ((th.committed.synced q log).atPc (.release .commit (.check 0)))) fun s' =>
        s' = g'.withThread 0 ((th.committed.synced q log).atPc .idle) := by
    refine synced.step ((th.committed.synced q log).atPc (.syncCheckpoint .readerUnlock)) .none ?_
      (by rintro _ ⟨⟩) fun solo => ?_
    · refine congrArg some (releaseStep_last ?_)
      show (log (wsIndex (th.wsTailCounter + 1 - 1))).writerLocks[0]? = none
      rw [Nat.add_sub_cancel, tail, empty]
      rfl
    · refine solo.step ((th.committed.synced q log).atPc .idle) .none ?_ (by rintro ⟨⟩) fun _ => .done rfl
      show (if g'.isSync 0 = 0 then _ else _) = _
      rw [if_pos clear']
      rfl
  obtain ⟨s', drained, rfl⟩ := SoloLeads.exists synced released
  refine ⟨_, drained, ?_, ?_, ?_, ?_, clear', ?_⟩
  · rw [State.withThread_thread]
    rfl
  · rw [State.withThread_thread]
    exact congrArg (· + 1) tail
  · rw [State.withThread_thread]
    exact congrArg (· + 1) tail
  · rw [State.withThread_thread]
    exact .inl (congrArg (· + 1) wb.symm)
  · show g'.gWriterVersion = g'.gCommitVersion
    rw [write, commit]
    exact congrArg (· + 1) versions

theorem drained_zero (init : Nat → Nat → ω) : ∃ s, Drained init 0 s := by
  have reach : ReachableFrom oneWriteSet init Undisturbed ({ State.init init with
      gCurThreads := 1
      thread := Function.update (State.init init).thread 0 Thread.init }) :=
    .step (.start rfl) (a := .threadInit) ⟨fun u lt => absurd lt (Nat.not_lt_zero u), trivial⟩ rfl
  refine ⟨_, ⟨reach.step (a := .lib 0) ⟨versionAtomic_of_one rfl rfl, nofun⟩ rfl, rfl⟩, rfl, rfl, rfl,
    .inr rfl, rfl, rfl⟩

theorem exists_drained (init : Nat → Nat → ω) (n : Nat) : ∃ s, Drained init n s := by
  induction n with
  | zero => exact drained_zero init
  | succ n ih =>
    obtain ⟨s, drained⟩ := ih
    obtain ⟨g, th, holding⟩ := drained.hold 0
    exact holding.commit

end Pump

/-! ### The abort that unlocks nothing -/

structure Lone (init : Nat → Nat → ω) (s : State ω) : Prop where
  reach : ReachableFrom oneWriteSet init VersionAtomic s
  one : s.gCurThreads = 1

structure Missed (init : Nat → Nat → ω) (g : State ω) (th : Thread ω) : Prop where
  lone : Lone init (g.withThread 0 th)
  idle : th.pc = .idle
  even : th.runCounter % 2 = 0
  drained : th.wsTailCounter = th.wsWbCounter
  head : th.wsTailCounter ≠ th.wsHeadCounter
  curId : th.wsCurId = 96
  pCur : th.cur.pCur = 0
  num : th.cur.numOfObjs = 0
  id : (th.cur.buffer 0).threadId = 0
  clear : g.isSync 0 = 0
  versions : g.gWriterVersion = g.gCommitVersion
  held : g.hdr 0 = .copy ⟨0, 96, 0⟩
  free : ∀ o, o ≠ 0 → g.hdr o = .null

section Lone
variable {init : Nat → Nat → ω} {s g : State ω} {th : Thread ω} {Q : State ω → Prop}

theorem Lone.exists (h : Lone init s)
    (leads : System.Leads (step oneWriteSet) VersionAtomic (.lib 0) s Q) :
    ∃ s', Lone init s' ∧ Q s' := by
  obtain ⟨s', repeats, q⟩ := leads
  refine ⟨s', ⟨h.reach.repeats repeats, ?_⟩, q⟩
  refine repeats.invariant (fun s => s.gCurThreads = 1) h.one fun s t one _ hs => ?_
  rcases step_cases hs with ⟨e, -⟩ | ⟨u, e, -, -, rfl⟩
  · cases e
  · rw [State.apply_gCurThreads]
    exact one

theorem Lone.call {th' : Thread ω} (h : Lone init (g.withThread 0 th)) (op : Op ω)
    (called : ReadLogUpdate.call oneWriteSet (g.withThread 0 th) 0 th op th.pc = some (th', .none)) :
    Lone init (g.withThread 0 th') := by
  have one : g.gCurThreads = 1 := h.one
  have hs : ReadLogUpdate.step oneWriteSet (g.withThread 0 th) (.call 0 op) =
      some (g.withThread 0 th') := by
    simp only [ReadLogUpdate.step, State.withThread_gCurThreads, one, Nat.zero_lt_one, if_true,
      State.withThread_thread, called, Option.map_some, State.write_withThread, State.write]
  exact ⟨h.reach.step (versionAtomic_of_one h.one rfl) hs, one⟩

omit [Inhabited ω] in
theorem abortStep_start {t slot : Nat} (detected : th.isWriteDetected = true)
    (index : wsIndexInt (toInt32 th.wsTailCounter) = .ofNat slot) :
    abortStep s t th .start = { th with isWriteDetected := false }.go (.abort (.unlock slot 0)) := by
  simp only [abortStep, if_pos detected, index]

def Thread.missed (th : Thread ω) : Thread ω :=
  { th with
    runCounter := th.runCounter + 1
    isWriteDetected := false }.rluResetWriteSet th.wsTailCounter

/-- With the counter at `2 ^ 31 + 48` the abort looks at slot 0, not at slot 96. -/
theorem Holding.abort (h : Holding init (2 ^ 31 + 48) 0 g th) : ∃ th', Missed init g th' := by
  have ok := h.solo.wf.threads 0
  rw [State.withThread_thread] at ok
  obtain ⟨odd, -, -, -, -⟩ : th.runCounter % 2 = 1 ∧ _ := by
    have control := ok.control
    rw [h.inside] at control
    exact control
  have tail := h.tail
  have wb := h.wb
  have curId : th.wsCurId = 96 := ok.curId.trans (congrArg wsIndex tail)
  have head : th.wsHeadCounter + 1 = 2 ^ 31 + 48 := by
    have := h.head
    omega
  have empty : (th.objWriteSet 0).numOfObjs = 0 := by
    refine (ok.empty 0 (fun ctr ge lt index => ?_) fun same => ?_).1
    · obtain rfl : ctr = 2 ^ 31 + 47 := by omega
      cases index
    · rw [curId] at same
      cases same
  have lone : Lone init (g.withThread 0 th) :=
    ⟨h.solo.reach.mono fun _ _ ok => ok.1, h.solo.one⟩
  have left : Lone init
      (g.withThread 0 ({ th with runCounter := th.runCounter + 1 }.atPc (.abort .start))) := by
    refine lone.call .abort ?_
    rw [h.inside]
    exact congrArg some (if_pos odd)
  have one : g.gCurThreads = 1 := lone.one
  have detected := h.detected
  have locks : (th.objWriteSet th.wsCurId).writerLocks = [] := h.locks
  have index : wsIndexInt (toInt32 (2 ^ 31 + 48)) = .ofNat 0 := by decide
  have missed : System.Leads (step oneWriteSet) VersionAtomic (.lib 0)
      (g.withThread 0 ({ th with runCounter := th.runCounter + 1 }.atPc (.abort .start))) fun s' =>
        s' = g.withThread 0 (th.missed.atPc .idle) := by
    refine lib_lead (t := { th with
      runCounter := th.runCounter + 1
      isWriteDetected := false }.atPc (.abort (.unlock 0 0))) (w := .none) one
      (versionAtomic_of_one one rfl) ?_ ?_
    · exact congrArg some (abortStep_start detected (tail ▸ index))
    refine lib_lead (t := { th with
      runCounter := th.runCounter + 1
      isWriteDetected := false }.atPc (.release .abortWrite (.check 0))) (w := .none) one
      (versionAtomic_of_one one rfl) ?_ ?_
    · show some (if 0 < (th.objWriteSet 0).numOfObjs then _ else _) = _
      rw [empty]
      rfl
    refine lib_lead (t := th.missed.atPc (.syncCheckpoint .abort)) (w := .none) one
      (versionAtomic_of_one one rfl) ?_ ?_
    · refine congrArg some (releaseStep_last ?_)
      show (th.objWriteSet th.wsCurId).writerLocks[0]? = none
      rw [locks]
      rfl
    refine lib_lead (t := th.missed.atPc .idle) (w := .none) one (versionAtomic_of_one one rfl) ?_
      (.done rfl)
    show (if g.isSync 0 = 0 then _ else _) = _
    rw [if_pos h.clear]
    rfl
  obtain ⟨_, lone, rfl⟩ := left.exists missed
  have cur : (th.missed.atPc .idle).cur = th.cur.reset := by
    show Function.update th.objWriteSet (wsIndex th.wsTailCounter) _ th.wsCurId = _
    rw [← ok.curId, Function.update_self]
    rfl
  have held := h.held
  refine ⟨_, {
    lone := lone
    idle := rfl
    even := by
      show (th.runCounter + 1) % 2 = 0
      omega
    drained := tail.trans wb.symm
    head := by
      show th.wsTailCounter ≠ th.wsHeadCounter
      omega
    curId := curId
    pCur := by
      rw [cur]
      rfl
    num := by
      rw [cur]
      rfl
    id := by
      rw [cur]
      exact h.id
    clear := h.clear
    versions := h.versions
    held := held
    free := h.free }⟩

theorem exists_missed (init : Nat → Nat → ω) : ∃ g th, Missed init g th := by
  obtain ⟨s, drained⟩ := exists_drained init (2 ^ 31 + 48)
  obtain ⟨g, th, holding⟩ := drained.hold 0
  obtain ⟨th', missed⟩ := holding.abort
  exact ⟨g, th', missed⟩

theorem Missed.enter (h : Missed init g th) :
    Lone init (g.withThread 0 (th.entered g)) := by
  have enters : Lone init (g.withThread 0 (th.atPc (.syncCheckpoint .readerLock))) := by
    refine h.lone.call .readerLock ?_
    rw [h.idle]
    rfl
  obtain ⟨_, lone, rfl⟩ := enters.exists
    (libFree_versionAtomic.enter h.lone.one h.even h.clear rfl)
  exact lone

end Lone

/-- A section that checks no locks, of a thread that an aborted section left an object locked:
the slow path would return the entry of the log. -/
theorem shortcuts_impure : ¬ ∀ s : State Nat,
    System.Reachable Init (step oneWriteSet) VersionAtomic s →
    ∀ t, (s.thread t).runCounter % 2 = 1 → (s.thread t).pc.kind ≠ .readerLock →
    ((s.thread t).isCheckLocks = false →
      ∀ o, rluDerefSlowPath s t true (.actual o) = .actual o) ∧
    ((s.thread t).isSteal = false →
      ∀ p, rluDerefSlowPath s t false p = rluDerefSlowPath s t true p) := by
  intro claim
  obtain ⟨g, th, missed⟩ := exists_missed (ω := Nat) fun _ _ => 0
  have id := missed.id
  rw [Thread.cur, missed.curId] at id
  have pure := claim _ missed.enter.reach.reachable 0
  rw [State.withThread_thread] at pure
  have odd : (th.runCounter + 1) % 2 = 1 := by
    have := missed.even
    omega
  have unchecked : (th.entered g).isCheckLocks = false := by
    simp [Thread.entered, missed.versions, missed.drained]
  have fast := (pure odd (by rintro ⟨⟩)).1 unchecked 0
  have slow : rluDerefSlowPath (g.withThread 0 (th.entered g)) 0 true (.actual 0) =
      .copy ⟨0, 96, 0⟩ := by
    have entry : (g.withThread 0 (th.entered g)).wsObj ⟨0, 96, 0⟩ = (th.objWriteSet 96).buffer 0 := by
      simp only [State.wsObj, State.withThread_thread]
      rfl
    simp only [rluDerefSlowPath, State.getCopy, State.withThread_hdr, missed.held, entry, id, if_true]
  rw [fast] at slow
  cases slow

/-! ### A section that reads through the stale entry -/

section Stale
variable {init : Nat → Nat → ω} {g : State ω} {th : Thread ω} {o : Nat} {x : ω}

def Thread.stored (th : Thread ω) (x : ω) : Thread ω :=
  (th.modifyObj th.wsCurId 0 fun e => { e with copy := Function.update e.copy 0 x }).atPc .inSection

theorem Lone.store (h : Lone init (g.withThread 0 th)) (inside : th.pc = .inSection)
    (one : th.cur.numOfObjs = 1) (x : ω) : Lone init (g.withThread 0 (th.stored x)) := by
  refine h.call (.store ⟨0, th.wsCurId, 0⟩ 0 x) ?_
  rw [inside]
  exact if_pos ⟨rfl, rfl, by rw [one]; exact Nat.zero_lt_one⟩

theorem Lone.deref {c : CopyAddr} (h : Lone init (g.withThread 0 th)) (inside : th.pc = .inSection)
    (checks : th.isCheckLocks = true) (held : g.hdr o = .copy c) (owner : c.owner = 0)
    (id : ((th.objWriteSet c.slot).buffer c.idx).threadId = 0) :
    Lone init (g.withThread 0 (derefReturn th (.actual o) (.copy c)).1) := by
  have one : g.gCurThreads = 1 := h.one
  have called : Lone init (g.withThread 0 (th.atPc (.deref (.header (.actual o))))) := by
    refine h.call (.deref (.actual o)) ?_
    rw [inside]
    refine if_neg ?_
    rw [checks]
    exact nofun
  have leads : System.Leads (step oneWriteSet) VersionAtomic (.lib 0)
      (g.withThread 0 (th.atPc (.deref (.header (.actual o))))) fun s' =>
        s' = g.withThread 0 (derefReturn th (.actual o) (.copy c)).1 := by
    refine lib_lead (t := th.atPc (.deref (.slow (.actual o)))) (w := .none) one
      (versionAtomic_of_one one rfl) ?_ ?_
    · refine congrArg some (if_neg ?_)
      show g.hdr o ≠ .null
      rw [held]
      exact nofun
    refine lib_lead (t := th.atPc (.deref (.owner (.actual o) c))) (w := .none) one
      (versionAtomic_of_one one rfl) ?_ ?_
    · simp only [Thread.atPc_pc, libStep, derefStep, State.getCopy, State.write,
        State.withThread_hdr, held]
      rfl
    refine lib_lead (w := .none) one (versionAtomic_of_one one rfl) ?_ (.done rfl)
    · have entry : ((g.withThread 0 (th.atPc (.deref (.owner (.actual o) c)))).wsObj c).threadId = 0 := by
        simp only [State.wsObj, owner, State.withThread_thread]
        exact id
      exact congrArg some (if_pos entry)
  obtain ⟨_, lone, rfl⟩ := called.exists leads
  exact lone

/-- The section locked another object, so the entry that object 0 points at is its own copy of
that object: what it stores there it reads as object 0. -/
theorem snapshot_isolation_stale : ¬ ∀ s : State Nat,
    ReachableFrom oneWriteSet (fun _ _ => 0) VersionAtomic s → ∀ r : Nat,
    (s.thread r).runCounter % 2 = 1 → (s.thread r).pc.kind ≠ .readerLock →
    ∀ d ∈ (s.thread r).derefs, ∀ o, d.arg = .actual o →
    d.Isolated oneWriteSet (fun _ _ => 0) s r (s.thread r).localVersion o ∧
    ∀ a s', VersionAtomic s a → step oneWriteSet s a = some s' →
      (s'.thread r).runCounter = (s.thread r).runCounter → ∀ w < oneWriteSet.objWords,
      s'.load d.result w = s.load d.result w ∨
      ∃ c x, d.result = .copy c ∧ a = .call r (.store c w x) := by
  intro claim
  obtain ⟨g, th, missed⟩ := exists_missed (ω := Nat) fun _ _ => 0
  have one : g.gCurThreads = 1 := missed.lone.one
  have tries : Lone (fun _ _ => 0) (g.withThread 0 ({ th.entered g with inLock := false }.atPc
      (.tryLock (.header (.actual 1))))) := missed.enter.call (.tryLock (.actual 1)) rfl
  have room : th.cur.pCur + 48 < rluMaxWriteSetBufferSize := by
    rw [missed.pCur]
    decide
  obtain ⟨_, lone, th', rfl, locked⟩ := tries.exists
    (libFree_versionAtomic.lock one (missed.free 1 (by decide)) rfl rfl room)
  have curId : th'.wsCurId = 96 := (Thread.window_eq locked.window).2.2.2.trans missed.curId
  have num : th'.cur.numOfObjs = 1 := locked.num.trans (congrArg (· + 1) missed.num)
  have actual : (th'.cur.buffer th.cur.numOfObjs).pObjActual = 1 := locked.actual
  have id : (th'.cur.buffer th.cur.numOfObjs).threadId = 0 := locked.id
  rw [missed.num] at actual id
  have held : (Function.update g.hdr 1 (.copy ⟨0, th.wsCurId, th.cur.numOfObjs⟩)) 0 =
      .copy ⟨0, 96, 0⟩ := (Function.update_of_ne (by decide) _ _).trans missed.held
  obtain ⟨-, wb, tail, -⟩ := Thread.window_eq locked.window
  have odd : th'.runCounter % 2 = 1 := by
    have run : th'.runCounter = th.runCounter + 1 := locked.run
    have := missed.even
    omega
  -- any word but the one that the published write sets left
  generalize value : valueAt (fun _ _ => 0) th'.localVersion g.published 0 0 = v
  have cur : (th'.stored (v + 1)).cur = th'.cur.modifyObj 0 fun e =>
      { e with copy := Function.update e.copy 0 (v + 1) } := Function.update_self _ _ _
  have entry : ((th'.stored (v + 1)).cur.buffer 0) =
      { th'.cur.buffer 0 with copy := Function.update (th'.cur.buffer 0).copy 0 (v + 1) } := by
    rw [cur]
    exact WriteSet.modifyObj_buffer_self _ _ _
  have slot : (th'.stored (v + 1)).objWriteSet 96 = (th'.stored (v + 1)).cur := by
    rw [Thread.cur, ← curId]
    rfl
  have read := (lone.store locked.pc num (v + 1)).deref (o := 0) rfl locked.checks held rfl (by
    rw [slot, entry]
    exact id)
  have own : (th'.stored (v + 1)).hasLocked 0 = false := by
    have counted : (th'.stored (v + 1)).cur.numOfObjs = 1 := by
      rw [cur]
      exact num
    rw [Thread.hasLocked, counted]
    simp [entry, actual]
  have isolated := claim _ read.reach 0
  rw [State.withThread_thread] at isolated
  have shown := (isolated odd (by rintro ⟨⟩) _ (List.mem_cons_self ..) 0 rfl).1.published own (by
    rintro ⟨ctr, i, ge, lt, -⟩
    rw [State.withThread_thread] at ge lt
    have ge : th'.wsWbCounter ≤ ctr := ge
    have lt : ctr < th'.wsTailCounter := lt
    rw [wb] at ge
    rw [tail] at lt
    have drained := missed.drained
    change th.wsWbCounter ≤ ctr at ge
    change ctr < th.wsTailCounter at lt
    omega) 0 (by decide)
  have load : State.load _ (.copy ⟨0, 96, 0⟩) 0 = some v := shown.trans (congrArg some value)
  simp only [State.load, State.wsObj, State.withThread_thread] at load
  have stale := Option.some.inj load
  have fresh : ((th'.stored (v + 1)).objWriteSet 96 |>.buffer 0).copy 0 = v + 1 := by
    rw [slot, entry]
    simp only [Function.update_self]
  exact absurd (fresh.symm.trans stale) (Nat.succ_ne_self v)

end Stale



end ReadLogUpdate
