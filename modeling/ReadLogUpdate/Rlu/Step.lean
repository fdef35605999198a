import ReadLogUpdate.System
import ReadLogUpdate.Rlu.Types

/-!
# The functions of `rlu.c` as steps

A step of a thread reads the state, rewrites the thread's own record and makes at most one
write outside it. It makes at most one access to a location that another thread writes, or
one store to a location that another thread reads; accesses to data no other thread writes
ride along.
-/

namespace ReadLogUpdate

variable {ω : Type}

inductive Write (ω : Type) where
  | none
  | hdr (o : Nat) (v : PObjCopy)
  | obj (o w : Nat) (x : ω)
  | addWriterVersion
  | addCommitVersion
  | isSync (u : Nat) (n : Nat)
  | writerLock (l : Nat) (n : Nat)
  | register
  | free (n : FreeNode)
  | commit (objs : List (Nat × (Nat → ω)))

/-- Put back the record of thread `t` and make one write. -/
def State.apply (s : State ω) (t : Nat) (th : Thread ω) (w : Write ω) : State ω :=
  let s := { s with thread := Function.update s.thread t th }
  match w with
  | .none => s
  | .hdr o v => { s with hdr := Function.update s.hdr o v }
  | .obj o w x => { s with obj := Function.update s.obj o (Function.update (s.obj o) w x) }
  | .addWriterVersion =>
    { s with
      gWriterVersion := s.gWriterVersion + 1
      published := ⟨th.flight.getD 0, th.pendingObjs⟩ :: s.published }
  | .addCommitVersion => { s with gCommitVersion := s.gCommitVersion + 1 }
  | .isSync u n => { s with isSync := Function.update s.isSync u n }
  | .writerLock l n => { s with gWriterLocks := Function.update s.gWriterLocks l n }
  | .register => { s with gThreads := Function.update s.gThreads t true }
  | .free n => { s with released := (t, n) :: s.released }
  | .commit objs => { s with left := overlay objs s.left }

abbrev Effect (ω : Type) := Thread ω × Write ω

namespace WriteSet

def modifyObj (ws : WriteSet ω) (i : Nat) (f : WsObj ω → WsObj ω) : WriteSet ω :=
  { ws with buffer := Function.update ws.buffer i (f (ws.buffer i)) }

/-- Store into the header of entry `i` and leave `p_cur` at `pCur`. -/
def storeHeader (ws : WriteSet ω) (i : Nat) (f : WsObj ω → WsObj ω) (pCur : Nat) : WriteSet ω :=
  { ws.modifyObj i f with pCur := pCur }

/-- Count the entry whose copy of `size` bytes ends at the new `p_cur`. -/
def addObj (ws : WriteSet ω) (size : Nat) : WriteSet ω :=
  { ws with numOfObjs := ws.numOfObjs + 1, pCur := ws.pCur + size }

def addWriterLock (ws : WriteSet ω) (l : Nat) : WriteSet ω :=
  { ws with
    locksSize := ws.locksSize + 1
    lockIds := Function.update ws.lockIds ws.locksSize l }

def resetWriterLocks (ws : WriteSet ω) : WriteSet ω := { ws with locksSize := 0 }

def reset (ws : WriteSet ω) : WriteSet ω := { ws with numOfObjs := 0, pCur := 0, locksSize := 0 }

@[simp] theorem modifyObj_numOfObjs (ws : WriteSet ω) (i : Nat) (f : WsObj ω → WsObj ω) :
    (ws.modifyObj i f).numOfObjs = ws.numOfObjs := rfl

@[simp] theorem modifyObj_writerLocks (ws : WriteSet ω) (i : Nat) (f : WsObj ω → WsObj ω) :
    (ws.modifyObj i f).writerLocks = ws.writerLocks := rfl

@[simp] theorem addWriterLock_writerLocks (ws : WriteSet ω) (l : Nat) :
    (ws.addWriterLock l).writerLocks = ws.writerLocks ++ [l] := by
  have old : ∀ i ∈ List.range ws.locksSize, (ws.addWriterLock l).lockIds i = ws.lockIds i := by
    intro i mem
    exact Function.update_of_ne (Nat.ne_of_lt (List.mem_range.mp mem)) _ _
  have new : (ws.addWriterLock l).lockIds ws.locksSize = l := Function.update_self _ _ _
  show (List.range (ws.locksSize + 1)).map (ws.addWriterLock l).lockIds = _
  rw [List.range_succ, List.map_append, List.map_congr_left old, List.map_singleton, new]
  rfl

@[simp] theorem resetWriterLocks_writerLocks (ws : WriteSet ω) :
    ws.resetWriterLocks.writerLocks = [] := rfl

@[simp] theorem reset_writerLocks (ws : WriteSet ω) : ws.reset.writerLocks = [] := rfl

@[simp] theorem modifyObj_buffer_self (ws : WriteSet ω) (i : Nat) (f : WsObj ω → WsObj ω) :
    (ws.modifyObj i f).buffer i = f (ws.buffer i) := Function.update_self _ _ _

theorem modifyObj_buffer_of_ne (ws : WriteSet ω) {i j : Nat} (f : WsObj ω → WsObj ω) (ne : j ≠ i) :
    (ws.modifyObj i f).buffer j = ws.buffer j := Function.update_of_ne ne _ _

@[simp] theorem storeHeader_buffer (ws : WriteSet ω) (i : Nat) (f : WsObj ω → WsObj ω) (pCur : Nat) :
    (ws.storeHeader i f pCur).buffer = (ws.modifyObj i f).buffer := rfl

end WriteSet

namespace Thread

def go (th : Thread ω) (pc : Pc) : Effect ω := ({ th with pc := pc }, .none)

/-- `RLU_ASSERT` at a line of `rlu.c` fires. -/
def fail (th : Thread ω) (line : Nat) : Effect ω := th.go (.failed line th.pc)

def fault (th : Thread ω) : Effect ω := th.go (.fault th.pc)

def setWriteSet (th : Thread ω) (slot : Nat) (ws : WriteSet ω) : Thread ω :=
  { th with objWriteSet := Function.update th.objWriteSet slot ws }

def modifyObj (th : Thread ω) (slot i : Nat) (f : WsObj ω → WsObj ω) : Thread ω :=
  th.setWriteSet slot ((th.objWriteSet slot).modifyObj i f)

def rluResetWriterLocks (th : Thread ω) (slot : Nat) : Thread ω :=
  th.setWriteSet slot (th.objWriteSet slot).resetWriterLocks

def rluResetWriteSet (th : Thread ω) (wsCounter : Nat) : Thread ω :=
  th.setWriteSet (wsIndex wsCounter) (th.objWriteSet (wsIndex wsCounter)).reset

/-- The first loop of `rlu_writeback_write_sets_and_unlock`, over `n` counters from `ctr`. -/
def rluResetWriteSets (th : Thread ω) (ctr : Nat) : Nat → Thread ω
  | 0 => th
  | n + 1 => (th.rluResetWriteSet ctr).rluResetWriteSets (ctr + 1) n

def cur (th : Thread ω) : WriteSet ω := th.objWriteSet th.wsCurId

/-- Store into the header of the entry at `p_cur` and leave `p_cur` at `pCur`. -/
def storeHeader (th : Thread ω) (f : WsObj ω → WsObj ω) (pCur : Nat) : Thread ω :=
  th.setWriteSet th.wsCurId (th.cur.storeHeader th.cur.numOfObjs f pCur)

def headerFits (th : Thread ω) : Prop :=
  th.cur.pCur + wsObjHeaderSize + objHeaderSize ≤ rluMaxWriteSetBufferSize

instance (th : Thread ω) : Decidable th.headerFits := inferInstanceAs (Decidable (_ ≤ _))

def nextCopy (th : Thread ω) (t : Nat) : CopyAddr := ⟨t, th.wsCurId, th.cur.numOfObjs⟩

def hasLocked (th : Thread ω) (o : Nat) : Bool :=
  (List.range th.cur.numOfObjs).any fun i => (th.cur.buffer i).pObjActual == o

/-- `c` is an entry of the current write set, which carries its owner's id. -/
def isCurrent (th : Thread ω) (c : CopyAddr) : Bool :=
  c.slot == th.wsCurId && c.idx < th.cur.numOfObjs && (th.cur.buffer c.idx).threadId == c.owner

/-- Whether the section holds the object that `p` denotes: a copy is the section's own, or denotes
the object whose dereference returned it. -/
def holds (th : Thread ω) : Ptr → Bool
  | .null => false
  | .actual o => th.hasLocked o
  | .copy c => th.isCurrent c || th.derefs.any fun d =>
    d.result == .copy c && match d.arg with | .actual o => th.hasLocked o | _ => false

end Thread

/-! ### Returns -/

/-- What follows `rlu_sync_checkpoint` or `rlu_sync_and_writeback` at each call site:
`rlu_reset`, the assertions of `rlu_commit_write_set`, or the end of the call. -/
def afterSync (th : Thread ω) : Caller → Effect ω
  | .readerLock =>
    { th with isWriteDetected := false, isSteal := true, isCheckLocks := true }.go
      (.readerLock .register)
  | .commit =>
    if ¬ th.wsTailCounter > th.wsHeadCounter then th.fail 608
    else if wsIndex th.wsTailCounter = wsIndex th.wsHeadCounter then th.fail 609
    else th.go (.release .commit (.check 0))
  | .readerUnlock | .abort | .checkpoint => th.go .idle
  | .finish => th.go (.sync .finishAgain .start)
  | .finishAgain => th.go .finished

/-! ### `rlu_register_thread` and the rest of `rlu_reader_lock` -/

def readerLockStep (s : State ω) (th : Thread ω) : ReaderLockPc → Effect ω
  | .register =>
    if th.runCounter % 2 = 0 then
      { th with runCounter := th.runCounter + 1, derefs := [] }.go (.readerLock .loadVersion)
    else th.fail 424
  | .loadVersion => th.go (.readerLock (.storeVersion s.gWriterVersion))
  | .storeVersion v => { th with localVersion := v }.go (.readerLock .loadCommit)
  | .loadCommit =>
    { th with
      localCommitVersion := s.gCommitVersion
      isSteal := th.localVersion != s.gCommitVersion
      isCheckLocks := !(th.localVersion == s.gCommitVersion && th.wsTailCounter == th.wsWbCounter) }.go .inSection

/-! ### `RLU_DEREF` and `rlu_deref_slow_path` -/

def derefReturn (th : Thread ω) (p r : Ptr) : Effect ω :=
  { th with
    ret := r
    derefs := ⟨p, r, th.holds p⟩ :: th.derefs }.go .inSection

def derefStep (s : State ω) (t : Nat) (th : Thread ω) : DerefPc → Effect ω
  | .header p =>
    if s.getCopy p = .null then derefReturn th p p else th.go (.deref (.slow p))
  | .slow p =>
    match s.getCopy p with
    | .null => derefReturn th p p
    | .ptrIdObjCopy => derefReturn th p p
    | .copy c => th.go (.deref (.owner p c))
  | .owner p c =>
    if (s.wsObj c).threadId = t then derefReturn th p (.copy c)
    else if th.isSteal then th.go (.deref (.version p c (s.wsObj c).threadId))
    else derefReturn th p p
  | .version p c thId =>
    match (s.thread thId).writerVersion with
    | some v => if v ≤ th.localVersion then derefReturn th p (.copy c) else derefReturn th p p
    | none => derefReturn th p p

/-! ### `rlu_try_lock` -/

def tryLockFail (th : Thread ω) : Effect ω :=
  if th.inLock then th.fail 942 else th.go .mustAbort

def tryLockReturn (th : Thread ω) (c : CopyAddr) : Effect ω :=
  { th with ret := .copy c }.go .inSection

def tryLockFree (th : Thread ω) (o : Nat) : Effect ω :=
  if th.isWriteDetected then th.go (.tryLock (.storeActual o))
  else { th with isWriteDetected := true, isCheckLocks := true }.go (.tryLock (.storeActual o))

def tryLockStep (cfg : Config) (s : State ω) (t : Nat) (th : Thread ω) : TryLockPc → Effect ω
  | .header .null => th.fault
  | .header (.copy c) =>
    if (s.wsObj c).pObjCopy = .ptrIdObjCopy then th.go (.tryLock (.actual c)) else th.fault
  | .header (.actual o) =>
    match s.hdr o with
    | .null => tryLockFree th o
    | .ptrIdObjCopy => th.fault
    | .copy c => th.go (.tryLock (.owner o c))
  -- after the conversion the header of the actual object is read as above
  | .actual c => th.go (.tryLock (.header (.actual (s.wsObj c).pObjActual)))
  | .owner o c =>
    if (s.wsObj c).threadId = t then th.go (.tryLock (.runCounter o c))
    else th.go (.tryLock (.sendLoad (s.wsObj c).threadId))
  | .runCounter _ c =>
    if th.runCounter = (s.wsObj c).runCounter then tryLockReturn th c
    else th.go (.tryLock .syncLoad)
  | .sendLoad thId => th.go (.tryLock (.sendStore thId (s.isSync thId)))
  | .sendStore thId v => ({ th with pc := .tryLock .syncLoad }, .isSync thId (v + 1))
  | .syncLoad => th.go (.tryLock (.syncStore (s.isSync t)))
  | .syncStore v => ((tryLockFail th).1, .isSync t (v + 1))
  | .storeActual o =>
    -- the stores of a header that does not fit run past the end of the buffer
    if th.headerFits then
      (th.storeHeader (fun e => { e with pObjActual := o }) th.cur.pCur).go (.tryLock (.storeRun o))
    else th.fault
  | .storeRun o =>
    (th.storeHeader (fun e => { e with runCounter := th.runCounter }) th.cur.pCur).go
      (.tryLock (.storeId o))
  | .storeId o =>
    (th.storeHeader (fun e => { e with threadId := t }) th.cur.pCur).go (.tryLock (.storeMark o))
  | .storeMark o =>
    (th.storeHeader (fun e => { e with pObjCopy := .ptrIdObjCopy })
      (th.cur.pCur + wsObjHeaderSize + objHeaderSize)).go (.tryLock (.cas o))
  | .cas o =>
    if s.hdr o = .null then
      ({ th with pc := .tryLock (.copy o 0) }, .hdr o (.copy (th.nextCopy t)))
    else tryLockFail th
  | .copy o w =>
    if w < cfg.objWords then
      if th.cur.pCur + 8 * (w + 1) ≤ rluMaxWriteSetBufferSize then
        (th.modifyObj th.wsCurId th.cur.numOfObjs fun e =>
          { e with copy := Function.update e.copy w (s.obj o w) }).go (.tryLock (.copy o (w + 1)))
      else th.fault
    else if th.cur.pCur + 8 * cfg.objWords < rluMaxWriteSetBufferSize then
      (th.setWriteSet th.wsCurId (th.cur.addObj (8 * cfg.objWords))).go (.tryLock (.check o))
    else th.fail 305
  | .check o =>
    if s.hdr o = .copy ⟨t, th.wsCurId, th.cur.numOfObjs - 1⟩ then
      tryLockReturn th ⟨t, th.wsCurId, th.cur.numOfObjs - 1⟩
    else th.fail 927

/-! ### Writer locks -/

def writerLockStep (s : State ω) (t : Nat) (th : Thread ω) : WriterLockPc → Effect ω
  | .load l => if s.gWriterLocks l = 0 then th.go (.writerLock (.cas l)) else th.go .mustAbort
  | .cas l =>
    if s.gWriterLocks l = 0 then
      let th' := th.setWriteSet th.wsCurId (th.cur.addWriterLock l)
      ({ th' with
        pc := if l ∈ th.cur.writerLocks then .failed 209 th.pc
          else if th.cur.writerLocks.length + 1 < rluMaxNestedWriterLocks then .inSection
          else .failed 215 th.pc },
        .writerLock l (lockId t))
    else th.go .mustAbort

def releaserSlot (th : Thread ω) : Releaser → Nat
  | .commit => wsIndex (th.wsTailCounter - 1)
  | _ => th.wsCurId

def afterRelease (th : Thread ω) : Releaser → Effect ω
  | .commit => th.go (.syncCheckpoint .readerUnlock)
  | .readOnly => (th.rluResetWriterLocks th.wsCurId).go (.syncCheckpoint .readerUnlock)
  | .abortWrite => (th.rluResetWriteSet th.wsTailCounter).go (.syncCheckpoint .abort)
  | .abortClean => (th.rluResetWriterLocks th.wsCurId).go (.syncCheckpoint .abort)

def releaseStep (s : State ω) (t : Nat) (th : Thread ω) (r : Releaser) : ReleasePc → Effect ω
  | .check i =>
    match (th.objWriteSet (releaserSlot th r)).writerLocks[i]? with
    | some l =>
      if s.gWriterLocks l = lockId t then th.go (.release r (.store i)) else th.fail 232
    | none => afterRelease th r
  | .store i =>
    match (th.objWriteSet (releaserSlot th r)).writerLocks[i]? with
    | some l => ({ th with pc := .release r (.check (i + 1)) }, .writerLock l 0)
    | none => th.fault

/-! ### `rlu_reader_unlock` and `rlu_abort`, after `rlu_unregister_thread` -/

/-- The branch of `rlu_reader_unlock`, with `rlu_commit_write_set` up to its sync. -/
def readerUnlockStep (cfg : Config) (th : Thread ω) : Effect ω :=
  if th.isWriteDetected then
    let th' := { th with
      isWriteDetected := false
      wsTailCounter := th.wsTailCounter + 1
      wsCurId := wsIndex (th.wsTailCounter + 1) }
    if wsIndex th'.wsTailCounter = wsIndex th'.wsHeadCounter ∨
        th'.wsTailCounter - th'.wsWbCounter ≥ cfg.maxWriteSets then
      ({ th' with pc := .sync .commit .start }, .commit th.currentObjs)
    else ((afterSync th' .commit).1, .commit th.currentObjs)
  else th.go (.release .readOnly (.check 0))

def abortStep (s : State ω) (t : Nat) (th : Thread ω) : AbortPc → Effect ω
  | .start =>
    if th.isWriteDetected then
      let th' := { th with isWriteDetected := false }
      -- `rlu_unlock_objs` takes the counter as an `int`
      match wsIndexInt (toInt32 th.wsTailCounter) with
      | .ofNat slot => th'.go (.abort (.unlock slot 0))
      | .negSucc _ => th'.fault
    else th.go (.release .abortClean (.check 0))
  | .unlock slot i =>
    let e := (th.objWriteSet slot).buffer i
    if i < (th.objWriteSet slot).numOfObjs then
      if e.pObjCopy ≠ .ptrIdObjCopy then th.fail 401
      else if s.hdr e.pObjActual ≠ .copy ⟨t, slot, i⟩ then th.fail 405
      else th.go (.abort (.unlockStore slot i))
    else th.go (.release .abortWrite (.check 0))
  | .unlockStore slot i =>
    ({ th with pc := .abort (.unlock slot (i + 1)) },
      .hdr ((th.objWriteSet slot).buffer i).pObjActual .null)

/-! ### `rlu_sync_and_writeback` -/

def syncStep (cfg : Config) (s : State ω) (t : Nat) (th : Thread ω) (k : Caller) :
    SyncPc → Effect ω
  | .start =>
    if th.runCounter % 2 = 0 then
      if th.wsTailCounter = th.wsHeadCounter then afterSync th k
      else { th with wsNum := th.wsTailCounter - th.wsWbCounter }.go (.sync k .loadVersion)
    else th.fail 553
  | .loadVersion => th.go (.sync k (.storeVersion s.gWriterVersion))
  | .storeVersion v => { th with writerVersion := some (v + 1) }.go (.sync k .fetchAdd)
  | .fetchAdd =>
    ({ th with flight := th.writerVersion, pc := .sync k (.initLoop 0) }, .addWriterVersion)
  | .initLoop u =>
    if u < s.gCurThreads then
      if u < rluMaxThreads then
        let th' := { th with
          qThreads := Function.update th.qThreads u { th.qThreads u with isWait := false } }
        if u = t then th'.go (.sync k (.initLoop (u + 1))) else th'.go (.sync k (.initThread u))
      else th.fault
    else th.go (.sync k .waitStart)
  | .initThread u =>
    if s.gThreads u then th.go (.sync k (.initCounter u)) else th.go (.sync k (.initLoop (u + 1)))
  | .initCounter u =>
    { th with
      qThreads := Function.update th.qThreads u
        { isWait := (s.thread u).runCounter % 2 == 1, runCounter := (s.thread u).runCounter } }.go (.sync k (.initLoop (u + 1)))
  | .waitStart => th.go (.sync k (.waitLoop s.gCurThreads 0))
  | .waitLoop n u =>
    if u < n then
      if u < rluMaxThreads then
        if (th.qThreads u).isWait then th.go (.sync k (.waitCounter n u))
        else th.go (.sync k (.waitLoop n (u + 1)))
      else th.fault
    else th.go (.sync k .reset)
  | .waitCounter n u =>
    if (th.qThreads u).runCounter ≠ (s.thread u).runCounter then
      { th with
        qThreads := Function.update th.qThreads u { th.qThreads u with isWait := false } }.go
        (.sync k (.waitLoop n (u + 1)))
    else th.go (.sync k (.waitVersion n u))
  | .waitVersion n u =>
    -- `version_limit` is the thread's own `writer_version`
    match th.writerVersion with
    | some v =>
      if v ≠ 0 ∧ v ≤ (s.thread u).localVersion then
        { th with
          qThreads := Function.update th.qThreads u { th.qThreads u with isWait := false } }.go
          (.sync k (.waitLoop n (u + 1)))
      else th.go (.sync k (.waitLoop n u))
    | none => th.go (.sync k (.waitLoop n u))
  | .reset =>
    { th.rluResetWriteSets th.wsHeadCounter (th.wsWbCounter - th.wsHeadCounter) with
      wsHeadCounter := th.wsWbCounter }.go (.sync k (.entry th.wsWbCounter 0))
  | .entry ctr i =>
    if ctr < th.wsTailCounter then
      if i < (th.objWriteSet (wsIndex ctr)).numOfObjs then
        if ((th.objWriteSet (wsIndex ctr)).buffer i).pObjCopy = .ptrIdObjCopy then
          th.go (.sync k (.copy ctr i 0))
        else th.fail 332
      else th.go (.sync k (.entry (ctr + 1) 0))
    else if th.wsNum = ctr - th.wsWbCounter then
      { th with wsWbCounter := th.wsTailCounter }.go (.sync k .storeMax)
    else th.fail 573
  | .copy ctr i w =>
    let e := (th.objWriteSet (wsIndex ctr)).buffer i
    if w < cfg.objWords then
      ({ th with pc := .sync k (.copy ctr i (w + 1)) }, .obj e.pObjActual w (e.copy w))
    else th.go (.sync k (.check ctr i))
  | .check ctr i =>
    match s.hdr ((th.objWriteSet (wsIndex ctr)).buffer i).pObjActual with
    | .copy c =>
      if (s.wsObj c).threadId = t then th.go (.sync k (.unlock ctr i)) else th.fail 345
    | _ => th.fault
  | .unlock ctr i =>
    ({ th with pc := .sync k (.entry ctr (i + 1)) },
      .hdr ((th.objWriteSet (wsIndex ctr)).buffer i).pObjActual .null)
  | .storeMax => { th with writerVersion := none }.go (.sync k .commitAdd)
  | .commitAdd => ({ th with flight := none, pc := .sync k .loadSync }, .addCommitVersion)
  | .loadSync =>
    if s.isSync t = 0 then th.go (.sync k (.freeCheck 0)) else th.go (.sync k .storeSync)
  | .storeSync => ({ th with pc := .sync k (.freeCheck 0) }, .isSync t 0)
  | .freeCheck i =>
    match th.freeNodes[i]? with
    | some n => if s.hdr n.obj = .null then th.go (.sync k (.free i)) else th.fail 450
    | none => afterSync { th with freeNodes := [] } k
  | .free i =>
    match th.freeNodes[i]? with
    | some n => ({ th with pc := .sync k (.freeCheck (i + 1)) }, .free n)
    | none => th.fault

/-! ### One step of a thread inside a call -/

def libStep (cfg : Config) (s : State ω) (t : Nat) (th : Thread ω) : Pc → Option (Effect ω)
  | .init => if t < rluMaxThreads then some ({ th with pc := .idle }, .register) else th.fault
  | .syncCheckpoint k => if s.isSync t = 0 then afterSync th k else th.go (.sync k .start)
  | .readerLock pc => readerLockStep s th pc
  | .deref pc => derefStep s t th pc
  | .tryLock pc => tryLockStep cfg s t th pc
  | .writerLock pc => writerLockStep s t th pc
  | .readerUnlock => readerUnlockStep cfg th
  | .abort pc => abortStep s t th pc
  | .release r pc => releaseStep s t th r pc
  | .sync k pc => syncStep cfg s t th k pc
  | .idle | .inSection | .mustAbort | .finished | .failed _ _ | .fault _ => none

theorem libStep_init {cfg : Config} {s : State ω} {t : Nat} {th : Thread ω} {e : Effect ω}
    (stepped : libStep cfg s t th .init = some e) :
    t < rluMaxThreads ∧ e = ({ th with pc := .idle }, .register) ∨ e = th.fault := by
  simp only [libStep] at stepped
  split_ifs at stepped with valid
  · exact .inl ⟨valid, (Option.some.inj stepped).symm⟩
  · exact .inr (Option.some.inj stepped).symm

/-! ### Calls -/

/-- What a client may do: the calls of the interface, and a store through a pointer that
`rlu_try_lock` returned in the running section. After a failed lock it must abort. -/
inductive Op (ω : Type) where
  | readerLock
  | readerUnlock
  | deref (p : Ptr)
  | tryLock (p : Ptr)
  | lock (p : Ptr)
  | tryWriterLock (l : Nat)
  | store (c : CopyAddr) (w : Nat) (x : ω)
  | free (p : Ptr)
  | abort
  | checkpoint
  | finish

def rluUnregisterThread (th : Thread ω) (pc : Pc) : Effect ω :=
  if th.runCounter % 2 = 1 then { th with runCounter := th.runCounter + 1 }.go pc
  else th.fail 433

def rluFree (s : State ω) (th : Thread ω) (p : Ptr) : Effect ω :=
  match s.forceActual p with
  | .null => th.go .inSection
  | .actual o =>
    if th.runCounter % 2 = 1 then
      { th with freeNodes := th.freeNodes ++ [FreeNode.mk o th.runCounter] }.go
        (if th.freeNodes.length + 1 < rluMaxFreeNodes then .inSection else .failed 737 th.pc)
    else th.fail 417
  | .copy _ => th.fault

def callIdle (th : Thread ω) : Op ω → Option (Effect ω)
  | .readerLock => th.go (.syncCheckpoint .readerLock)
  | .checkpoint => th.go (.syncCheckpoint .checkpoint)
  | .finish => th.go (.sync .finish .start)
  | _ => none

def callInSection (cfg : Config) (s : State ω) (t : Nat) (th : Thread ω) :
    Op ω → Option (Effect ω)
  | .readerUnlock => rluUnregisterThread th .readerUnlock
  | .abort => rluUnregisterThread th (.abort .start)
  | .deref p =>
    if th.isCheckLocks = false ∨ p = .null then derefReturn th p p
    else th.go (.deref (.header p))
  | .tryLock p =>
    if p = .null then th.fail 858
    else { th with inLock := false }.go (.tryLock (.header p))
  | .lock p =>
    if cfg.type ≠ .coarseGrained then th.fail 940
    else if p = .null then th.fail 858
    else { th with inLock := true }.go (.tryLock (.header p))
  | .tryWriterLock l =>
    if cfg.type = .coarseGrained then th.go (.writerLock (.load l)) else th.fail 774
  | .store c w x =>
    if c.owner = t ∧ c.slot = th.wsCurId ∧ c.idx < th.cur.numOfObjs then
      (th.modifyObj c.slot c.idx fun e => { e with copy := Function.update e.copy w x }).go
        .inSection
    else none
  | .free p => rluFree s th p
  | _ => none

def call (cfg : Config) (s : State ω) (t : Nat) (th : Thread ω) (op : Op ω) :
    Pc → Option (Effect ω)
  | .idle => callIdle th op
  | .inSection => callInSection cfg s t th op
  | .mustAbort =>
    match op with
    | .abort => rluUnregisterThread th (.abort .start)
    | _ => none
  | _ => none

/-! ### The transition system -/

inductive Act (ω : Type) where
  /-- a new thread takes its `uniq_id` in `rlu_thread_init` -/
  | threadInit
  /-- thread `t` calls -/
  | call (t : Nat) (op : Op ω)
  /-- thread `t` takes its next step inside a call -/
  | lib (t : Nat)

def Act.thread (s : State ω) : Act ω → Nat
  | .threadInit => s.gCurThreads
  | .call t _ => t
  | .lib t => t

def step [Inhabited ω] (cfg : Config) (s : State ω) : Act ω → Option (State ω)
  | .threadInit =>
    some { s with
      gCurThreads := s.gCurThreads + 1
      thread := Function.update s.thread s.gCurThreads Thread.init }
  | .call t op =>
    if t < s.gCurThreads then
      (call cfg s t (s.thread t) op (s.thread t).pc).map fun e => s.apply t e.1 e.2
    else none
  | .lib t =>
    if t < s.gCurThreads then
      (libStep cfg s t (s.thread t) (s.thread t).pc).map fun e => s.apply t e.1 e.2
    else none

/-- `rlu_deref_slow_path` evaluated at one state, with a given `is_steal`. -/
def rluDerefSlowPath (s : State ω) (t : Nat) (isSteal : Bool) (p : Ptr) : Ptr :=
  match s.getCopy p with
  | .null => p
  | .ptrIdObjCopy => p
  | .copy c =>
    if (s.wsObj c).threadId = t then .copy c
    else if isSteal then
      match (s.thread (s.wsObj c).threadId).writerVersion with
      | some v => if v ≤ (s.thread t).localVersion then .copy c else p
      | none => p
    else p

end ReadLogUpdate
