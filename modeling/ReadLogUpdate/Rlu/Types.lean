import Mathlib.Algebra.Order.Ring.Nat

/-!
# The data of `rlu.c`

Addresses, headers, write-set logs, the per-thread record and the globals. Every caller in the
repository locks objects of one type (`node_t`), so all entries of a log have one size and the
place of an entry in the buffer of a write set is given by its index. Counters are unbounded
naturals; the `int` parameter of `rlu_unlock_objs` is converted explicitly.
-/

namespace ReadLogUpdate

def rluMaxThreads : Nat := 128

def rluMaxWriteSets : Nat := 200

def rluMaxFreeNodes : Nat := 100000

def rluMaxWriteSetBufferSize : Nat := 100000

def wsObjHeaderSize : Nat := 32

def objHeaderSize : Nat := 8

def rluMaxNestedWriterLocks : Nat := 20

/-- `WS_INDEX` of a `long` counter. -/
def wsIndex (wsCounter : Nat) : Nat := wsCounter % rluMaxWriteSets

/-- The conversion of a `long` argument to an `int` parameter: it wraps modulo `2 ^ 32`. -/
def toInt32 (n : Nat) : Int := Int.bmod n (2 ^ 32)

/-- `WS_INDEX` of an `int` counter: the C remainder truncates toward zero. -/
def wsIndexInt (wsCounter : Int) : Int := wsCounter.tmod rluMaxWriteSets

def lockId (thId : Nat) : Nat := thId + 1

inductive RluType where
  | fineGrained | coarseGrained
  deriving DecidableEq

/-- What `rlu_init` leaves in the globals, with the assertions it makes, and the size in
words of the objects the program locks. -/
structure Config where
  type : RluType
  maxWriteSets : Nat
  objWords : Nat
  one_le : 1 ≤ maxWriteSets
  two_le : maxWriteSets * 2 ≤ rluMaxWriteSets
  coarse_one : type = .coarseGrained → maxWriteSets = 1

/-- The address of a copy: a thread's log, the write set in it and the entry in that. -/
structure CopyAddr where
  owner : Nat
  slot : Nat
  idx : Nat
  deriving DecidableEq

/-- `intptr_t *p_obj` -/
inductive Ptr where
  | null
  | actual (o : Nat)
  | copy (c : CopyAddr)
  deriving DecidableEq

/-- The `p_obj_copy` field of an object header. -/
inductive PObjCopy where
  | null
  | ptrIdObjCopy
  | copy (c : CopyAddr)
  deriving DecidableEq

/-- One entry of a write-set buffer: `rlu_ws_obj_header_t`, the header of the copy and the
copy, word by word. -/
structure WsObj (ω : Type) where
  pObjActual : Nat
  runCounter : Nat
  threadId : Nat
  pObjCopy : PObjCopy
  copy : Nat → ω

/-- `obj_list_t`; `locksSize` and `lockIds` are the fields of its `writer_locks_t`, and `pCur` is
the offset of `p_cur` in the buffer, in bytes. -/
structure WriteSet (ω : Type) where
  locksSize : Nat
  lockIds : Nat → Nat
  numOfObjs : Nat
  pCur : Nat
  buffer : Nat → WsObj ω

/-- The ids that the size of `writer_locks_t` covers. -/
def WriteSet.writerLocks {ω : Type} (ws : WriteSet ω) : List Nat :=
  (List.range ws.locksSize).map ws.lockIds

/-- A slot without objects or writer locks, with `p_cur` at the buffer's start. -/
def WriteSet.Empty {ω : Type} (ws : WriteSet ω) : Prop :=
  ws.numOfObjs = 0 ∧ ws.pCur = 0 ∧ ws.writerLocks = []

/-- `wait_entry_t` -/
structure WaitEntry where
  isWait : Bool
  runCounter : Nat

/-- Where a checkpoint or a sync returns to. -/
inductive Caller where
  | readerLock | commit | readerUnlock | abort | checkpoint | finish | finishAgain
  deriving DecidableEq

/-- Which of its call sites runs `rlu_release_writer_locks`: `rlu_reader_unlock` after a
commit or of a read-only section, `rlu_abort` with or without a detected write. -/
inductive Releaser where
  | commit | readOnly | abortWrite | abortClean
  deriving DecidableEq

inductive ReaderLockPc where
  | register
  | loadVersion
  | storeVersion (v : Nat)
  | loadCommit

/-- `RLU_DEREF`: the macro's load, then `rlu_deref_slow_path`. -/
inductive DerefPc where
  | header (p : Ptr)
  | slow (p : Ptr)
  | owner (p : Ptr) (c : CopyAddr)
  | version (p : Ptr) (c : CopyAddr) (thId : Nat)

inductive TryLockPc where
  | header (p : Ptr)
  | actual (c : CopyAddr)
  | owner (o : Nat) (c : CopyAddr)
  | runCounter (o : Nat) (c : CopyAddr)
  | sendLoad (thId : Nat)
  | sendStore (thId : Nat) (v : Nat)
  | syncLoad
  | syncStore (v : Nat)
  | storeActual (o : Nat)
  | storeRun (o : Nat)
  | storeId (o : Nat)
  | storeMark (o : Nat)
  | cas (o : Nat)
  | copy (o : Nat) (w : Nat)
  | check (o : Nat)

inductive WriterLockPc where
  | load (l : Nat)
  | cas (l : Nat)

inductive AbortPc where
  | start
  | unlock (slot : Nat) (i : Nat)
  | unlockStore (slot : Nat) (i : Nat)

inductive ReleasePc where
  | check (i : Nat)
  | store (i : Nat)

/-- `rlu_sync_and_writeback` with `rlu_init_quiescence` (`init`), `rlu_wait_for_quiescence`
(`wait`), `rlu_writeback_write_sets_and_unlock` and `rlu_process_free` (`free`). -/
inductive SyncPc where
  | start
  | loadVersion
  | storeVersion (v : Nat)
  | fetchAdd
  | initLoop (u : Nat)
  | initThread (u : Nat)
  | initCounter (u : Nat)
  | waitStart
  | waitLoop (n u : Nat)
  | waitCounter (n u : Nat)
  | waitVersion (n u : Nat)
  | reset
  | entry (ctr i : Nat)
  | copy (ctr i w : Nat)
  | check (ctr i : Nat)
  | unlock (ctr i : Nat)
  | storeMax
  | commitAdd
  | loadSync
  | storeSync
  | freeCheck (i : Nat)
  | free (i : Nat)

/-- The control point of a thread. `failed` is an assertion that fired, by its line, and
`fault` an access outside every object, log and array; both keep the control point where it
happened. -/
inductive Pc where
  | init
  | idle
  | inSection
  | mustAbort
  | finished
  | syncCheckpoint (k : Caller)
  | readerLock (pc : ReaderLockPc)
  | deref (pc : DerefPc)
  | tryLock (pc : TryLockPc)
  | writerLock (pc : WriterLockPc)
  | readerUnlock
  | abort (pc : AbortPc)
  | release (r : Releaser) (pc : ReleasePc)
  | sync (k : Caller) (pc : SyncPc)
  | failed (line : Nat) (pc : Pc)
  | fault (pc : Pc)

/-- A result of `RLU_DEREF` in the running section: its argument, the address it returned
and whether the section held the object then. -/
structure Deref where
  arg : Ptr
  result : Ptr
  own : Bool

/-- An object on the free list, with the `run_counter` of the section that freed it. -/
structure FreeNode where
  obj : Nat
  run : Nat
  deriving DecidableEq

/-- `rlu_thread_data_t` without `is_sync`, the only field that other threads write. It is
written by its owner alone. `writerVersion` is `none` for `MAX_VERSION`, which is above every
version. `wsNum` and `inLock` are locals: of `rlu_sync_and_writeback`, and whether
`rlu_try_lock` runs inside `rlu_lock`; `ret` is the pointer the last call returned. -/
structure Thread (ω : Type) where
  isCheckLocks : Bool
  isWriteDetected : Bool
  isSteal : Bool
  runCounter : Nat
  localVersion : Nat
  localCommitVersion : Nat
  writerVersion : Option Nat
  qThreads : Nat → WaitEntry
  wsHeadCounter : Nat
  wsWbCounter : Nat
  wsTailCounter : Nat
  wsCurId : Nat
  objWriteSet : Nat → WriteSet ω
  freeNodes : List FreeNode
  wsNum : Nat
  inLock : Bool
  ret : Ptr
  pc : Pc
  /-- history: the results of `RLU_DEREF` in the running section -/
  derefs : List Deref
  /-- history: the version of a sync between its two `FETCH_AND_ADD`s -/
  flight : Option Nat

/-- A write set as it was published: its version and the objects with their new contents. -/
structure Publication (ω : Type) where
  version : Nat
  objs : List (Nat × (Nat → ω))

structure State (ω : Type) where
  gWriterVersion : Nat
  gCommitVersion : Nat
  gCurThreads : Nat
  /-- whether `g_rlu_threads[i]` is set -/
  gThreads : Nat → Bool
  gWriterLocks : Nat → Nat
  /-- `is_sync` of every thread -/
  isSync : Nat → Nat
  /-- the header of every actual object -/
  hdr : Nat → PObjCopy
  /-- the contents of every actual object -/
  obj : Nat → Nat → ω
  thread : Nat → Thread ω
  /-- history: the objects released, with the thread that released them -/
  released : List (Nat × FreeNode)
  /-- history: what the sections that reached `rlu_reader_unlock` left in the objects -/
  left : Nat → Nat → ω
  /-- history: the published write sets, newest first -/
  published : List (Publication ω)

section Init
variable {ω : Type} [Inhabited ω]

def WsObj.init : WsObj ω := ⟨0, 0, 0, .null, fun _ => default⟩

def WriteSet.init : WriteSet ω := ⟨0, fun _ => 0, 0, 0, fun _ => WsObj.init⟩

/-- The record `rlu_thread_init` builds, before `g_rlu_threads` is set. -/
def Thread.init : Thread ω where
  isCheckLocks := false
  isWriteDetected := false
  isSteal := false
  runCounter := 0
  localVersion := 0
  localCommitVersion := 0
  writerVersion := none
  qThreads := fun _ => ⟨false, 0⟩
  wsHeadCounter := 0
  wsWbCounter := 0
  wsTailCounter := 0
  wsCurId := 0
  objWriteSet := fun _ => WriteSet.init
  freeNodes := []
  wsNum := 0
  inLock := false
  ret := .null
  pc := .init
  derefs := []
  flight := none

/-- The globals after `rlu_init`: no thread yet, every object unlocked. -/
def State.init (obj : Nat → Nat → ω) : State ω where
  gWriterVersion := 0
  gCommitVersion := 0
  gCurThreads := 0
  gThreads := fun _ => false
  gWriterLocks := fun _ => 0
  isSync := fun _ => 0
  hdr := fun _ => .null
  obj := obj
  thread := fun _ => Thread.init
  released := []
  left := obj
  published := []

end Init

section Access
variable {ω : Type}

def State.wsObj (s : State ω) (c : CopyAddr) : WsObj ω :=
  ((s.thread c.owner).objWriteSet c.slot).buffer c.idx

def State.getCopy (s : State ω) : Ptr → PObjCopy
  | .null => .null
  | .actual o => s.hdr o
  | .copy c => (s.wsObj c).pObjCopy

def State.load (s : State ω) (p : Ptr) (w : Nat) : Option ω :=
  match p with
  | .null => none
  | .actual o => some (s.obj o w)
  | .copy c => some ((s.wsObj c).copy w)

def State.forceActual (s : State ω) (p : Ptr) : Ptr :=
  match p with
  | .copy c => if (s.wsObj c).pObjCopy = .ptrIdObjCopy then .actual (s.wsObj c).pObjActual else p
  | p => p

def Thread.wsObjs (th : Thread ω) (wsCounter : Nat) : List (WsObj ω) :=
  (List.range (th.objWriteSet (wsIndex wsCounter)).numOfObjs).map
    (th.objWriteSet (wsIndex wsCounter)).buffer

def Thread.pendingObjs (th : Thread ω) : List (Nat × (Nat → ω)) :=
  (List.range' th.wsWbCounter (th.wsTailCounter - th.wsWbCounter)).flatMap fun ctr =>
    (th.wsObjs ctr).map fun e => (e.pObjActual, e.copy)

def Thread.currentObjs (th : Thread ω) : List (Nat × (Nat → ω)) :=
  (th.wsObjs th.wsTailCounter).map fun e => (e.pObjActual, e.copy)

def overlay (new : List (Nat × (Nat → ω))) (old : Nat → Nat → ω) (o : Nat) : Nat → ω :=
  ((new.find? fun e => e.1 = o).map Prod.snd).getD (old o)

/-- The value of an object after exactly the write sets published with a version `≤ l`. -/
def valueAt (init : Nat → Nat → ω) (l : Nat) : List (Publication ω) → Nat → Nat → ω
  | [], o => init o
  | p :: ps, o => if p.version ≤ l then overlay p.objs (valueAt init l ps) o
      else valueAt init l ps o

end Access

end ReadLogUpdate
