import ReadLogUpdate.Rlu.Types
import ReadLogUpdate.Sequential.Calls

/-!
# `rlu_list_*` by one thread

`rlu.c` in `RLU_TYPE_FINE_GRAINED` with one registered thread: no other thread holds a lock or is
waited for, and the log of the thread may keep write sets that are not written back. A function
without a result has failed an assertion, follows a bad pointer or has not come out of its loop.
-/

namespace ReadLogUpdate.Sequential

structure NodeT where
  val : Int
  pNext : Ptr

/-- `sizeof(node_t)`, in bytes -/
def nodeSize : Nat := 144

structure Entry where
  pObjActual : Nat
  runCounter : Nat
  threadId : Nat
  copy : NodeT

/-- The nodes with their headers, and what the thread logs about them; `used` are the nodes from
`rlu_alloc` to `free`, and `log` has the entries of every write set. -/
structure RluMem where
  node : Nat → NodeT
  hdr : Nat → PObjCopy
  used : Nat → Bool
  log : Nat → List Entry
  wsHeadCounter : Nat
  wsWbCounter : Nat
  wsTailCounter : Nat
  wsCurId : Nat
  freeNodes : List Nat

structure RluState where
  mem : RluMem
  isCheckLocks : Bool
  isWriteDetected : Bool
  isSteal : Bool
  runCounter : Nat
  localVersion : Nat
  localCommitVersion : Nat
  isSync : Nat
  gWriterVersion : Nat
  gCommitVersion : Nat

/-- `uniq_id` of the only thread -/
def uniqId : Nat := 0

namespace RluMem

def entryAt (m : RluMem) (c : CopyAddr) : Option Entry := (m.log c.slot)[c.idx]?

def load (m : RluMem) : Ptr → Option NodeT
  | .null => none
  | .actual o => some (m.node o)
  | .copy c => (m.entryAt c).map Entry.copy

def getCopy (m : RluMem) : Ptr → PObjCopy
  | .null => .null
  | .actual o => m.hdr o
  | .copy _ => .ptrIdObjCopy

def forceActual (m : RluMem) : Ptr → Option Ptr
  | .copy c => (m.entryAt c).map fun e => .actual e.pObjActual
  | p => some p

def resetWriteSet (m : RluMem) (wsCounter : Nat) : RluMem :=
  { m with log := Function.update m.log (wsIndex wsCounter) [] }

/-- The first loop of `rlu_writeback_write_sets_and_unlock`, over `n` counters. -/
def resetWriteSets : Nat → Nat → RluMem → RluMem
  | 0, _, m => m
  | n + 1, wsCounter, m => resetWriteSets n (wsCounter + 1) (m.resetWriteSet wsCounter)

def writebackObj (m : RluMem) (slot i : Nat) : Option RluMem :=
  (m.log slot)[i]?.bind fun e =>
    match m.hdr e.pObjActual with
    | .copy c => (m.entryAt c).bind fun e' =>
      if e'.threadId = uniqId then
        some { m with
          node := Function.update m.node e.pObjActual e.copy
          hdr := Function.update m.hdr e.pObjActual .null }
      else none
    | _ => none

/-- `rlu_writeback_write_set`, over `n` entries from the `i`th. -/
def writebackWriteSet (slot : Nat) : Nat → Nat → RluMem → Option RluMem
  | 0, _, m => some m
  | n + 1, i, m => (m.writebackObj slot i).bind (writebackWriteSet slot n (i + 1))

def writebackWriteSets : Nat → Nat → RluMem → Option RluMem
  | 0, _, m => some m
  | n + 1, wsCounter, m =>
    (writebackWriteSet (wsIndex wsCounter) (m.log (wsIndex wsCounter)).length 0 m).bind
      (writebackWriteSets n (wsCounter + 1))

def writebackWriteSetsAndUnlock (m : RluMem) : Option RluMem :=
  let m := { resetWriteSets (m.wsWbCounter - m.wsHeadCounter) m.wsHeadCounter m with
    wsHeadCounter := m.wsWbCounter }
  (writebackWriteSets (m.wsTailCounter - m.wsWbCounter) m.wsWbCounter m).map fun m =>
    { m with wsWbCounter := m.wsTailCounter }

def freeAll : List Nat → RluMem → Option RluMem
  | [], m => some m
  | o :: os, m =>
    if m.hdr o = .null then freeAll os { m with used := Function.update m.used o false } else none

def processFree (m : RluMem) : Option RluMem :=
  (freeAll m.freeNodes m).map fun m => { m with freeNodes := [] }

/-- The loop of `rlu_unlock_objs`, over `n` entries from the `i`th. -/
def unlockObjs (slot : Nat) : Nat → Nat → RluMem → Option RluMem
  | 0, _, m => some m
  | n + 1, i, m => (m.log slot)[i]?.bind fun e =>
    if m.hdr e.pObjActual = .copy ⟨uniqId, slot, i⟩ then
      unlockObjs slot n (i + 1) { m with hdr := Function.update m.hdr e.pObjActual .null }
    else none

/-- The object that `rlu_try_lock` locks for a pointer. -/
def lockTarget (m : RluMem) : Ptr → Option Nat
  | .null => none
  | .actual o => some o
  | .copy c => (m.entryAt c).map Entry.pObjActual

def nextCopy (m : RluMem) : CopyAddr := ⟨uniqId, m.wsCurId, (m.log m.wsCurId).length⟩

def addCopy (m : RluMem) (o runCounter : Nat) : RluMem :=
  { m with
    hdr := Function.update m.hdr o (.copy m.nextCopy)
    log := Function.update m.log m.wsCurId
      (m.log m.wsCurId ++ [⟨o, runCounter, uniqId, m.node o⟩]) }

/-- `rlu_new_node`, with the store into `val`. -/
def newNode (m : RluMem) (a : Nat) (v : Int) : RluMem :=
  { m with
    node := Function.update m.node a { m.node a with val := v }
    hdr := Function.update m.hdr a .null
    used := Function.update m.used a true }

/-- `RLU_ASSIGN_PTR` of the `p_next` of the node at `p`. -/
def assignNext (m : RluMem) (p q : Ptr) : Option RluMem :=
  (m.forceActual q).bind fun q =>
    match p with
    | .null => none
    | .actual o => some { m with node := Function.update m.node o { m.node o with pNext := q } }
    | .copy c => (m.entryAt c).map fun e => { m with
        log := Function.update m.log c.slot
          ((m.log c.slot).set c.idx { e with copy := { e.copy with pNext := q } }) }

end RluMem

namespace RluState

/-- `rlu_deref_slow_path`; a copy of another thread would have no registered owner. -/
def derefSlowPath (s : RluState) (p : Ptr) : Option Ptr :=
  match s.mem.getCopy p with
  | .null | .ptrIdObjCopy => some p
  | .copy c => (s.mem.entryAt c).bind fun e =>
    if e.threadId = uniqId then some (.copy c) else if s.isSteal then none else some p

def deref (s : RluState) (p : Ptr) : Option Ptr :=
  if s.isCheckLocks = false then some p
  else if p ≠ .null ∧ s.mem.getCopy p = .null then some p
  else s.derefSlowPath p

/-- `rlu_sync_and_writeback`; there is nobody to wait for. -/
def syncAndWriteback (s : RluState) : Option RluState :=
  if s.runCounter % 2 = 0 then
    if s.mem.wsTailCounter = s.mem.wsHeadCounter then some s
    else s.mem.writebackWriteSetsAndUnlock.bind fun m => m.processFree.map fun m =>
      { s with
        mem := m
        isSync := 0
        gWriterVersion := s.gWriterVersion + 1
        gCommitVersion := s.gCommitVersion + 1 }
  else none

def syncCheckpoint (s : RluState) : Option RluState :=
  if s.isSync = 0 then some s else s.syncAndWriteback

/-- `rlu_reset` and `rlu_register_thread` and the rest of `rlu_reader_lock`. -/
def register (s : RluState) : Option RluState :=
  if s.runCounter % 2 = 0 then
    some { s with
      isWriteDetected := false
      isSteal := s.gWriterVersion != s.gCommitVersion
      isCheckLocks := !(s.gWriterVersion == s.gCommitVersion &&
        s.mem.wsTailCounter == s.mem.wsWbCounter)
      runCounter := s.runCounter + 1
      localVersion := s.gWriterVersion
      localCommitVersion := s.gCommitVersion }
  else none

def readerLock (s : RluState) : Option RluState := s.syncCheckpoint.bind register

/-- `rlu_commit_write_set`, where `max_write_sets` is `M`. -/
def commitWriteSet (M : Nat) (s : RluState) : Option RluState :=
  let s := { s with mem := { s.mem with
    wsTailCounter := s.mem.wsTailCounter + 1
    wsCurId := wsIndex (s.mem.wsTailCounter + 1) } }
  let synced :=
    if wsIndex s.mem.wsTailCounter = wsIndex s.mem.wsHeadCounter ∨
        s.mem.wsTailCounter - s.mem.wsWbCounter ≥ M then s.syncAndWriteback
    else some s
  synced.bind fun s =>
    if s.mem.wsTailCounter > s.mem.wsHeadCounter ∧
        wsIndex s.mem.wsTailCounter ≠ wsIndex s.mem.wsHeadCounter then some s
    else none

def readerUnlock (M : Nat) (s : RluState) : Option RluState :=
  if s.runCounter % 2 = 1 then
    let s := { s with runCounter := s.runCounter + 1 }
    let committed :=
      if s.isWriteDetected then commitWriteSet M { s with isWriteDetected := false } else some s
    committed.bind syncCheckpoint
  else none

/-- `rlu_unlock_objs` and `rlu_reset_write_set` in `rlu_abort`, for the slot of the counter. -/
def unlockSlot (s : RluState) : Int → Option RluState
  | .ofNat slot => (RluMem.unlockObjs slot (s.mem.log slot).length 0 s.mem).map fun m =>
      { s with mem := m.resetWriteSet m.wsTailCounter }
  | .negSucc _ => none

/-- `rlu_unlock_objs` takes the counter as an `int`. -/
def unlockAborted (s : RluState) : Option RluState :=
  s.unlockSlot (wsIndexInt (toInt32 s.mem.wsTailCounter))

def abort (s : RluState) : Option RluState :=
  if s.runCounter % 2 = 1 then
    let s := { s with runCounter := s.runCounter + 1 }
    let unlocked :=
      if s.isWriteDetected then unlockAborted { s with isWriteDetected := false } else some s
    unlocked.bind syncCheckpoint
  else none

/-- What `rlu_try_lock` does with a node that is free. -/
def lockFree (s : RluState) (o : Nat) : Option (Bool × Ptr × RluState) :=
  let s := if s.isWriteDetected then s else { s with isWriteDetected := true, isCheckLocks := true }
  if ((s.mem.log s.mem.wsCurId).length + 1) * (wsObjHeaderSize + objHeaderSize + nodeSize) <
      rluMaxWriteSetBufferSize then
    some (true, .copy s.mem.nextCopy, { s with mem := s.mem.addCopy o s.runCounter })
  else none

/-- `rlu_try_lock`, with its result and the pointer it leaves. -/
def tryLock (s : RluState) (p : Ptr) : Option (Bool × Ptr × RluState) :=
  (s.mem.lockTarget p).bind fun o =>
    match s.mem.hdr o with
    | .copy c => (s.mem.entryAt c).bind fun e =>
      if e.threadId = uniqId then
        if s.runCounter = e.runCounter then some (true, .copy c, s)
        else some (false, p, { s with isSync := s.isSync + 1 })
      else none
    | .null => s.lockFree o
    | .ptrIdObjCopy => none

def free (s : RluState) (p : Ptr) : Option RluState :=
  (s.mem.forceActual p).bind fun p =>
    match p with
    | .null => some s
    | .actual o =>
      if s.runCounter % 2 = 1 ∧ s.mem.freeNodes.length + 1 < rluMaxFreeNodes then
        some { s with mem := { s.mem with freeNodes := s.mem.freeNodes ++ [o] } }
      else none
    | .copy _ => none

def threadFinish (s : RluState) : Option RluState := s.syncAndWriteback.bind syncAndWriteback

end RluState

/-! ### The calls -/

/-- The loop of `rlu_list_*`, with `p_prev` and `p_next` at its end. -/
def rluScan (s : RluState) (v : Int) : Nat → Ptr → Ptr → Option (Ptr × Ptr)
  | 0, _, _ => none
  | fuel + 1, prev, next => (s.mem.load next).bind fun n =>
    if n.val ≥ v then some (prev, next)
    else (s.deref n.pNext).bind fun p => rluScan s v fuel next p

def rluSearch (list : ListT) (s : RluState) (v : Int) (fuel : Nat) : Option (Ptr × Ptr) := do
  let prev ← s.deref (.actual list.pHead)
  let n ← s.mem.load prev
  let next ← s.deref n.pNext
  rluScan s v fuel prev next

/-- Whether a call returns, or jumps to `restart`. -/
inductive Outcome where
  | returned (r : Bool) (s : RluState)
  | restart (s : RluState)

def rluRestart (s : RluState) : Option Outcome := s.abort.map .restart

def rluRead (M : Nat) (s : RluState) (r : Bool) : Option Outcome :=
  (s.readerUnlock M).map (.returned r)

/-- `rlu_list_add` once both nodes are locked. -/
def rluLink (M : Nat) (s : RluState) (v : Int) (a : Nat) (prev next : Ptr) : Option Outcome := do
  let m ← (s.mem.newNode a v).assignNext (.actual a) next
  let m ← m.assignNext prev (.actual a)
  let s ← RluState.readerUnlock M { s with mem := m }
  return .returned true s

/-- `rlu_list_remove` once both nodes are locked. -/
def rluUnlink (M : Nat) (s : RluState) (prev next n : Ptr) : Option Outcome := do
  let m ← s.mem.assignNext prev n
  let s ← RluState.free { s with mem := m } next
  let s ← s.readerUnlock M
  return .returned true s

/-- The two `RLU_TRY_LOCK` of an add or a remove, and what follows when both succeed. -/
def rluLockBoth (s : RluState) (prev next : Ptr) (andThen : RluState → Ptr → Ptr → Option Outcome) :
    Option Outcome := do
  let (ok, prev, s) ← s.tryLock prev
  if ok then
    let (ok, next, s) ← s.tryLock next
    if ok then andThen s prev next else rluRestart s
  else rluRestart s

def rluFound (M : Nat) (s : RluState) (v : Int) (a : Nat) (prev next : Ptr) : Op → Option Outcome
  | .contains => do
    let n ← s.mem.load next
    rluRead M s (decide (n.val = v))
  | .add => do
    let n ← s.mem.load next
    if n.val ≠ v then rluLockBoth s prev next fun s prev next => rluLink M s v a prev next
    else rluRead M s false
  | .remove => do
    let p ← s.mem.load next
    if p.val = v then
      let n ← s.deref p.pNext
      rluLockBoth s prev next fun s prev next => rluUnlink M s prev next n
    else rluRead M s false

def rluAttempt (M : Nat) (list : ListT) (fuel : Nat) (s : RluState) (v : Int) (a : Nat) (op : Op) :
    Option Outcome := do
  let s ← s.readerLock
  let (prev, next) ← rluSearch list s v fuel
  rluFound M s v a prev next op

/-- A call that is tried at most `tries` times. -/
def rluList (M : Nat) (list : ListT) (fuel : Nat) (v : Int) (a : Nat) (op : Op) :
    Nat → RluState → Option (Bool × RluState)
  | 0, _ => none
  | tries + 1, s => (rluAttempt M list fuel s v a op).bind fun
    | .returned r s => some (r, s)
    | .restart s => rluList M list fuel v a op tries s

/-- An `rlu_list_*` call returns, after at most one jump to `restart`. -/
def RluCall (M : Nat) (list : ListT) (op : Op) (v : Int) (a : Nat) (s : RluState) (r : Bool)
    (s' : RluState) : Prop :=
  ∃ fuel, rluList M list fuel v a op 2 s = some (r, s')

end ReadLogUpdate.Sequential
