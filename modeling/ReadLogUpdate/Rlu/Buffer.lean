import ReadLogUpdate.Memory
import ReadLogUpdate.System
import ReadLogUpdate.Rlu.Types

/-!
# The bytes of a write set

`rlu_try_lock` writes an entry into the buffer of the current slot in two halves, and
`rlu_writeback_write_set` and `rlu_unlock_objs` each decode the buffer on their own. All of it
is modelled here on byte-addressed memory, with objects of any size.
-/

namespace ReadLogUpdate

open Memory

def ptrIdObjCopy : Nat := 0x12341234

def alignNumber : Nat := 8

def alignMask : Nat := alignNumber - 1

def performAlignment (objSize : Nat) : Nat := objSize + (alignNumber - (objSize &&& alignMask))

def alignObjSize (objSize : Nat) : Nat :=
  if objSize &&& alignMask ≠ 0 then performAlignment objSize else objSize

/-- `GET_COPY` of an address: the word in its object header. -/
def Memory.getCopy (m : Mem) (pObj : Nat) : Nat := loadWord m (pObj - objHeaderSize)

def objCopyToWsH (pObjCopy : Nat) : Nat := pObjCopy - (objHeaderSize + wsObjHeaderSize)

def Memory.getActual (m : Mem) (pObjCopy : Nat) : Nat := loadWord m (objCopyToWsH pObjCopy)

/-- `WS_GET_RUN_COUNTER` of the header of a copy. -/
def Memory.wsRunCounter (m : Mem) (pObjCopy : Nat) : Nat := loadWord m (objCopyToWsH pObjCopy + 16)

/-- `WS_GET_THREAD_ID` of the header of a copy. -/
def Memory.wsThreadId (m : Mem) (pObjCopy : Nat) : Nat := loadWord m (objCopyToWsH pObjCopy + 24)

def Memory.unlock (m : Mem) (pObj : Nat) : Mem := storeWord m (pObj - objHeaderSize) 0

def Memory.tryCasPtrObjCopy (m : Mem) (pObj pObjCopy : Nat) : Option Mem :=
  if getCopy m pObj = 0 then some (storeWord m (pObj - objHeaderSize) pObjCopy) else none

/-- The part of `rlu_thread_data_t` that logging reads and writes. `buffer`, `numOfObjs` and
`pCur` are those of the current slot; the buffer is aligned by its place in `obj_list_t`. -/
structure Writer where
  uniqId : Nat
  runCounter : Nat
  isWriteDetected : Bool
  isCheckLocks : Bool
  isSync : Nat
  buffer : Nat
  numOfObjs : Nat
  pCur : Nat
  uniqId_lt : uniqId < 2 ^ 64
  runCounter_lt : runCounter < 2 ^ 64
  buffer_pos : 0 < buffer
  buffer_aligned : buffer % 8 = 0
  buffer_fits : buffer + rluMaxWriteSetBufferSize ≤ 2 ^ 64

def rluAddWsObjHeaderToWriteSet (w : Writer) (m : Mem) (pObj objSize : Nat) : Writer × Mem :=
  let m := storeWord m w.pCur pObj
  let m := storeWord m (w.pCur + 8) objSize
  let m := storeWord m (w.pCur + 16) w.runCounter
  let m := storeWord m (w.pCur + 24) w.uniqId
  let m := storeWord m (w.pCur + wsObjHeaderSize) ptrIdObjCopy
  ({ w with pCur := w.pCur + wsObjHeaderSize + objHeaderSize }, m)

/-- `rlu_add_obj_copy_to_write_set` up to its assertion. -/
def rluAddObjCopyToWriteSet (w : Writer) (m : Mem) (pObj objSize : Nat) : Writer × Mem :=
  ({ w with pCur := w.pCur + alignObjSize objSize, numOfObjs := w.numOfObjs + 1 },
    memcpy m w.pCur pObj objSize)

/-- How `rlu_try_lock` ends: with the copy, without (and with a sync request to another
thread), or in an assertion, given by its line. -/
inductive TryLock where
  | locked (pObjCopy : Nat) (w : Writer) (m : Mem)
  | failed (request : Option Nat) (w : Writer) (m : Mem)
  | asserted (line : Nat)

def Writer.noteWrite (w : Writer) : Writer :=
  if w.isWriteDetected then w else { w with isWriteDetected := true, isCheckLocks := true }

def rluTryLockFree (w : Writer) (m : Mem) (pObj objSize : Nat) : TryLock :=
  let added := rluAddWsObjHeaderToWriteSet w.noteWrite m pObj objSize
  let pObjCopy := added.1.pCur
  match tryCasPtrObjCopy added.2 pObj pObjCopy with
  | none => .failed none added.1 added.2
  | some m =>
    let copied := rluAddObjCopyToWriteSet added.1 m pObj objSize
    if copied.1.pCur - copied.1.buffer < rluMaxWriteSetBufferSize then
      if getCopy copied.2 pObj = pObjCopy then .locked pObjCopy copied.1 copied.2
      else .asserted 927
    else .asserted 305

/-- `rlu_try_lock` past the conversion of a pointer to a copy. -/
def rluTryLockActual (w : Writer) (m : Mem) (pObj objSize : Nat) : TryLock :=
  let pObjCopy := getCopy m pObj
  if pObjCopy ≠ 0 then
    let thId := wsThreadId m pObjCopy
    if thId = w.uniqId then
      if w.runCounter = wsRunCounter m pObjCopy then .locked pObjCopy w m
      else .failed none { w with isSync := w.isSync + 1 } m
    else .failed (some thId) { w with isSync := w.isSync + 1 } m
  else rluTryLockFree w m pObj objSize

def rluTryLock (w : Writer) (m : Mem) (pObj objSize : Nat) : TryLock :=
  if pObj = 0 then .asserted 858
  else if getCopy m pObj = ptrIdObjCopy then rluTryLockActual w m (getActual m pObj) objSize
  else rluTryLockActual w m pObj objSize

/-- An entry of a log: the pointer to the object, its size and the address of the copy. -/
structure LogEntry where
  pObjActual : Nat
  objSize : Nat
  pObjCopy : Nat
  deriving DecidableEq

/-- The loop of `rlu_writeback_write_set` with `n` entries to go and `p_cur` at `p`: the entries
it visits, where `p_cur` ends and the memory it leaves, or the line of the assertion that fires. -/
def writebackLoop (uniqId : Nat) : Nat → Nat → Mem → Except Nat (List LogEntry × Nat × Mem)
  | 0, p, m => .ok ([], p, m)
  | n + 1, p, m =>
    let pObjActual := loadWord m p
    let objSize := loadWord m (p + 8)
    let pObjH := p + wsObjHeaderSize
    if loadWord m pObjH = ptrIdObjCopy then
      let pObjCopy := pObjH + objHeaderSize
      let m := memcpy m pObjActual pObjCopy objSize
      if wsThreadId m (getCopy m pObjActual) = uniqId then do
        let (visited, q, m) ←
          writebackLoop uniqId n (pObjCopy + alignObjSize objSize) (unlock m pObjActual)
        return (⟨pObjActual, objSize, pObjCopy⟩ :: visited, q, m)
      else .error 345
    else .error 332

def rluWritebackWriteSet (w : Writer) (m : Mem) : Except Nat (List LogEntry × Nat × Mem) := do
  let (visited, q, m) ← writebackLoop w.uniqId w.numOfObjs w.buffer m
  if q = w.pCur then return (visited, q, m) else .error 353

def unlockLoop : Nat → Nat → Mem → Except Nat (List LogEntry × Mem)
  | 0, _, m => .ok ([], m)
  | n + 1, p, m =>
    let pObjActual := loadWord m p
    let objSize := loadWord m (p + 8)
    let pObjH := p + wsObjHeaderSize
    if loadWord m pObjH = ptrIdObjCopy then
      let pObjCopy := pObjH + objHeaderSize
      if getCopy m pObjActual = pObjCopy then do
        let (visited, m) ← unlockLoop n (pObjCopy + alignObjSize objSize) (unlock m pObjActual)
        return (⟨pObjActual, objSize, pObjCopy⟩ :: visited, m)
      else .error 405
    else .error 401

def rluUnlockObjs (w : Writer) (m : Mem) : Except Nat (List LogEntry × Mem) :=
  unlockLoop w.numOfObjs w.buffer m

/-! ### A section that logs objects -/

/-- An object with its header in front of it. -/
structure Obj where
  addr : Nat
  size : Nat
  header : objHeaderSize ≤ addr
  addr_lt : addr < 2 ^ 64
  fits : addr + size ≤ 2 ^ 64

def Obj.Holds (o : Obj) (a : Nat) : Prop := o.addr - objHeaderSize ≤ a ∧ a < o.addr + o.size

def Obj.Disjoint (o o' : Obj) : Prop := ∀ a, ¬ (o.Holds a ∧ o'.Holds a)

def Writer.Holds (w : Writer) (a : Nat) : Prop :=
  w.buffer ≤ a ∧ a < w.buffer + rluMaxWriteSetBufferSize

structure LogState where
  w : Writer
  m : Mem
  /-- history: the entries in the order of their locks -/
  entries : List LogEntry

inductive LogOp where
  | tryLock (pObj objSize : Nat)
  | store (a : Nat) (b : UInt8)

/-- A call of `rlu_try_lock` that succeeds, or a store. -/
def LogState.exec (st : LogState) : LogOp → Option LogState
  | .tryLock pObj objSize =>
    match rluTryLock st.w st.m pObj objSize with
    | .locked pObjCopy w m => some { st with
        w := w
        m := m
        entries := if w.numOfObjs = st.w.numOfObjs then st.entries
          else st.entries ++ [⟨pObj, objSize, pObjCopy⟩] }
    | _ => none
  | .store a b => some { st with m := Function.update st.m a b }

/-- The section locks objects that are free, or again one it holds by either pointer; stores go
to the copies, or to what is neither the log nor the header of a locked object. -/
def LogOp.Ok (objs : List Obj) (st : LogState) : LogOp → Prop
  | .tryLock pObj objSize =>
    (∃ o ∈ objs, o.addr = pObj ∧ o.size = objSize ∧
      (getCopy st.m pObj = 0 ∨ ∃ e ∈ st.entries, e.pObjActual = pObj)) ∨
    ∃ e ∈ st.entries, e.pObjCopy = pObj
  | .store a _ =>
    (∃ e ∈ st.entries, e.pObjCopy ≤ a ∧ a < e.pObjCopy + e.objSize) ∨
    ¬ st.w.Holds a ∧ ∀ e ∈ st.entries, ¬ (e.pObjActual - objHeaderSize ≤ a ∧ a < e.pObjActual)

instance (objs : List Obj) (st : LogState) (op : LogOp) : Decidable (op.Ok objs st) :=
  match op with
  | .tryLock _ _ => inferInstanceAs (Decidable (_ ∨ _))
  | .store _ _ => inferInstanceAs (Decidable ((_ : Prop) ∨ ¬ (_ ∧ _) ∧ _))

def LogState.Runs (objs : List Obj) (st₀ : LogState) : LogState → Prop :=
  System.Reachable (Eq st₀) LogState.exec fun st op => op.Ok objs st

def LogState.Start (st : LogState) : Prop :=
  st.w.numOfObjs = 0 ∧ st.w.pCur = st.w.buffer ∧ st.entries = []

/-- The objects a program works on: pairwise disjoint, and apart from the log. -/
def Apart (objs : List Obj) (w : Writer) : Prop :=
  objs.Pairwise Obj.Disjoint ∧ ∀ o ∈ objs, ∀ a, ¬ (o.Holds a ∧ w.Holds a)

end ReadLogUpdate
