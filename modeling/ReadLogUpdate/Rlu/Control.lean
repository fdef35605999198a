import Mathlib.Tactic.Common
import Mathlib.Tactic.SplitIfs
import ReadLogUpdate.Rlu.Step

/-!
# What holds at each control point of a thread

The ring of write sets, the entries a thread still has installed in object headers, and the
facts each control point relies on. All of it speaks of one thread's own record, so the steps
of other threads cannot disturb it.
-/

namespace ReadLogUpdate

variable {ω : Type}

/-! ### The ring -/

/-- Counters less than a ring apart share a slot only when they are equal. -/
theorem wsIndex_inj {a b : Nat} (h : wsIndex a = wsIndex b) (hab : a ≤ b)
    (lt : b < a + rluMaxWriteSets) : a = b := by
  unfold wsIndex rluMaxWriteSets at *
  omega

/-! ### Walks over the log -/

def Pc.wbPos : Pc → Nat → Nat × Nat
  | .sync _ (.entry ctr i), _ => (ctr, i)
  | .sync _ (.copy ctr i _), _ => (ctr, i)
  | .sync _ (.check ctr i), _ => (ctr, i)
  | .sync _ (.unlock ctr i), _ => (ctr, i)
  | .failed _ pc, wb => pc.wbPos wb
  | .fault pc, wb => pc.wbPos wb
  | _, wb => (wb, 0)

def Pc.under : Pc → Pc
  | .failed _ pc | .fault pc => pc.under
  | pc => pc

def Pc.closed : Pc → Prop
  | .init | .idle | .finished | .syncCheckpoint _ | .readerLock _ | .sync _ _ => True
  | .release .commit _ => True
  | .failed _ pc => pc.closed
  | .fault pc => pc.closed
  | _ => False

/-- Whether entry `i` of the current write set is not live: there is no open write set, or the
running `rlu_unlock_objs` has passed the entry. -/
def Pc.dropped : Pc → Nat → Prop
  | .abort (.unlock _ k), i => i < k
  | .abort (.unlockStore _ k), i => i < k
  | .release .abortWrite _, _ => True
  | .failed _ pc, i => pc.dropped i
  | .fault pc, i => pc.dropped i
  | pc, _ => pc.closed

/-- The entry that is installed and not yet counted in `num_of_objs`. -/
def Pc.extra : Pc → Nat
  | .tryLock (.copy _ _) => 1
  | .failed _ pc => pc.extra
  | .fault pc => pc.extra
  | _ => 0

/-- Between the load of `g_rlu_writer_version` and its increment. -/
def Pc.acquiring : Pc → Bool
  | .sync _ (.storeVersion _) | .sync _ .fetchAdd => true
  | _ => false

/-- Entry `i` of the write set at counter `ctr` is logged and not yet unlocked. -/
def Thread.Live (th : Thread ω) (ctr i : Nat) : Prop :=
  ((th.pc.wbPos th.wsWbCounter).1 < ctr ∨
    (th.pc.wbPos th.wsWbCounter).1 = ctr ∧ (th.pc.wbPos th.wsWbCounter).2 ≤ i) ∧
  (ctr < th.wsTailCounter ∧ i < (th.objWriteSet (wsIndex ctr)).numOfObjs ∨
    ctr = th.wsTailCounter ∧ i < (th.objWriteSet (wsIndex ctr)).numOfObjs + th.pc.extra ∧
      ¬ th.pc.dropped i)

def Thread.entry (th : Thread ω) (ctr i : Nat) : WsObj ω :=
  (th.objWriteSet (wsIndex ctr)).buffer i

/-! ### Control points -/

def Thread.Outside (cfg : Config) (th : Thread ω) : Prop :=
  th.runCounter % 2 = 0 ∧ th.wsTailCounter < th.wsWbCounter + cfg.maxWriteSets ∧
  th.flight = none ∧ th.writerVersion = none

def Thread.Inside (cfg : Config) (th : Thread ω) : Prop :=
  th.runCounter % 2 = 1 ∧ th.wsTailCounter < th.wsWbCounter + cfg.maxWriteSets ∧
  th.flight = none ∧ th.writerVersion = none ∧
  (th.isWriteDetected = false → th.cur.numOfObjs = 0) ∧
  (th.isCheckLocks = false → th.isWriteDetected = false ∧ th.wsTailCounter = th.wsWbCounter)

def Thread.Leaving (cfg : Config) (th : Thread ω) : Prop :=
  th.Outside cfg ∧ (th.isWriteDetected = false → th.cur.numOfObjs = 0)

def tryLockControl (t : Nat) (th : Thread ω) : TryLockPc → Prop
  | .storeActual _ => th.isWriteDetected = true
  | .storeRun o => th.isWriteDetected = true ∧ (th.cur.buffer th.cur.numOfObjs).pObjActual = o
  | .storeId o => th.isWriteDetected = true ∧ (th.cur.buffer th.cur.numOfObjs).pObjActual = o ∧
      (th.cur.buffer th.cur.numOfObjs).runCounter = th.runCounter
  | .storeMark o => th.isWriteDetected = true ∧ (th.cur.buffer th.cur.numOfObjs).pObjActual = o ∧
      (th.cur.buffer th.cur.numOfObjs).runCounter = th.runCounter ∧
      (th.cur.buffer th.cur.numOfObjs).threadId = t
  | .cas o | .copy o _ => th.isWriteDetected = true ∧
      (th.cur.buffer th.cur.numOfObjs).pObjActual = o ∧
      (th.cur.buffer th.cur.numOfObjs).runCounter = th.runCounter ∧
      (th.cur.buffer th.cur.numOfObjs).threadId = t ∧
      (th.cur.buffer th.cur.numOfObjs).pObjCopy = .ptrIdObjCopy
  | .check o => 0 < th.cur.numOfObjs ∧
      (th.cur.buffer (th.cur.numOfObjs - 1)).pObjActual = o ∧ th.isWriteDetected = true
  | _ => True

def Thread.Syncing (th : Thread ω) (k : Caller) : Prop :=
  th.runCounter % 2 = 0 ∧ th.wsHeadCounter < th.wsTailCounter ∧
  th.wsNum = th.wsTailCounter - th.wsWbCounter ∧ (k = .commit → th.wsWbCounter < th.wsTailCounter)

/-- The write-back loops: recycled slots are reset, the walk is at counter `ctr`. -/
def Thread.WritingBack (th : Thread ω) (k : Caller) (ctr : Nat) : Prop :=
  th.runCounter % 2 = 0 ∧ th.wsHeadCounter = th.wsWbCounter ∧
  th.wsNum = th.wsTailCounter - th.wsWbCounter ∧ (k = .commit → th.wsWbCounter < th.wsTailCounter) ∧
  th.wsWbCounter ≤ ctr ∧ ctr ≤ th.wsTailCounter ∧
  (∃ v, th.flight = some (v + 1)) ∧ th.writerVersion = th.flight

def syncControl (cfg : Config) (th : Thread ω) (k : Caller) : SyncPc → Prop
  | .start => th.runCounter % 2 = 0 ∧ th.flight = none ∧ th.writerVersion = none ∧
      (k ≠ .commit → th.wsTailCounter < th.wsWbCounter + cfg.maxWriteSets) ∧
      (k = .commit → th.wsWbCounter < th.wsTailCounter)
  | .loadVersion | .storeVersion _ => th.Syncing k ∧ th.flight = none ∧ th.writerVersion = none
  | .fetchAdd => th.Syncing k ∧ th.flight = none ∧ ∃ v, th.writerVersion = some (v + 1)
  | .initLoop _ | .initThread _ | .initCounter _ | .waitStart | .waitLoop _ _ | .waitCounter _ _
  | .waitVersion _ _ | .reset =>
    th.Syncing k ∧ (∃ v, th.flight = some (v + 1)) ∧ th.writerVersion = th.flight
  | .entry ctr i => th.WritingBack k ctr ∧ (ctr = th.wsTailCounter → i = 0)
  | .copy ctr i _ | .check ctr i | .unlock ctr i => th.WritingBack k ctr ∧ ctr < th.wsTailCounter ∧
      i < (th.objWriteSet (wsIndex ctr)).numOfObjs
  | .storeMax => th.runCounter % 2 = 0 ∧ th.wsWbCounter = th.wsTailCounter ∧
      (∃ v, th.flight = some (v + 1)) ∧ th.writerVersion = th.flight ∧
      (k = .commit → th.wsHeadCounter < th.wsTailCounter)
  | .commitAdd => th.runCounter % 2 = 0 ∧ th.wsWbCounter = th.wsTailCounter ∧
      (∃ v, th.flight = some (v + 1)) ∧ th.writerVersion = none ∧
      (k = .commit → th.wsHeadCounter < th.wsTailCounter)
  | .loadSync | .storeSync | .freeCheck _ | .free _ => th.Outside cfg ∧
      (k = .commit → th.wsHeadCounter < th.wsTailCounter)

def localAssertions : List Nat := [332, 401, 417, 424, 433, 553, 573, 608, 609]

def Control (cfg : Config) (t : Nat) (th : Thread ω) : Pc → Prop
  | .init | .idle | .finished => th.Outside cfg
  | .syncCheckpoint k => th.Outside cfg ∧ k ≠ .commit
  | .readerLock .register => th.Outside cfg ∧ th.isWriteDetected = false ∧ th.isCheckLocks = true
  | .readerLock _ => th.Inside cfg ∧ th.isWriteDetected = false
  | .inSection | .mustAbort | .deref _ | .writerLock _ => th.Inside cfg
  | .tryLock pc => th.Inside cfg ∧ tryLockControl t th pc
  | .readerUnlock | .abort .start => th.Leaving cfg
  | .abort (.unlock slot i) => th.Outside cfg ∧ slot = th.wsCurId ∧ i ≤ th.cur.numOfObjs
  | .abort (.unlockStore slot i) => th.Outside cfg ∧ slot = th.wsCurId ∧ i < th.cur.numOfObjs
  | .release .abortWrite _ => th.Outside cfg
  | .release .commit _ => th.Outside cfg ∧ 0 < th.wsTailCounter
  | .release _ _ => th.Outside cfg ∧ th.cur.numOfObjs = 0
  | .sync k pc => syncControl cfg th k pc
  | .failed line pc => line ∉ localAssertions ∧ pc.acquiring = false ∧ Control cfg t th pc
  | .fault pc => pc.acquiring = false ∧ Control cfg t th pc

/-- A live entry carries its owner's id and the mark of a copy, and the `run_counter` of the
section that locked it: the running one for the current write set. -/
def Thread.EntryOk (th : Thread ω) (t ctr i : Nat) : Prop :=
  (th.entry ctr i).threadId = t ∧ (th.entry ctr i).pObjCopy = .ptrIdObjCopy ∧
  (ctr = th.wsTailCounter ∧ th.runCounter % 2 = 1 →
    (th.entry ctr i).runCounter = th.runCounter) ∧
  (¬ (ctr = th.wsTailCounter ∧ th.runCounter % 2 = 1) →
    (th.entry ctr i).runCounter < th.runCounter)

structure RingOk (cfg : Config) (th : Thread ω) : Prop where
  head_le_wb : th.wsHeadCounter ≤ th.wsWbCounter
  wb_le_tail : th.wsWbCounter ≤ th.wsTailCounter
  wb_le_head : th.wsWbCounter ≤ th.wsHeadCounter + cfg.maxWriteSets
  tail_le_wb : th.wsTailCounter ≤ th.wsWbCounter + cfg.maxWriteSets
  curId : th.wsCurId = wsIndex th.wsTailCounter

structure ThreadOk (cfg : Config) (t : Nat) (th : Thread ω) : Prop extends RingOk cfg th where
  wb_le_pos : th.wsWbCounter ≤ (th.pc.wbPos th.wsWbCounter).1
  empty : ∀ slot, (∀ ctr, th.wsHeadCounter ≤ ctr → ctr < th.wsTailCounter → wsIndex ctr ≠ slot) →
    (slot = th.wsCurId → th.pc.closed) →
    (th.objWriteSet slot).numOfObjs = 0 ∧ (th.objWriteSet slot).writerLocks = []
  live : ∀ ctr i, th.Live ctr i → th.EntryOk t ctr i
  control : Control cfg t th th.pc

/-! ### Frames -/

section Frame
variable {cfg : Config} {t : Nat} {th th' : Thread ω}

def Thread.window (th : Thread ω) : Nat × Nat × Nat × Nat :=
  (th.wsHeadCounter, th.wsWbCounter, th.wsTailCounter, th.wsCurId)

theorem Thread.window_eq (window : th'.window = th.window) :
    th'.wsHeadCounter = th.wsHeadCounter ∧ th'.wsWbCounter = th.wsWbCounter ∧
    th'.wsTailCounter = th.wsTailCounter ∧ th'.wsCurId = th.wsCurId := by
  simpa [Thread.window] using window

theorem RingOk.congr (h : RingOk cfg th) (window : th'.window = th.window) : RingOk cfg th' := by
  obtain ⟨head, wb, tail, cur⟩ := Thread.window_eq window
  obtain ⟨head_le_wb, wb_le_tail, wb_le_head, tail_le_wb, curId⟩ := h
  exact ⟨by rwa [head, wb], by rwa [wb, tail], by rwa [head, wb], by rwa [wb, tail],
    by rwa [cur, tail]⟩

theorem Thread.live_congr (window : th'.window = th.window) (log : th'.objWriteSet = th.objWriteSet)
    (pos : th'.pc.wbPos = th.pc.wbPos) (dropped : th'.pc.dropped = th.pc.dropped)
    (extra : th'.pc.extra = th.pc.extra) (ctr i : Nat) : th'.Live ctr i ↔ th.Live ctr i := by
  obtain ⟨-, wb, tail, -⟩ := Thread.window_eq window
  unfold Thread.Live
  rw [wb, tail, log, pos, dropped, extra]

/-- The walks over the log stand still, and the current write set may not have to be empty
where it had not before. -/
structure Pc.SameWalk (pc pc' : Pc) : Prop where
  pos : pc'.wbPos = pc.wbPos
  dropped : pc'.dropped = pc.dropped
  extra : pc'.extra = pc.extra
  closed : pc'.closed → pc.closed

/-- A step that leaves the log alone: the walks may drop live entries and add none. -/
theorem ThreadOk.advance (h : ThreadOk cfg t th)
    (window : th'.window = th.window) (log : th'.objWriteSet = th.objWriteSet)
    (run : ∀ ctr i, th.Live ctr i → th.EntryOk t ctr i → th'.EntryOk t ctr i)
    (pos : (th.pc.wbPos th.wsWbCounter).1 ≤ (th'.pc.wbPos th.wsWbCounter).1)
    (closed : th'.pc.closed → th.pc.closed) (live : ∀ ctr i, th'.Live ctr i → th.Live ctr i)
    (control : Control cfg t th' th'.pc) : ThreadOk cfg t th' where
  wb_le_pos := by
    obtain ⟨-, wb, -, -⟩ := Thread.window_eq window
    rw [wb]
    exact Nat.le_trans h.wb_le_pos pos
  toRingOk := h.toRingOk.congr window
  empty := by
    obtain ⟨head, -, tail, cur⟩ := Thread.window_eq window
    intro slot outside isCur
    rw [head, tail] at outside
    rw [cur] at isCur
    rw [log]
    exact h.empty slot outside fun e => closed (isCur e)
  live := fun ctr i l => run ctr i (live ctr i l) (h.live ctr i (live ctr i l))
  control := control

/-- A step that leaves the log and the walks over it alone. -/
theorem ThreadOk.frame_run (h : ThreadOk cfg t th)
    (window : th'.window = th.window) (log : th'.objWriteSet = th.objWriteSet)
    (run : ∀ ctr i, th.Live ctr i → th.EntryOk t ctr i → th'.EntryOk t ctr i)
    (walk : th.pc.SameWalk th'.pc) (control : Control cfg t th' th'.pc) : ThreadOk cfg t th' :=
  h.advance window log run (Nat.le_of_eq (by rw [walk.pos])) walk.closed
    (fun ctr i => (Thread.live_congr window log walk.pos walk.dropped walk.extra ctr i).mp) control

theorem Thread.entryOk_congr (tail : th'.wsTailCounter = th.wsTailCounter)
    (log : th'.objWriteSet = th.objWriteSet) (run : th'.runCounter = th.runCounter) (ctr i : Nat) :
    th'.EntryOk t ctr i ↔ th.EntryOk t ctr i := by
  unfold Thread.EntryOk Thread.entry
  rw [log, tail, run]

theorem ThreadOk.frame (h : ThreadOk cfg t th)
    (window : th'.window = th.window) (log : th'.objWriteSet = th.objWriteSet) (run : th'.runCounter = th.runCounter)
    (walk : th.pc.SameWalk th'.pc) (control : Control cfg t th' th'.pc) : ThreadOk cfg t th' :=
  h.frame_run window log
    (fun ctr i _ => (Thread.entryOk_congr (Thread.window_eq window).2.2.1 log run ctr i).mpr) walk control

/-- What a control point relies on does not depend on where the thread is. -/
theorem Control.go {pc : Pc} (q : Pc) (h : Control cfg t th pc) :
    Control cfg t { th with pc := q } pc := by
  induction pc with
  | failed line pc ih => exact ⟨h.1, h.2.1, ih h.2.2⟩
  | fault pc ih => exact ⟨h.1, ih h.2⟩
  | readerLock p => cases p <;> exact h
  | abort p => cases p <;> exact h
  | release r p => cases r <;> exact h
  | sync k p => cases p <;> exact h
  | tryLock p => cases p <;> exact h
  | _ => exact h

theorem ThreadOk.fail (h : ThreadOk cfg t th) {line : Nat} (foreign : line ∉ localAssertions)
    (idle : th.pc.acquiring = false) : ThreadOk cfg t (th.fail line).1 :=
  h.frame rfl rfl rfl ⟨rfl, rfl, rfl, id⟩ ⟨foreign, idle, h.control.go _⟩

theorem ThreadOk.fault (h : ThreadOk cfg t th) (idle : th.pc.acquiring = false) :
    ThreadOk cfg t th.fault.1 :=
  h.frame rfl rfl rfl ⟨rfl, rfl, rfl, id⟩ ⟨idle, h.control.go _⟩

theorem ThreadOk.tail_lt_ring (h : ThreadOk cfg t th)
    (strict : th.wsTailCounter < th.wsWbCounter + cfg.maxWriteSets) :
    th.wsTailCounter < th.wsHeadCounter + rluMaxWriteSets := by
  have := h.wb_le_head
  have := cfg.two_le
  omega

theorem ThreadOk.cur_empty (h : ThreadOk cfg t th)
    (strict : th.wsTailCounter < th.wsWbCounter + cfg.maxWriteSets) (closed : th.pc.closed) :
    th.cur.numOfObjs = 0 ∧ th.cur.writerLocks = [] := by
  refine h.empty _ (fun ctr ge lt e => ?_) fun _ => closed
  rw [h.curId] at e
  have := h.tail_lt_ring strict
  have := wsIndex_inj e (by omega) (by omega)
  omega

/-- Between the sections of a thread no entry of its current write set is live. -/
theorem ThreadOk.not_live_tail (h : ThreadOk cfg t th)
    (strict : th.wsTailCounter < th.wsWbCounter + cfg.maxWriteSets) (closed : th.pc.closed)
    (extra : th.pc.extra = 0) (i : Nat) : ¬ th.Live th.wsTailCounter i := by
  rintro ⟨-, ⟨lt, -⟩ | ⟨-, lt, -⟩⟩
  · omega
  · have empty := (h.cur_empty strict closed).1
    rw [Thread.cur, h.curId] at empty
    omega

/-- Outside a write-back, live entries lie in the pending write sets or the current one. -/
theorem Thread.live_iff (pos : th.pc.wbPos = fun wb => (wb, 0)) (ctr i : Nat) :
    th.Live ctr i ↔ th.wsWbCounter ≤ ctr ∧
      (ctr < th.wsTailCounter ∧ i < (th.objWriteSet (wsIndex ctr)).numOfObjs ∨
        ctr = th.wsTailCounter ∧ i < (th.objWriteSet (wsIndex ctr)).numOfObjs + th.pc.extra ∧
          ¬ th.pc.dropped i) := by
  simp only [Thread.Live, pos, Nat.zero_le, and_true]
  rw [← Nat.le_iff_lt_or_eq]

theorem ThreadOk.live_ge (h : ThreadOk cfg t th) {ctr i : Nat} (live : th.Live ctr i) :
    th.wsWbCounter ≤ ctr := by
  have := h.wb_le_pos
  obtain ⟨past, -⟩ := live
  omega

theorem Thread.Live.le_tail {ctr i : Nat} (live : th.Live ctr i) : ctr ≤ th.wsTailCounter := by
  obtain ⟨-, ⟨lt, -⟩ | ⟨e, -, -⟩⟩ := live
  · exact Nat.le_of_lt lt
  · exact Nat.le_of_eq e

/-- Two live entries lie in one slot only when they lie in one write set. -/
theorem ThreadOk.live_slot_inj (h : ThreadOk cfg t th) {a b i j : Nat} (ha : th.Live a i)
    (hb : th.Live b j) (e : wsIndex a = wsIndex b) : a = b := by
  have := h.tail_le_wb
  have := cfg.two_le
  have := cfg.one_le
  have := h.live_ge ha
  have := h.live_ge hb
  have := ha.le_tail
  have := hb.le_tail
  rcases Nat.le_total a b with le | le
  · exact wsIndex_inj e le (by omega)
  · exact (wsIndex_inj e.symm le (by omega)).symm

/-- The slot of a pending write set is not the current one. -/
theorem ThreadOk.slot_ne (h : ThreadOk cfg t th)
    (strict : th.wsTailCounter < th.wsWbCounter + cfg.maxWriteSets) {ctr : Nat}
    (ge : th.wsHeadCounter ≤ ctr) (lt : ctr < th.wsTailCounter) : wsIndex ctr ≠ th.wsCurId := by
  intro e
  rw [h.curId] at e
  have := h.tail_lt_ring strict
  have := wsIndex_inj e (by omega) (by omega)
  omega

/-- A step that rewrites the current write set and nothing else of the log. -/
theorem ThreadOk.set_cur {ws : WriteSet ω} (h : ThreadOk cfg t th)
    (window : th'.window = th.window) (log : th'.objWriteSet = Function.update th.objWriteSet th.wsCurId ws)
    (strict : th.wsTailCounter < th.wsWbCounter + cfg.maxWriteSets)
    (run : th'.runCounter = th.runCounter)
    (pos : th.pc.wbPos = fun wb => (wb, 0)) (pos' : th'.pc.wbPos = fun wb => (wb, 0))
    (closed : th'.pc.closed → ws.numOfObjs = 0 ∧ ws.writerLocks = [])
    (current : ∀ i, i < ws.numOfObjs + th'.pc.extra → ¬ th'.pc.dropped i →
      (ws.buffer i).threadId = t ∧ (ws.buffer i).pObjCopy = .ptrIdObjCopy ∧
      (th.runCounter % 2 = 1 → (ws.buffer i).runCounter = th.runCounter) ∧
      (th.runCounter % 2 = 0 → (ws.buffer i).runCounter < th.runCounter))
    (control : Control cfg t th' th'.pc) : ThreadOk cfg t th' where
  toRingOk := h.toRingOk.congr window
  wb_le_pos := Nat.le_of_eq (by rw [pos'])
  empty := by
    obtain ⟨head, -, tail, cur⟩ := Thread.window_eq window
    intro slot outside isCur
    rw [head, tail] at outside
    rw [cur] at isCur
    rw [log]
    by_cases e : slot = th.wsCurId
    · rw [e, Function.update_self]
      exact closed (isCur e)
    · rw [Function.update_of_ne e]
      exact h.empty slot outside fun e' => absurd e' e
  live := by
    obtain ⟨-, wb, tail, -⟩ := Thread.window_eq window
    intro ctr i hl
    rw [Thread.live_iff pos', wb, tail, log] at hl
    have head_le := h.head_le_wb
    obtain ⟨ge, ⟨lt, num⟩ | ⟨rfl, num, active⟩⟩ := hl
    · have ne := h.slot_ne strict (Nat.le_trans h.head_le_wb ge) lt
      rw [Function.update_of_ne ne] at num
      have ok := h.live ctr i ((Thread.live_iff pos ctr i).mpr ⟨ge, Or.inl ⟨lt, num⟩⟩)
      unfold Thread.EntryOk Thread.entry at ok ⊢
      rw [log, tail, run, Function.update_of_ne ne]
      exact ok
    · unfold Thread.EntryOk Thread.entry
      rw [← h.curId, Function.update_self] at num
      rw [log, tail, run, ← h.curId, Function.update_self]
      obtain ⟨id, mark, odd, even⟩ := current i num active
      exact ⟨id, mark, fun e => odd e.2, fun e => even (by have := fun o => e ⟨rfl, o⟩; omega)⟩
  control := control

/-- The entries of the current write set that are live carry what `EntryOk` says. -/
theorem ThreadOk.current (h : ThreadOk cfg t th) (pos : th.pc.wbPos = fun wb => (wb, 0)) {i : Nat}
    (lt : i < th.cur.numOfObjs + th.pc.extra) (active : ¬ th.pc.dropped i) :
    (th.cur.buffer i).threadId = t ∧ (th.cur.buffer i).pObjCopy = .ptrIdObjCopy ∧
    (th.runCounter % 2 = 1 → (th.cur.buffer i).runCounter = th.runCounter) ∧
    (th.runCounter % 2 = 0 → (th.cur.buffer i).runCounter < th.runCounter) := by
  unfold Thread.cur at lt ⊢
  rw [h.curId] at lt ⊢
  obtain ⟨id, mark, odd, even⟩ := h.live th.wsTailCounter i
    ((Thread.live_iff pos _ _).mpr ⟨h.wb_le_tail, Or.inr ⟨rfl, lt, active⟩⟩)
  exact ⟨id, mark, fun o => odd ⟨rfl, o⟩, fun e => even fun o => by omega⟩

/-! ### Steps outside the log -/

theorem ThreadOk.afterSync_commit (h : ThreadOk cfg t th)
    (strict : th.wsTailCounter < th.wsWbCounter + cfg.maxWriteSets)
    (lt : th.wsHeadCounter < th.wsTailCounter) :
    afterSync th .commit = th.go (.release .commit (.check 0)) := by
  have ring := h.tail_lt_ring strict
  have distinct : wsIndex th.wsTailCounter ≠ wsIndex th.wsHeadCounter := fun e => by
    have := wsIndex_inj e.symm (by omega) ring
    omega
  simp only [afterSync]
  rw [if_neg (by omega), if_neg distinct]

theorem afterSync_ok {k : Caller} (h : ThreadOk cfg t th) (walk : th.pc.SameWalk .idle)
    (closed : th.pc.closed) (outside : th.Outside cfg)
    (committed : k = .commit → th.wsHeadCounter < th.wsTailCounter) :
    ThreadOk cfg t (afterSync th k).1 := by
  have walk' (pc : Pc) (same : Pc.SameWalk .idle pc) : th.pc.SameWalk pc :=
    ⟨same.pos.trans walk.pos, same.dropped.trans walk.dropped, same.extra.trans walk.extra,
      fun _ => closed⟩
  cases k with
  | readerLock =>
    exact h.frame rfl rfl rfl (walk' _ ⟨rfl, rfl, rfl, id⟩) ⟨outside, rfl, rfl⟩
  | commit =>
    have lt := committed rfl
    rw [h.afterSync_commit outside.2.1 lt]
    exact h.frame rfl rfl rfl (walk' _ ⟨rfl, rfl, rfl, id⟩)
      ⟨outside, by show 0 < th.wsTailCounter; omega⟩
  | readerUnlock | abort | checkpoint | finishAgain =>
    exact h.frame rfl rfl rfl (walk' _ ⟨rfl, rfl, rfl, id⟩) outside
  | finish =>
    obtain ⟨even, strict, flight, writer⟩ := outside
    exact h.frame rfl rfl rfl (walk' _ ⟨rfl, rfl, rfl, id⟩)
      ⟨even, flight, writer, fun _ => strict, nofun⟩

theorem readerLockStep_ok {s : State ω} {pc : ReaderLockPc} (h : ThreadOk cfg t th)
    (hpc : th.pc = .readerLock pc) : ThreadOk cfg t (readerLockStep s th pc).1 := by
  have control := h.control
  rw [hpc] at control
  have closed : th.pc.closed := by rw [hpc]; trivial
  cases pc with
  | register =>
    obtain ⟨⟨even, strict, flight, writer⟩, write, check⟩ := control
    have empty := h.cur_empty strict closed
    simp only [readerLockStep, even, ↓reduceIte]
    refine h.frame_run rfl rfl (fun ctr i live ok => ?_) (hpc ▸ ⟨rfl, rfl, rfl, id⟩)
      ⟨⟨by show (th.runCounter + 1) % 2 = 1; omega, strict, flight, writer, fun _ => empty.1,
        fun e => by cases check.symm.trans e⟩, write⟩
    have past : ctr ≠ th.wsTailCounter := fun e =>
      h.not_live_tail strict closed (by rw [hpc]; rfl) i (e ▸ live)
    obtain ⟨id, mark, -, run⟩ := ok
    exact ⟨id, mark, fun e => absurd e.1 past, fun _ => Nat.lt_succ_of_lt (run fun e => past e.1)⟩
  | loadVersion | storeVersion v =>
    exact h.frame rfl rfl rfl (hpc ▸ ⟨rfl, rfl, rfl, id⟩) control
  | loadCommit =>
    obtain ⟨⟨odd, strict, flight, writer, num, check⟩, write⟩ := control
    have empty := h.cur_empty strict closed
    refine h.set_cur rfl (Function.update_eq_self _ _).symm strict rfl (by rw [hpc]; rfl)
      rfl nofun (fun i lt _ => absurd (empty.1 ▸ (show i < th.cur.numOfObjs from lt)) (Nat.not_lt_zero i))
      ⟨odd, strict, flight, writer, num, fun e => ⟨write, ?_⟩⟩
    have : th.localVersion = s.gCommitVersion ∧ th.wsTailCounter = th.wsWbCounter := by
      simpa [readerLockStep, Thread.go] using e
    exact this.2

theorem derefReturn_ok {p r : Ptr} (h : ThreadOk cfg t th) (walk : th.pc.SameWalk .inSection)
    (inside : th.Inside cfg) : ThreadOk cfg t (derefReturn th p r).1 :=
  h.frame rfl rfl rfl walk inside

theorem derefStep_ok {s : State ω} {pc : DerefPc} (h : ThreadOk cfg t th)
    (hpc : th.pc = .deref pc) : ThreadOk cfg t (derefStep s t th pc).1 := by
  have inside : th.Inside cfg := by simpa [hpc, Control] using h.control
  have done {p r : Ptr} : ThreadOk cfg t (derefReturn th p r).1 :=
    derefReturn_ok h (hpc ▸ ⟨rfl, rfl, rfl, id⟩) inside
  have next (pc' : DerefPc) : ThreadOk cfg t (th.go (.deref pc')).1 :=
    h.frame rfl rfl rfl (hpc ▸ ⟨rfl, rfl, rfl, id⟩) inside
  cases pc with
  | header p =>
    simp only [derefStep]
    split
    · exact done
    · exact next _
  | slow p =>
    simp only [derefStep]
    split
    · exact done
    · exact done
    · exact next _
  | owner p c =>
    simp only [derefStep]
    split_ifs
    · exact done
    · exact next _
    · exact done
  | version p c thId =>
    simp only [derefStep]
    split
    · split_ifs <;> exact done
    · exact done

theorem writerLockStep_ok {s : State ω} {pc : WriterLockPc} (h : ThreadOk cfg t th)
    (hpc : th.pc = .writerLock pc) : ThreadOk cfg t (writerLockStep s t th pc).1 := by
  have inside : th.Inside cfg := by simpa [hpc, Control] using h.control
  cases pc with
  | load l =>
    simp only [writerLockStep]
    split_ifs
    · exact h.frame rfl rfl rfl (hpc ▸ ⟨rfl, rfl, rfl, id⟩) inside
    · exact h.frame rfl rfl rfl (hpc ▸ ⟨rfl, rfl, rfl, id⟩) inside
  | cas l =>
    have pos : th.pc.wbPos = fun wb => (wb, 0) := by rw [hpc]; rfl
    have current {i : Nat} (lt : i < th.cur.numOfObjs) := h.current pos (i := i)
      (by rw [hpc]; exact lt) (by rw [hpc]; exact id)
    have inside' : (th.setWriteSet th.wsCurId (th.cur.addWriterLock l)).Inside cfg := by
      simpa [Thread.Inside, Thread.setWriteSet, Thread.cur, WriteSet.addWriterLock] using inside
    simp only [writerLockStep]
    split_ifs
    · refine h.set_cur rfl rfl inside.2.1 rfl pos (by rw [hpc]; rfl)
        (by rw [hpc]; nofun) (fun i lt _ => current (by rw [hpc] at lt; exact lt))
        ⟨by decide, by rw [hpc]; rfl, hpc ▸ inside'⟩
    · exact h.set_cur rfl rfl inside.2.1 rfl pos rfl nofun
        (fun i lt _ => current lt) inside'
    · refine h.set_cur rfl rfl inside.2.1 rfl pos (by rw [hpc]; rfl)
        (by rw [hpc]; nofun) (fun i lt _ => current (by rw [hpc] at lt; exact lt))
        ⟨by decide, by rw [hpc]; rfl, hpc ▸ inside'⟩
    · exact h.frame rfl rfl rfl (hpc ▸ ⟨rfl, rfl, rfl, id⟩) inside

theorem tryLockFree_ok {o : Nat} (h : ThreadOk cfg t th) (walk : th.pc.SameWalk .inSection)
    (inside : th.Inside cfg) : ThreadOk cfg t (tryLockFree th o).1 := by
  obtain ⟨odd, strict, flight, writer, num, check⟩ := inside
  have walk' : th.pc.SameWalk (.tryLock (.storeActual o)) :=
    ⟨walk.pos, walk.dropped, walk.extra, nofun⟩
  unfold tryLockFree
  split_ifs with write
  · exact h.frame rfl rfl rfl walk' ⟨⟨odd, strict, flight, writer, num, check⟩, write⟩
  · exact h.frame rfl rfl rfl walk' ⟨⟨odd, strict, flight, writer, nofun, nofun⟩, rfl⟩

theorem tryLockFail_ok (h : ThreadOk cfg t th) (idle : th.pc.acquiring = false)
    (walk : th.pc.SameWalk .inSection)
    (inside : th.Inside cfg) : ThreadOk cfg t (tryLockFail th).1 := by
  unfold tryLockFail
  split_ifs
  · exact h.fail (by decide) idle
  · exact h.frame rfl rfl rfl ⟨walk.pos, walk.dropped, walk.extra, nofun⟩ inside

/-- A store into the header of the entry that `rlu_add_ws_obj_header_to_write_set` fills. -/
theorem storeHeader_ok {pc pc' : TryLockPc} {f : WsObj ω → WsObj ω} {p : Nat}
    (h : ThreadOk cfg t th) (hpc : th.pc = .tryLock pc) (extra : th.pc.extra = 0)
    (extra' : (Pc.tryLock pc').extra = 0) (inside : th.Inside cfg)
    (control : tryLockControl t
      (th.storeHeader f p) pc') :
    ThreadOk cfg t ((th.storeHeader f p).go (.tryLock pc')).1 := by
  have pos : th.pc.wbPos = fun wb => (wb, 0) := by rw [hpc]; rfl
  refine h.set_cur rfl rfl inside.2.1 rfl pos rfl nofun (fun i lt _ => ?_)
    ⟨by simpa [Thread.Inside, Thread.storeHeader, WriteSet.storeHeader, Thread.setWriteSet, Thread.cur, Thread.go]
      using inside, by cases pc' <;> exact control⟩
  have lt' : i < th.cur.numOfObjs := by
    have lt'' : i < th.cur.numOfObjs + (Pc.tryLock pc').extra := lt
    rw [extra'] at lt''
    exact lt''
  rw [WriteSet.storeHeader_buffer, WriteSet.modifyObj_buffer_of_ne _ _ (Nat.ne_of_lt lt')]
  exact h.current pos (by omega) (by rw [hpc]; exact id)

theorem tryLockStep_ok {s : State ω} {pc : TryLockPc} (h : ThreadOk cfg t th)
    (hpc : th.pc = .tryLock pc) : ThreadOk cfg t (tryLockStep cfg s t th pc).1 := by
  obtain ⟨inside, control⟩ : th.Inside cfg ∧ tryLockControl t th pc := by
    simpa [hpc, Control] using h.control
  have pos : th.pc.wbPos = fun wb => (wb, 0) := by rw [hpc]; rfl
  have next {pc' : TryLockPc} (extra : th.pc.extra = (Pc.tryLock pc').extra)
      (control : tryLockControl t th pc') : ThreadOk cfg t (th.go (.tryLock pc')).1 :=
    h.frame rfl rfl rfl ⟨by rw [hpc]; rfl, by rw [hpc]; rfl, extra.symm, nofun⟩
      ⟨inside, by cases pc' <;> exact control⟩
  have walk (extra : th.pc.extra = 0) : th.pc.SameWalk .inSection :=
    ⟨by rw [hpc]; rfl, by rw [hpc]; rfl, extra.symm, nofun⟩
  cases pc with
  | header p =>
    have extra : th.pc.extra = 0 := by rw [hpc]; rfl
    cases p with
    | null => exact h.fault (by rw [hpc]; rfl)
    | copy c =>
      simp only [tryLockStep]
      split_ifs
      · exact next extra trivial
      · exact h.fault (by rw [hpc]; rfl)
    | actual o =>
      simp only [tryLockStep]
      split
      · exact tryLockFree_ok h (walk extra) inside
      · exact h.fault (by rw [hpc]; rfl)
      · exact next extra trivial
  | actual c => exact next (by rw [hpc]; rfl) trivial
  | owner o c =>
    simp only [tryLockStep]
    split_ifs <;> exact next (by rw [hpc]; rfl) trivial
  | runCounter o c =>
    simp only [tryLockStep]
    split_ifs
    · exact h.frame rfl rfl rfl (walk (by rw [hpc]; rfl)) inside
    · exact next (by rw [hpc]; rfl) trivial
  | sendLoad thId => exact next (by rw [hpc]; rfl) trivial
  | sendStore thId v =>
    have sent : ThreadOk cfg t (th.go (.tryLock .syncLoad)).1 := next (by rw [hpc]; rfl) trivial
    exact sent
  | syncLoad => exact next (by rw [hpc]; rfl) trivial
  | syncStore v => exact tryLockFail_ok h (by rw [hpc]; rfl) (walk (by rw [hpc]; rfl)) inside
  | storeActual o =>
    simp only [tryLockStep]
    split_ifs
    · refine storeHeader_ok h hpc (by rw [hpc]; rfl) rfl inside ⟨control, ?_⟩
      simp [Thread.storeHeader, WriteSet.storeHeader, Thread.setWriteSet, Thread.cur]
    · exact h.fault (by rw [hpc]; rfl)
  | storeRun o =>
    refine storeHeader_ok h hpc (by rw [hpc]; rfl) rfl inside ⟨control.1, ?_⟩
    simpa [Thread.storeHeader, WriteSet.storeHeader, Thread.setWriteSet, Thread.cur] using control.2
  | storeId o =>
    refine storeHeader_ok h hpc (by rw [hpc]; rfl) rfl inside ⟨control.1, ?_⟩
    simpa [Thread.storeHeader, WriteSet.storeHeader, Thread.setWriteSet, Thread.cur] using control.2
  | storeMark o =>
    refine storeHeader_ok h hpc (by rw [hpc]; rfl) rfl inside ⟨control.1, ?_⟩
    simpa [Thread.storeHeader, WriteSet.storeHeader, Thread.setWriteSet, Thread.cur, and_assoc] using control.2
  | cas o =>
    simp only [tryLockStep]
    split_ifs
    · refine h.set_cur rfl (Function.update_eq_self _ _).symm inside.2.1 rfl pos rfl
        nofun (fun i lt _ => ?_) ⟨inside, control⟩
      rcases Nat.lt_succ_iff_lt_or_eq.mp lt with lt | rfl
      · exact h.current pos (Nat.lt_add_right _ lt) (by rw [hpc]; exact id)
      · obtain ⟨-, -, run, id, mark⟩ := control
        exact ⟨id, mark, fun _ => run, fun even => absurd inside.1 (by omega)⟩
    · exact tryLockFail_ok h (by rw [hpc]; rfl) (walk (by rw [hpc]; rfl)) inside
  | copy o w =>
    have current {i : Nat} (lt : i < th.cur.numOfObjs + 1) := h.current pos (i := i)
      (by rw [hpc]; exact lt) (by rw [hpc]; exact id)
    simp only [tryLockStep]
    split_ifs
    · refine h.set_cur rfl rfl inside.2.1 rfl pos rfl nofun (fun i lt _ => ?_)
        ⟨by simpa [Thread.Inside, Thread.modifyObj, Thread.setWriteSet, Thread.cur, Thread.go]
          using inside, ?_⟩
      · by_cases e : i = th.cur.numOfObjs
        · subst e
          rw [WriteSet.modifyObj_buffer_self]
          exact current (Nat.lt_succ_self _)
        · rw [WriteSet.modifyObj_buffer_of_ne _ _ e]
          exact current lt
      · simpa [tryLockControl, Thread.modifyObj, Thread.setWriteSet, Thread.cur, Thread.go]
          using control
    · exact h.fault (by rw [hpc]; rfl)
    · refine h.set_cur rfl rfl inside.2.1 rfl pos rfl nofun
        (fun i lt _ => current lt) ⟨?_, ?_⟩
      · obtain ⟨odd, strict, flight, writer, num, check⟩ := inside
        exact ⟨odd, strict, flight, writer, fun e => (Bool.noConfusion (control.1.symm.trans e)), check⟩
      · exact ⟨by simp [Thread.setWriteSet, Thread.cur, Thread.go, WriteSet.addObj],
          by simpa [Thread.setWriteSet, Thread.cur, Thread.go, WriteSet.addObj] using control.2.1,
          control.1⟩
    · exact h.fail (by decide) (by rw [hpc]; rfl)
  | check o =>
    simp only [tryLockStep]
    split_ifs
    · exact h.frame rfl rfl rfl (walk (by rw [hpc]; rfl)) inside
    · exact h.fail (by decide) (by rw [hpc]; rfl)

/-! ### Leaving a section -/

theorem afterRelease_ok {r : Releaser} {pc : ReleasePc} (h : ThreadOk cfg t th)
    (hpc : th.pc = .release r pc) : ThreadOk cfg t (afterRelease th r).1 := by
  have control := h.control
  rw [hpc] at control
  have pos : th.pc.wbPos = fun wb => (wb, 0) := by rw [hpc]; rfl
  cases r with
  | commit =>
    exact h.frame rfl rfl rfl (hpc ▸ ⟨rfl, rfl, rfl, id⟩) ⟨control.1, nofun⟩
  | readOnly | abortClean =>
    obtain ⟨outside, num⟩ := control
    exact h.set_cur rfl rfl outside.2.1 rfl pos rfl (fun _ => ⟨num, rfl⟩)
      (fun _ _ active => absurd trivial active) ⟨outside, nofun⟩
  | abortWrite =>
    have outside : th.Outside cfg := control
    have log : (th.rluResetWriteSet th.wsTailCounter).objWriteSet =
        Function.update th.objWriteSet th.wsCurId th.cur.reset := by
      rw [Thread.cur, h.curId]
      rfl
    exact h.set_cur rfl log outside.2.1 rfl pos rfl
      (fun _ => ⟨rfl, rfl⟩) (fun _ _ active => absurd trivial active) ⟨outside, nofun⟩

theorem releaseStep_ok {s : State ω} {r : Releaser} {pc : ReleasePc} (h : ThreadOk cfg t th)
    (hpc : th.pc = .release r pc) : ThreadOk cfg t (releaseStep s t th r pc).1 := by
  have control := h.control
  rw [hpc] at control
  have next (pc' : ReleasePc) : ThreadOk cfg t (th.go (.release r pc')).1 := by
    cases r <;> exact h.frame rfl rfl rfl (hpc ▸ ⟨rfl, rfl, rfl, id⟩) control
  cases pc with
  | check i =>
    simp only [releaseStep]
    split
    · split_ifs
      · exact next _
      · exact h.fail (by decide) (by rw [hpc]; rfl)
    · exact afterRelease_ok h hpc
  | store i =>
    simp only [releaseStep]
    split
    · exact next _
    · exact h.fault (by rw [hpc]; rfl)

theorem commitWriteSet_ok (h : ThreadOk cfg t th) (hpc : th.pc = .readerUnlock)
    (outside : th.Outside cfg) :
    ThreadOk cfg t { th with
      isWriteDetected := false
      wsTailCounter := th.wsTailCounter + 1
      wsCurId := wsIndex (th.wsTailCounter + 1)
      pc := .sync .commit .start } where
  head_le_wb := h.head_le_wb
  wb_le_tail := Nat.le_succ_of_le h.wb_le_tail
  wb_le_head := h.wb_le_head
  tail_le_wb := outside.2.1
  curId := rfl
  wb_le_pos := Nat.le_refl _
  empty := by
    intro slot free _
    have ne : slot ≠ th.wsCurId := fun e =>
      free th.wsTailCounter (Nat.le_trans h.head_le_wb h.wb_le_tail) (Nat.lt_succ_self _)
        (e ▸ h.curId.symm)
    exact h.empty slot (fun ctr ge lt => free ctr ge (Nat.lt_succ_of_lt lt)) fun e => absurd e ne
  live := by
    intro ctr i live
    obtain ⟨past, ⟨lt, num⟩ | ⟨-, -, active⟩⟩ := live
    · have live : th.Live ctr i := by
        unfold Thread.Live
        rw [hpc]
        refine ⟨past, ?_⟩
        rcases Nat.lt_succ_iff_lt_or_eq.mp lt with lt | e
        · exact Or.inl ⟨lt, num⟩
        · exact Or.inr ⟨e, num, id⟩
      obtain ⟨id, mark, -, older⟩ := h.live ctr i live
      have even := outside.1
      exact ⟨id, mark, fun e => absurd e.2 (show ¬ th.runCounter % 2 = 1 by omega),
        fun _ => older fun e => by omega⟩
    · exact absurd trivial active
  control := ⟨outside.1, outside.2.2.1, outside.2.2.2, fun e => absurd rfl e,
    fun _ => Nat.lt_succ_of_le h.wb_le_tail⟩

theorem readerUnlockStep_ok (h : ThreadOk cfg t th) (hpc : th.pc = .readerUnlock) :
    ThreadOk cfg t (readerUnlockStep cfg th).1 := by
  obtain ⟨outside, num⟩ : th.Leaving cfg := by simpa [hpc, Control] using h.control
  simp only [readerUnlockStep]
  split_ifs with write full
  · exact commitWriteSet_ok h hpc outside
  · have ok := commitWriteSet_ok h hpc outside
    have strict : th.wsTailCounter + 1 < th.wsWbCounter + cfg.maxWriteSets := by
      have := not_or.mp full
      have := h.wb_le_tail
      omega
    have lt : th.wsHeadCounter < th.wsTailCounter + 1 :=
      Nat.lt_succ_of_le (Nat.le_trans h.head_le_wb h.wb_le_tail)
    have done := afterSync_ok (k := .commit) ok ⟨rfl, rfl, rfl, id⟩ trivial
      ⟨outside.1, strict, outside.2.2⟩ fun _ => lt
    rw [ok.afterSync_commit strict lt] at done
    have ring : wsIndex (th.wsTailCounter + 1) ≠ wsIndex th.wsHeadCounter := fun e => full (.inl e)
    simp only [afterSync]
    rw [if_neg (by omega), if_neg ring]
    exact done
  · exact h.set_cur rfl (Function.update_eq_self _ _).symm outside.2.1 rfl
      (by rw [hpc]; rfl) rfl nofun
      (fun i lt _ => h.current (by rw [hpc]; rfl) (Nat.lt_add_right _ lt) (by rw [hpc]; exact id))
      ⟨outside, num (by simpa using write)⟩

/-- `rlu_unlock_objs` finds the write set that the section wrote. -/
def Thread.RightSlot (th : Thread ω) : Prop :=
  wsIndexInt (toInt32 th.wsTailCounter) = wsIndex th.wsTailCounter

theorem abortStep_ok {s : State ω} {pc : AbortPc} (h : ThreadOk cfg t th)
    (hpc : th.pc = .abort pc) (right : pc = .start → th.isWriteDetected = true → th.RightSlot) :
    ThreadOk cfg t (abortStep s t th pc).1 := by
  have control := h.control
  rw [hpc] at control
  have pos : th.pc.wbPos = fun wb => (wb, 0) := by rw [hpc]; rfl
  cases pc with
  | start =>
    obtain ⟨outside, num⟩ : th.Leaving cfg := control
    have current {i : Nat} (lt : i < th.cur.numOfObjs) := h.current pos (i := i)
      (Nat.lt_add_right _ lt) (by rw [hpc]; exact id)
    simp only [abortStep]
    split_ifs with write
    · rw [right rfl write]
      exact h.set_cur rfl (Function.update_eq_self _ _).symm outside.2.1 rfl pos rfl
        nofun (fun i lt _ => current lt) ⟨outside, h.curId.symm, Nat.zero_le _⟩
    · exact h.set_cur rfl (Function.update_eq_self _ _).symm outside.2.1 rfl pos rfl
        nofun (fun i lt _ => current lt) ⟨outside, num (by simpa using write)⟩
  | unlock slot i =>
    obtain ⟨outside, rfl, le⟩ := control
    simp only [abortStep]
    split_ifs with lt mark holds
    · exact absurd (h.current pos (Nat.lt_add_right _ lt)
        (by rw [hpc]; exact Nat.lt_irrefl i)).2.1 mark
    · exact h.fail (by decide) (by rw [hpc]; rfl)
    · exact h.frame rfl rfl rfl (hpc ▸ ⟨rfl, rfl, rfl, id⟩) ⟨outside, rfl, lt⟩
    · exact h.set_cur rfl (Function.update_eq_self _ _).symm outside.2.1 rfl pos rfl
        nofun (fun _ _ active => absurd trivial active) outside
  | unlockStore slot i =>
    obtain ⟨outside, rfl, lt⟩ := control
    refine h.set_cur rfl (Function.update_eq_self _ _).symm outside.2.1 rfl pos rfl
      nofun (fun j lt active => ?_) ⟨outside, rfl, lt⟩
    exact h.current pos (Nat.lt_add_right _ lt)
      (by rw [hpc]; exact fun e => active (Nat.lt_succ_of_lt e))

/-! ### The sync -/

/-- The first loop of the write-back resets the slots of its counters and nothing else. -/
theorem rluResetWriteSets_eq (th : Thread ω) (ctr n : Nat) :
    ∃ log, th.rluResetWriteSets ctr n = { th with objWriteSet := log } ∧
      ∀ slot, (∃ c, ctr ≤ c ∧ c < ctr + n ∧ wsIndex c = slot) ∧
          log slot = (th.objWriteSet slot).reset ∨
        (∀ c, ctr ≤ c → c < ctr + n → wsIndex c ≠ slot) ∧ log slot = th.objWriteSet slot := by
  induction n generalizing th ctr with
  | zero => exact ⟨_, rfl, fun slot => Or.inr ⟨fun c ge lt => by omega, rfl⟩⟩
  | succ n ih =>
    obtain ⟨log, eq, spec⟩ := ih (th.rluResetWriteSet ctr) (ctr + 1)
    refine ⟨log, eq, fun slot => ?_⟩
    by_cases here : wsIndex ctr = slot
    · have first : ((th.rluResetWriteSet ctr).objWriteSet slot) = (th.objWriteSet slot).reset := by
        subst here
        exact Function.update_self _ _ _
      refine Or.inl ⟨⟨ctr, Nat.le_refl _, by omega, here⟩, ?_⟩
      rcases spec slot with ⟨-, e⟩ | ⟨-, e⟩
      · rw [e, first]
        rfl
      · rw [e, first]
    · have first : (th.rluResetWriteSet ctr).objWriteSet slot = th.objWriteSet slot :=
        Function.update_of_ne (Ne.symm here) _ _
      have old := spec slot
      rw [first] at old
      refine old.imp ?_ ?_
      · rintro ⟨⟨c, ge, lt, e⟩, eq⟩
        exact ⟨⟨c, by omega, by omega, e⟩, eq⟩
      · rintro ⟨none, eq⟩
        refine ⟨fun c ge lt => ?_, eq⟩
        rcases Nat.eq_or_lt_of_le ge with rfl | gt
        · exact here
        · exact none c gt (by omega)

/-- Counters in the window from the head to the tail have slots of their own. -/
theorem ThreadOk.window_inj (h : ThreadOk cfg t th) {a b : Nat} (e : wsIndex a = wsIndex b)
    (ha : th.wsHeadCounter ≤ a) (ha' : a < th.wsTailCounter) (hb : th.wsHeadCounter ≤ b)
    (hb' : b < th.wsTailCounter) : a = b := by
  have := h.wb_le_head
  have := h.tail_le_wb
  have := cfg.two_le
  rcases Nat.le_total a b with le | le
  · exact wsIndex_inj e le (by omega)
  · exact (wsIndex_inj e.symm le (by omega)).symm

theorem rluResetWriteSets_rest (th : Thread ω) (ctr n : Nat) :
    th.rluResetWriteSets ctr n =
      { th with objWriteSet := (th.rluResetWriteSets ctr n).objWriteSet } := by
  obtain ⟨log, eq, -⟩ := rluResetWriteSets_eq th ctr n
  rw [eq]

theorem rluResetWriteSets_buffer (th : Thread ω) (ctr n slot : Nat) :
    ((th.rluResetWriteSets ctr n).objWriteSet slot).buffer = (th.objWriteSet slot).buffer := by
  obtain ⟨log, eq, spec⟩ := rluResetWriteSets_eq th ctr n
  rw [eq]
  rcases spec slot with ⟨-, e⟩ | ⟨-, e⟩
  · dsimp only
    rw [e]
    rfl
  · dsimp only
    rw [e]

theorem ThreadOk.recycle_kept (h : ThreadOk cfg t th) {ctr : Nat} (ge : th.wsWbCounter ≤ ctr)
    (lt : ctr < th.wsTailCounter) :
    (th.rluResetWriteSets th.wsHeadCounter (th.wsWbCounter - th.wsHeadCounter)).objWriteSet
      (wsIndex ctr) = th.objWriteSet (wsIndex ctr) := by
  obtain ⟨log, eq, spec⟩ := rluResetWriteSets_eq th th.wsHeadCounter
    (th.wsWbCounter - th.wsHeadCounter)
  have head_le := h.head_le_wb
  have wb_le := h.wb_le_tail
  rw [eq]
  rcases spec (wsIndex ctr) with ⟨⟨c, ge', lt', e⟩, -⟩ | ⟨-, e⟩
  · have := h.window_inj e ge' (by omega) (by omega) lt
    omega
  · exact e

/-- The slots that are not in the log of pending write sets are empty after the resets. -/
theorem ThreadOk.recycle_empty (h : ThreadOk cfg t th) (closed : th.pc.closed) {slot : Nat}
    (outside : ∀ ctr, th.wsWbCounter ≤ ctr → ctr < th.wsTailCounter → wsIndex ctr ≠ slot) :
    ((th.rluResetWriteSets th.wsHeadCounter (th.wsWbCounter - th.wsHeadCounter)).objWriteSet
      slot).numOfObjs = 0 ∧
    ((th.rluResetWriteSets th.wsHeadCounter (th.wsWbCounter - th.wsHeadCounter)).objWriteSet
      slot).writerLocks = [] := by
  obtain ⟨log, eq, spec⟩ := rluResetWriteSets_eq th th.wsHeadCounter
    (th.wsWbCounter - th.wsHeadCounter)
  have head_le := h.head_le_wb
  rw [eq]
  rcases spec slot with ⟨-, e⟩ | ⟨recycled, e⟩
  · exact ⟨congrArg WriteSet.numOfObjs e, congrArg WriteSet.writerLocks e⟩
  · have old := h.empty slot (fun ctr ge lt => ?_) fun _ => closed
    · exact ⟨(congrArg WriteSet.numOfObjs e).trans old.1,
        (congrArg WriteSet.writerLocks e).trans old.2⟩
    · rcases Nat.lt_or_ge ctr th.wsWbCounter with below | above
      · exact recycled ctr ge (by omega)
      · exact outside ctr above lt

theorem reset_ok {k : Caller} (h : ThreadOk cfg t th) (hpc : th.pc = .sync k .reset) :
    ThreadOk cfg t { th.rluResetWriteSets th.wsHeadCounter (th.wsWbCounter - th.wsHeadCounter) with
      wsHeadCounter := th.wsWbCounter, pc := .sync k (.entry th.wsWbCounter 0) } := by
  obtain ⟨⟨even, -, num, committed⟩, flight, writer⟩ : syncControl cfg th k .reset := by
    simpa [hpc, Control] using h.control
  have wb_le := h.wb_le_tail
  rw [rluResetWriteSets_rest]
  exact {
    head_le_wb := Nat.le_refl _
    wb_le_tail := wb_le
    wb_le_head := Nat.le_add_right _ _
    tail_le_wb := h.tail_le_wb
    curId := h.curId
    wb_le_pos := Nat.le_refl _
    empty := fun slot outside _ => h.recycle_empty (by rw [hpc]; trivial) outside
    live := by
      rintro ctr i ⟨past, ⟨lt, num⟩ | ⟨-, -, active⟩⟩
      · have ge : th.wsWbCounter ≤ ctr := by
          rcases past with past | ⟨past, -⟩
          · exact Nat.le_of_lt past
          · exact Nat.le_of_eq past
        unfold Thread.EntryOk Thread.entry
        dsimp only at lt num ⊢
        rw [h.recycle_kept ge lt] at num ⊢
        exact h.live ctr i ((Thread.live_iff (by rw [hpc]; rfl) ctr i).mpr ⟨ge, Or.inl ⟨lt, num⟩⟩)
      · exact absurd trivial active
    control := ⟨⟨even, rfl, num, committed, Nat.le_refl _, wb_le, flight, writer⟩, fun _ => rfl⟩ }

theorem walk_ok {k : Caller} {pc : SyncPc} (h : ThreadOk cfg t th) (closed : th.pc.closed)
    (walk : ∀ wb, (th.pc.wbPos wb).1 < ((Pc.sync k pc).wbPos wb).1 ∨
      (th.pc.wbPos wb).1 = ((Pc.sync k pc).wbPos wb).1 ∧
        (th.pc.wbPos wb).2 ≤ ((Pc.sync k pc).wbPos wb).2)
    (control : syncControl cfg th k pc) :
    ThreadOk cfg t { th with pc := .sync k pc } := by
  refine h.advance rfl rfl (fun _ _ _ => id) ?_ (fun _ => closed) ?_ control
  · have := walk th.wsWbCounter
    dsimp only
    omega
  rintro ctr i ⟨past, now | ⟨-, -, active⟩⟩
  · refine ⟨?_, Or.inl now⟩
    have := walk th.wsWbCounter
    dsimp only at past
    omega
  · exact absurd trivial active

/-- Every entry of the pending write sets carries the mark of a copy. -/
theorem ThreadOk.marked (h : ThreadOk cfg t th) {ctr i : Nat}
    (pos : th.pc.wbPos th.wsWbCounter = (ctr, i)) (lt : ctr < th.wsTailCounter)
    (num : i < (th.objWriteSet (wsIndex ctr)).numOfObjs) :
    (th.entry ctr i).pObjCopy = .ptrIdObjCopy :=
  (h.live ctr i ⟨Or.inr (by rw [pos]; exact ⟨rfl, Nat.le_refl _⟩), Or.inl ⟨lt, num⟩⟩).2.1

theorem syncStep_ok {s : State ω} {k : Caller} {pc : SyncPc} (h : ThreadOk cfg t th)
    (hpc : th.pc = .sync k pc) : ThreadOk cfg t (syncStep cfg s t th k pc).1 := by
  have control := h.control
  rw [hpc] at control
  have closed : th.pc.closed := by rw [hpc]; trivial
  have pos : th.pc.wbPos = (Pc.sync k pc).wbPos := by rw [hpc]
  have idle (pos : th.pc.wbPos = fun wb => (wb, 0)) : th.pc.SameWalk .idle :=
    ⟨pos.symm, by rw [hpc]; rfl, by rw [hpc]; rfl, fun _ => closed⟩
  cases pc with
  | start =>
    obtain ⟨even, flight, writer, strict, committed⟩ := control
    simp only [syncStep]
    rw [if_pos even]
    split_ifs with nothing
    · have := h.head_le_wb
      refine afterSync_ok h (idle pos) closed ⟨even, ?_, flight, writer⟩ fun e => ?_
      · by_cases e : k = .commit
        · have := committed e
          omega
        · exact strict e
      · have := committed e
        omega
    · have := h.head_le_wb
      have := h.wb_le_tail
      exact h.frame rfl rfl rfl (hpc ▸ ⟨rfl, rfl, rfl, id⟩)
        ⟨⟨even, by show th.wsHeadCounter < th.wsTailCounter; omega, rfl, committed⟩, flight, writer⟩
  | loadVersion =>
    exact h.frame rfl rfl rfl (hpc ▸ ⟨rfl, rfl, rfl, id⟩) control
  | storeVersion v =>
    exact h.frame rfl rfl rfl (hpc ▸ ⟨rfl, rfl, rfl, id⟩)
      ⟨control.1, control.2.1, v, rfl⟩
  | fetchAdd =>
    exact h.frame rfl rfl rfl (hpc ▸ ⟨rfl, rfl, rfl, id⟩)
      ⟨control.1, control.2.2, rfl⟩
  | initLoop u =>
    simp only [syncStep]
    split_ifs
    · exact h.frame rfl rfl rfl (hpc ▸ ⟨rfl, rfl, rfl, id⟩) control
    · exact h.frame rfl rfl rfl (hpc ▸ ⟨rfl, rfl, rfl, id⟩) control
    · exact h.fault (by rw [hpc]; rfl)
    · exact h.frame rfl rfl rfl (hpc ▸ ⟨rfl, rfl, rfl, id⟩) control
  | initThread u =>
    simp only [syncStep]
    split_ifs <;> exact h.frame rfl rfl rfl (hpc ▸ ⟨rfl, rfl, rfl, id⟩) control
  | initCounter u | waitStart =>
    exact h.frame rfl rfl rfl (hpc ▸ ⟨rfl, rfl, rfl, id⟩) control
  | waitLoop n u =>
    simp only [syncStep]
    split_ifs
    · exact h.frame rfl rfl rfl (hpc ▸ ⟨rfl, rfl, rfl, id⟩) control
    · exact h.frame rfl rfl rfl (hpc ▸ ⟨rfl, rfl, rfl, id⟩) control
    · exact h.fault (by rw [hpc]; rfl)
    · exact h.frame rfl rfl rfl (hpc ▸ ⟨rfl, rfl, rfl, id⟩) control
  | waitCounter n u =>
    simp only [syncStep]
    split_ifs <;> exact h.frame rfl rfl rfl (hpc ▸ ⟨rfl, rfl, rfl, id⟩) control
  | waitVersion n u =>
    simp only [syncStep]
    split
    · split_ifs <;> exact h.frame rfl rfl rfl (hpc ▸ ⟨rfl, rfl, rfl, id⟩) control
    · exact h.frame rfl rfl rfl (hpc ▸ ⟨rfl, rfl, rfl, id⟩) control
  | reset => exact reset_ok h hpc
  | entry ctr i =>
    obtain ⟨⟨even, head, num, committed, ge, le, flight, writer⟩, first⟩ := control
    simp only [syncStep]
    split_ifs with lt lt' mark all
    · exact h.frame rfl rfl rfl (hpc ▸ ⟨rfl, rfl, rfl, id⟩)
        ⟨⟨even, head, num, committed, ge, le, flight, writer⟩, lt, lt'⟩
    · exact absurd (h.marked (by rw [hpc]; rfl) lt lt') mark
    · exact walk_ok h closed (fun wb => by rw [pos]; exact .inl (Nat.lt_succ_self _))
        ⟨⟨even, head, num, committed, by omega, lt, flight, writer⟩, fun _ => rfl⟩
    · have last : ctr = th.wsTailCounter := by omega
      have i_eq := first last
      subst last i_eq
      exact { h with
        head_le_wb := by show th.wsHeadCounter ≤ th.wsTailCounter; omega
        wb_le_tail := Nat.le_refl _
        wb_le_head := by show th.wsTailCounter ≤ th.wsHeadCounter + _; have := h.tail_le_wb; omega
        tail_le_wb := Nat.le_add_right _ _
        wb_le_pos := Nat.le_refl _
        empty := fun slot outside _ => h.empty slot outside fun _ => closed
        live := by
          rintro ctr i ⟨past | ⟨past, -⟩, ⟨lt, -⟩ | ⟨-, -, active⟩⟩
          · exact absurd lt (Nat.lt_asymm past)
          · exact absurd trivial active
          · exact absurd (past ▸ lt) (Nat.lt_irrefl _)
          · exact absurd trivial active
        control := ⟨even, rfl, flight, writer, fun e => by
            have := committed e
            show th.wsHeadCounter < th.wsTailCounter
            omega⟩ }
    · omega
  | copy ctr i w =>
    simp only [syncStep]
    split_ifs <;> exact h.frame rfl rfl rfl (hpc ▸ ⟨rfl, rfl, rfl, id⟩) control
  | check ctr i =>
    simp only [syncStep]
    split
    · split_ifs
      · exact h.frame rfl rfl rfl (hpc ▸ ⟨rfl, rfl, rfl, id⟩) control
      · exact h.fail (by decide) (by rw [hpc]; rfl)
    · exact h.fault (by rw [hpc]; rfl)
  | unlock ctr i =>
    obtain ⟨writing, lt, -⟩ := control
    exact walk_ok h closed
      (fun wb => by rw [pos]; exact .inr ⟨rfl, Nat.le_succ _⟩) ⟨writing, fun e => by omega⟩
  | storeMax =>
    obtain ⟨even, all, flight, -, lt⟩ := control
    exact h.frame rfl rfl rfl (hpc ▸ ⟨rfl, rfl, rfl, id⟩) ⟨even, all, flight, rfl, lt⟩
  | commitAdd =>
    obtain ⟨even, all, -, writer, lt⟩ := control
    refine h.frame rfl rfl rfl (hpc ▸ ⟨rfl, rfl, rfl, id⟩)
      ⟨⟨even, ?_, rfl, writer⟩, lt⟩
    have := cfg.one_le
    show th.wsTailCounter < th.wsWbCounter + cfg.maxWriteSets
    omega
  | loadSync =>
    simp only [syncStep]
    split_ifs <;> exact h.frame rfl rfl rfl (hpc ▸ ⟨rfl, rfl, rfl, id⟩) control
  | storeSync =>
    exact h.frame rfl rfl rfl (hpc ▸ ⟨rfl, rfl, rfl, id⟩) control
  | freeCheck i =>
    obtain ⟨outside, lt⟩ := control
    simp only [syncStep]
    split
    · split_ifs
      · exact h.frame rfl rfl rfl (hpc ▸ ⟨rfl, rfl, rfl, id⟩) ⟨outside, lt⟩
      · exact h.fail (by decide) (by rw [hpc]; rfl)
    · have emptied : ThreadOk cfg t { th with freeNodes := [] } :=
        h.frame rfl rfl rfl ⟨rfl, rfl, rfl, id⟩ (by rw [hpc]; exact ⟨outside, lt⟩)
      exact afterSync_ok emptied (idle pos) closed outside lt
  | free i =>
    obtain ⟨outside, lt⟩ := control
    simp only [syncStep]
    split
    · exact h.frame rfl rfl rfl (hpc ▸ ⟨rfl, rfl, rfl, id⟩) ⟨outside, lt⟩
    · exact h.fault (by rw [hpc]; rfl)

/-! ### Calls -/

/-- `rlu_unregister_thread`: the entries of the section now belong to a past run. -/
theorem rluUnregisterThread_ok {pc : Pc} (h : ThreadOk cfg t th)
    (walk : th.pc.SameWalk .inSection) (inside : th.Inside cfg)
    (hpc : pc = .readerUnlock ∨ pc = .abort .start) :
    ThreadOk cfg t (rluUnregisterThread th pc).1 := by
  obtain ⟨odd, strict, flight, writer, num, -⟩ := inside
  unfold rluUnregisterThread
  rw [if_pos odd]
  have even : (th.runCounter + 1) % 2 = 0 := by omega
  refine h.frame_run rfl rfl (fun ctr i _ ok => ?_) ?_ ?_
  · obtain ⟨id, mark, this, past⟩ := ok
    refine ⟨id, mark, fun e => absurd e.2 (show ¬ (th.runCounter + 1) % 2 = 1 by omega), fun _ => ?_⟩
    by_cases e : ctr = th.wsTailCounter ∧ th.runCounter % 2 = 1
    · exact Nat.lt_succ_of_le (Nat.le_of_eq (this e))
    · exact Nat.lt_succ_of_lt (past e)
  · rcases hpc with rfl | rfl <;> exact ⟨walk.pos, walk.dropped, walk.extra, nofun⟩
  · rcases hpc with rfl | rfl <;> exact ⟨⟨even, strict, flight, writer⟩, num⟩

theorem callInSection_ok {s : State ω} {op : Op ω} {e : Effect ω} (h : ThreadOk cfg t th)
    (hpc : th.pc = .inSection) (call : callInSection cfg s t th op = some e) :
    ThreadOk cfg t e.1 := by
  have inside : th.Inside cfg := by simpa [hpc, Control] using h.control
  have walk : th.pc.SameWalk .inSection := hpc ▸ ⟨rfl, rfl, rfl, id⟩
  cases op with
  | readerLock | checkpoint | finish => cases call
  | readerUnlock =>
    obtain rfl := Option.some.inj call
    exact rluUnregisterThread_ok h walk inside (.inl rfl)
  | abort =>
    obtain rfl := Option.some.inj call
    exact rluUnregisterThread_ok h walk inside (.inr rfl)
  | deref p =>
    simp only [callInSection, ← apply_ite some, Option.some.injEq] at call
    subst call
    split_ifs
    · exact derefReturn_ok h walk inside
    · exact h.frame rfl rfl rfl (hpc ▸ ⟨rfl, rfl, rfl, id⟩) inside
  | tryLock p =>
    simp only [callInSection, ← apply_ite some, Option.some.injEq] at call
    subst call
    split_ifs
    · exact h.fail (by decide) (by rw [hpc]; rfl)
    · exact h.frame rfl rfl rfl (hpc ▸ ⟨rfl, rfl, rfl, id⟩) ⟨inside, trivial⟩
  | lock p =>
    simp only [callInSection, ← apply_ite some, Option.some.injEq] at call
    subst call
    split_ifs
    · exact h.fail (by decide) (by rw [hpc]; rfl)
    · exact h.fail (by decide) (by rw [hpc]; rfl)
    · exact h.frame rfl rfl rfl (hpc ▸ ⟨rfl, rfl, rfl, id⟩) ⟨inside, trivial⟩
  | tryWriterLock l =>
    simp only [callInSection, ← apply_ite some, Option.some.injEq] at call
    subst call
    split_ifs
    · exact h.frame rfl rfl rfl (hpc ▸ ⟨rfl, rfl, rfl, id⟩) inside
    · exact h.fail (by decide) (by rw [hpc]; rfl)
  | store c w x =>
    simp only [callInSection] at call
    split_ifs at call with own
    obtain rfl := Option.some.inj call
    obtain ⟨-, slot, -⟩ := own
    rw [slot]
    refine h.set_cur rfl rfl inside.2.1 rfl (by rw [hpc]; rfl) rfl nofun
      (fun i lt _ => ?_)
      (by simpa [Control, Thread.Inside, Thread.modifyObj, Thread.setWriteSet, Thread.cur, Thread.go]
        using inside)
    have current := h.current (by rw [hpc]; rfl) (i := i) (Nat.lt_add_right _ lt)
      (by rw [hpc]; exact id)
    by_cases e : i = c.idx
    · subst e
      rw [WriteSet.modifyObj_buffer_self]
      exact current
    · rw [WriteSet.modifyObj_buffer_of_ne _ _ e]
      exact current
  | free p =>
    obtain rfl := Option.some.inj call
    unfold rluFree
    split
    · exact h.frame rfl rfl rfl (hpc ▸ ⟨rfl, rfl, rfl, id⟩) inside
    · rw [if_pos inside.1]
      split_ifs
      · exact h.frame rfl rfl rfl (hpc ▸ ⟨rfl, rfl, rfl, id⟩) inside
      · exact h.frame rfl rfl rfl (hpc ▸ ⟨rfl, rfl, rfl, id⟩)
          ⟨by decide, by rw [hpc]; rfl, hpc ▸ inside⟩
    · exact h.fault (by rw [hpc]; rfl)

theorem call_ok {s : State ω} {op : Op ω} {e : Effect ω} (h : ThreadOk cfg t th)
    (called : call cfg s t th op th.pc = some e) : ThreadOk cfg t e.1 := by
  have control := h.control
  cases hpc : th.pc with
  | idle =>
    rw [hpc] at called control
    obtain ⟨even, strict, flight, writer⟩ := control
    cases op with
    | readerLock | checkpoint =>
      obtain rfl := Option.some.inj called
      exact h.frame rfl rfl rfl (hpc ▸ ⟨rfl, rfl, rfl, id⟩)
        ⟨⟨even, strict, flight, writer⟩, nofun⟩
    | finish =>
      obtain rfl := Option.some.inj called
      exact h.frame rfl rfl rfl (hpc ▸ ⟨rfl, rfl, rfl, id⟩)
        ⟨even, flight, writer, fun _ => strict, nofun⟩
    | _ => cases called
  | inSection =>
    rw [hpc] at called
    exact callInSection_ok h hpc called
  | mustAbort =>
    rw [hpc] at called control
    cases op with
    | abort =>
      obtain rfl := Option.some.inj called
      exact rluUnregisterThread_ok h (hpc ▸ ⟨rfl, rfl, rfl, id⟩) control (.inr rfl)
    | _ => cases called
  | _ =>
    rw [hpc] at called
    cases called

theorem libStep_ok {s : State ω} {e : Effect ω} (h : ThreadOk cfg t th)
    (right : th.pc = .abort .start → th.isWriteDetected = true → th.RightSlot)
    (stepped : libStep cfg s t th th.pc = some e) : ThreadOk cfg t e.1 := by
  have control := h.control
  cases hpc : th.pc with
  | idle | inSection | mustAbort | finished | failed _ _ | fault _ =>
    rw [hpc] at stepped
    cases stepped
  | init =>
    rw [hpc] at stepped control
    rcases libStep_init stepped with ⟨-, rfl⟩ | rfl
    · exact h.frame rfl rfl rfl (hpc ▸ ⟨rfl, rfl, rfl, id⟩) control
    · exact h.fault (by rw [hpc]; rfl)
  | syncCheckpoint k =>
    rw [hpc] at stepped control
    simp only [libStep, ← apply_ite some, Option.some.injEq] at stepped
    subst stepped
    obtain ⟨⟨even, strict, flight, writer⟩, ne⟩ := control
    split_ifs
    · exact afterSync_ok h (hpc ▸ ⟨rfl, rfl, rfl, id⟩) (by rw [hpc]; trivial)
        ⟨even, strict, flight, writer⟩ fun e => absurd e ne
    · exact h.frame rfl rfl rfl (hpc ▸ ⟨rfl, rfl, rfl, id⟩)
        ⟨even, flight, writer, fun _ => strict, fun e => absurd e ne⟩
  | readerLock pc =>
    rw [hpc] at stepped
    obtain rfl := Option.some.inj stepped
    exact readerLockStep_ok h hpc
  | deref pc =>
    rw [hpc] at stepped
    obtain rfl := Option.some.inj stepped
    exact derefStep_ok h hpc
  | tryLock pc =>
    rw [hpc] at stepped
    obtain rfl := Option.some.inj stepped
    exact tryLockStep_ok h hpc
  | writerLock pc =>
    rw [hpc] at stepped
    obtain rfl := Option.some.inj stepped
    exact writerLockStep_ok h hpc
  | readerUnlock =>
    rw [hpc] at stepped
    obtain rfl := Option.some.inj stepped
    exact readerUnlockStep_ok h hpc
  | abort pc =>
    rw [hpc] at stepped
    obtain rfl := Option.some.inj stepped
    exact abortStep_ok h hpc fun e => right (e ▸ hpc)
  | release r pc =>
    rw [hpc] at stepped
    obtain rfl := Option.some.inj stepped
    exact releaseStep_ok h hpc
  | sync k pc =>
    rw [hpc] at stepped
    obtain rfl := Option.some.inj stepped
    exact syncStep_ok h hpc

end Frame

/-! ### All threads -/

theorem ThreadOk.init [Inhabited ω] (cfg : Config) (t : Nat) :
    ThreadOk cfg t (Thread.init : Thread ω) where
  head_le_wb := Nat.le_refl _
  wb_le_tail := Nat.le_refl _
  wb_le_head := Nat.zero_le _
  tail_le_wb := Nat.zero_le _
  curId := rfl
  wb_le_pos := Nat.zero_le _
  empty := fun _ _ _ => ⟨rfl, rfl⟩
  live := fun ctr i live => by
    obtain ⟨-, ⟨lt, -⟩ | ⟨-, -, active⟩⟩ := live
    · exact absurd lt (Nat.not_lt_zero _)
    · exact absurd trivial active
  control := ⟨rfl, Nat.lt_of_lt_of_le (Nat.lt_succ_self 0) (Nat.add_le_add_left cfg.one_le 0), rfl, rfl⟩

theorem State.apply_thread (s : State ω) (t : Nat) (th : Thread ω) (w : Write ω) :
    (s.apply t th w).thread = Function.update s.thread t th := by
  cases w <;> rfl

def ActEffect (cfg : Config) (s : State ω) (a : Act ω) (t : Nat) (e : Effect ω) : Prop :=
  (∃ op, a = .call t op ∧ call cfg s t (s.thread t) op (s.thread t).pc = some e) ∨
  a = .lib t ∧ libStep cfg s t (s.thread t) (s.thread t).pc = some e

def Pc.busy : Pc → Bool
  | .idle | .inSection | .mustAbort => false
  | _ => true

/-- Inside a call a thread takes the next step of it. -/
theorem ActEffect.lib {cfg : Config} {s : State ω} {a : Act ω} {t : Nat} {e : Effect ω}
    (act : ActEffect cfg s a t e) (busy : (s.thread t).pc.busy = true) :
    a = .lib t ∧ libStep cfg s t (s.thread t) (s.thread t).pc = some e := by
  rcases act with ⟨op, -, called⟩ | act
  · cases hpc : (s.thread t).pc with
    | idle | inSection | mustAbort =>
      rw [hpc] at busy
      cases busy
    | _ =>
      rw [hpc] at called
      cases called
  · exact act

theorem step_cases [Inhabited ω] {cfg : Config} {s s' : State ω} {a : Act ω}
    (hs : step cfg s a = some s') :
    a = .threadInit ∧ s' = { s with
      gCurThreads := s.gCurThreads + 1
      thread := Function.update s.thread s.gCurThreads Thread.init } ∨
    ∃ t e, t < s.gCurThreads ∧ ActEffect cfg s a t e ∧ s' = s.apply t e.1 e.2 := by
  cases a with
  | threadInit => exact .inl ⟨rfl, (Option.some.inj hs).symm⟩
  | call t op =>
    simp only [step] at hs
    split_ifs at hs with lt
    obtain ⟨e, called, rfl⟩ := Option.map_eq_some_iff.mp hs
    exact .inr ⟨t, e, lt, .inl ⟨op, rfl, called⟩, rfl⟩
  | lib t =>
    simp only [step] at hs
    split_ifs at hs with lt
    obtain ⟨e, stepped, rfl⟩ := Option.map_eq_some_iff.mp hs
    exact .inr ⟨t, e, lt, .inr ⟨rfl, stepped⟩, rfl⟩

theorem toInt32_of_lt {n : Nat} (lt : n < 2 ^ 31) : toInt32 n = n := by
  unfold toInt32
  rw [Int.bmod_eq_of_le] <;> omega

/-- Below `2 ^ 31` the counter survives the conversion to `int`. -/
theorem Thread.rightSlot_of_lt {th : Thread ω} (lt : th.wsTailCounter < 2 ^ 31) : th.RightSlot := by
  unfold Thread.RightSlot wsIndexInt wsIndex
  rw [toInt32_of_lt lt]
  rfl

def Pc.isAbortStart : Pc → Bool
  | .abort .start => true
  | _ => false

/-- No abort falls short of its write set. -/
def RightSlot (s : State ω) : Act ω → Prop
  | .lib t => (s.thread t).pc.isAbortStart = true → (s.thread t).isWriteDetected = true →
      (s.thread t).RightSlot
  | _ => True

instance (th : Thread ω) : Decidable th.RightSlot := inferInstanceAs (Decidable (_ = _))

instance (s : State ω) (a : Act ω) : Decidable (RightSlot s a) :=
  match a with
  | .lib _ => inferInstanceAs (Decidable (_ → _ → _))
  | .call _ _ | .threadInit => inferInstanceAs (Decidable True)

theorem RightSlot.of_start {s : State ω} {t : Nat} (h : RightSlot s (.lib t))
    (start : (s.thread t).pc = .abort .start) (write : (s.thread t).isWriteDetected = true) :
    (s.thread t).RightSlot :=
  h (by rw [start]; rfl) write

/-- The thread that acts has a tail counter below `2 ^ 31`. -/
def TailBelow (s : State ω) (a : Act ω) : Prop :=
  (s.thread (a.thread s)).wsTailCounter < 2 ^ 31

instance (s : State ω) (a : Act ω) : Decidable (TailBelow s a) :=
  inferInstanceAs (Decidable (_ < _))

theorem TailBelow.rightSlot {s : State ω} {a : Act ω} (h : TailBelow s a) : RightSlot s a := by
  cases a with
  | lib t => exact fun _ _ => Thread.rightSlot_of_lt h
  | call | threadInit => trivial

/-- Every record is in order, and a thread that has no id yet has a new one. -/
structure WellFormed [Inhabited ω] (cfg : Config) (s : State ω) : Prop where
  threads : ∀ t, ThreadOk cfg t (s.thread t)
  fresh : ∀ t, s.gCurThreads ≤ t → s.thread t = Thread.init

theorem actEffect_ok {cfg : Config} {s : State ω} {a : Act ω} {t : Nat} {e : Effect ω}
    (h : ThreadOk cfg t (s.thread t)) (right : RightSlot s a) (act : ActEffect cfg s a t e) :
    ThreadOk cfg t e.1 := by
  rcases act with ⟨op, -, called⟩ | ⟨rfl, stepped⟩
  · exact call_ok h called
  · exact libStep_ok h right.of_start stepped

theorem State.apply_gCurThreads (s : State ω) (t : Nat) (th : Thread ω) (w : Write ω) :
    (s.apply t th w).gCurThreads = s.gCurThreads := by
  cases w <;> rfl

/-- The record of a new thread is already what `rlu_thread_init` makes it. -/
theorem WellFormed.threadInit [Inhabited ω] {cfg : Config} {s : State ω} (h : WellFormed cfg s) :
    Function.update s.thread s.gCurThreads Thread.init = s.thread := by
  rw [← h.fresh _ (Nat.le_refl _), Function.update_eq_self]

theorem step_wellFormed [Inhabited ω] {cfg : Config} {s s' : State ω} {a : Act ω}
    (h : WellFormed cfg s) (right : RightSlot s a) (hs : step cfg s a = some s') :
    WellFormed cfg s' := by
  rcases step_cases hs with ⟨rfl, rfl⟩ | ⟨t, e, lt, act, rfl⟩
  · have same := h.threadInit
    refine ⟨fun u => ?_, fun u le => ?_⟩
    · show ThreadOk cfg u (Function.update s.thread s.gCurThreads Thread.init u)
      rw [same]
      exact h.threads u
    · show Function.update s.thread s.gCurThreads Thread.init u = Thread.init
      rw [same]
      exact h.fresh u (Nat.le_of_succ_le le)
  · refine ⟨fun u => ?_, fun u le => ?_⟩
    · rw [State.apply_thread]
      by_cases eq : u = t
      · subst eq
        simpa using actEffect_ok (h.threads u) right act
      · simpa [eq] using h.threads u
    · rw [State.apply_gCurThreads] at le
      rw [State.apply_thread, Function.update_of_ne (by omega)]
      exact h.fresh u le

def Init [Inhabited ω] (s : State ω) : Prop := ∃ obj, s = State.init obj

theorem init_wellFormed [Inhabited ω] {cfg : Config} {s : State ω} (h : Init s) :
    WellFormed cfg s := by
  obtain ⟨obj, rfl⟩ := h
  exact ⟨ThreadOk.init cfg, fun _ _ => rfl⟩

theorem reachable_wellFormed [Inhabited ω] {cfg : Config} {ok : State ω → Act ω → Prop}
    (right : ∀ s a, ok s a → RightSlot s a) {s : State ω}
    (h : System.Reachable Init (step cfg) ok s) : WellFormed cfg s :=
  System.Reachable.invariant (WellFormed cfg) (fun _ => init_wellFormed)
    (fun s a _ inv hok hs => step_wellFormed inv (right s a hok) hs) h

end ReadLogUpdate
