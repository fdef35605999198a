import ReadLogUpdate.RluList.Reads

/-!
# What a thread knows at each point of its call

The nodes that its pointers stand for, their place on the list that the section sees, and what the
write set of the section holds. All of it is about the thread's own record and the list that it
sees, so the steps of other threads do not matter.
-/

namespace ReadLogUpdate.RluList

open Harris (ListT listValMin listValMax)
open Chain

def derefArg : DerefPc → Ptr
  | .header p | .slow p | .owner p _ | .version p _ _ => p

/-- `RLU_DEREF` of the node `x` runs, or has returned. -/
def Awaits (th : Thread Word) (x : Nat) : Prop :=
  (∃ q, th.pc = .deref q ∧ derefArg q = .actual x) ∨ th.pc = .inSection ∧ Denotes th th.ret x

/-- `rlu_reader_lock` runs, or has returned. -/
def Starting (th : Thread Word) : Prop :=
  th.pc.kind = .syncCheckpoint .readerLock ∨ th.pc.kind = .sync .readerLock ∨
  th.pc.kind = .readerLock ∨ (∃ line, th.pc.kind = .failed line) ∨ th.pc.kind = .fault ∨
  th.pc = .inSection ∧ th.isWriteDetected = false

/-- The node `x` is on the list that the section sees, before `v`. -/
def Behind (init : Nat → Nat → Word) (list : ListT) (V : Nat → Nat → Word) (v : Int) (x : Nat) : Prop :=
  Reached list V x ∧ x ≠ list.pMax ∧ key init x < v

/-- The place of `v` is behind `x`: an add finds no `v` there, and a remove has the node after it. -/
def Plan (init : Nat → Nat → Word) (list : ListT) (th : Thread Word) (V : Nat → Nat → Word) (v : Int)
    (x : Nat) : Option Ptr → Prop
  | none => Behind init list V v x ∧ v < key init (next V x)
  | some n => Behind init list V v x ∧ key init (next V x) = v ∧ Denotes th n (next V (next V x))

/-- Entry `i` of the current write set is the node `x` as the section sees it. -/
def Holds (th : Thread Word) (V : Nat → Nat → Word) (i x : Nat) : Prop :=
  (th.cur.buffer i).pObjActual = x ∧ (th.cur.buffer i).copy 0 = V x 0 ∧
    (th.cur.buffer i).copy 1 = V x 1

def LockTarget (th : Thread Word) (x : Nat) : TryLockPc → Prop
  | .header p => p = .actual x ∨ Denotes th p x
  | .actual c => Denotes th (.copy c) x
  | .owner o _ | .runCounter o _ | .storeActual o | .storeRun o | .storeId o | .storeMark o
  | .cas o | .copy o _ | .check o => o = x
  | .sendLoad _ | .sendStore _ _ | .syncLoad | .syncStore _ => True

/-- The entries of the write set before the last step of `rlu_try_lock`, and at it. -/
def lockCount (k : Nat) : TryLockPc → Nat
  | .check _ => k + 1
  | _ => k

/-- `rlu_try_lock` of the node `x` runs, with `k` nodes locked before, or has returned. -/
def Locking (t : Nat) (th : Thread Word) (V : Nat → Nat → Word) (k x : Nat) : ReadLogUpdate.Pc → Prop
  | .tryLock q => LockTarget th x q ∧ th.cur.numOfObjs = lockCount k q
  | .inSection => th.cur.numOfObjs = k + 1 ∧ th.isWriteDetected = true ∧ Holds th V k x ∧
      th.ret = .copy ⟨t, th.wsCurId, k⟩
  | .mustAbort | .failed _ _ | .fault _ => True
  | _ => False

variable {cfg : Config} {init : Nat → Nat → Word} {list : ListT} {used : Nat → Bool}
  {s : ReadLogUpdate.State Word} {t : Nat} {V : Nat → Nat → Word}

theorem Holds.congr {th th' : Thread Word} {i x : Nat} (holds : Holds th V i x)
    (same : th'.cur.buffer i = th.cur.buffer i) : Holds th' V i x := by
  unfold Holds
  rw [same]
  exact holds

theorem Plan.mono {th th' : Thread Word} {v : Int} {x : Nat} {n : Option Ptr}
    (plan : Plan init list th V v x n) (sub : ∀ d ∈ th.derefs, d ∈ th'.derefs) :
    Plan init list th' V v x n := by
  cases n with
  | none => exact plan
  | some n => exact ⟨plan.1, plan.2.1, plan.2.2.mono sub⟩

theorem Plan.behind {th : Thread Word} {v : Int} {x : Nat} {n : Option Ptr}
    (plan : Plan init list th V v x n) : Behind init list V v x := by
  cases n with
  | none => exact plan.1
  | some n => exact plan.1

theorem deref_step {q : DerefPc} {x : Nat} (hpc : (s.thread t).pc = .deref q)
    (arg : derefArg q = .actual x) (clean : (s.thread t).cur.numOfObjs = 0) :
    Awaits (derefStep s t (s.thread t) q).1 x ∧
      (∀ d ∈ (s.thread t).derefs, d ∈ (derefStep s t (s.thread t) q).1.derefs) ∧
      (derefStep s t (s.thread t) q).1.localVersion = (s.thread t).localVersion ∧
      (derefStep s t (s.thread t) q).1.isWriteDetected = (s.thread t).isWriteDetected := by
  have unlocked : (s.thread t).hasLocked x = false := by
    unfold Thread.hasLocked
    rw [clean]
    rfl
  have goes (q' : DerefPc) (arg' : derefArg q' = .actual x) :
      Awaits ((s.thread t).go (.deref q')).1 x := .inl ⟨q', rfl, arg'⟩
  have returns (r : Ptr) : Awaits (derefReturn (s.thread t) (.actual x) r).1 x := by
    refine .inr ⟨rfl, ⟨.actual x, r, (s.thread t).hasLocked x⟩, List.mem_cons_self, rfl, rfl, ?_⟩
    exact unlocked
  have more (p r : Ptr) : ∀ d ∈ (s.thread t).derefs, d ∈ (derefReturn (s.thread t) p r).1.derefs :=
    fun d mem => List.mem_cons_of_mem _ mem
  cases q with
  | header p =>
    obtain rfl : p = .actual x := arg
    simp only [derefStep]
    split_ifs
    · exact ⟨returns _, more _ _, rfl, rfl⟩
    · exact ⟨goes _ rfl, fun _ mem => mem, rfl, rfl⟩
  | slow p =>
    obtain rfl : p = .actual x := arg
    simp only [derefStep]
    split
    · exact ⟨returns _, more _ _, rfl, rfl⟩
    · exact ⟨returns _, more _ _, rfl, rfl⟩
    · exact ⟨goes _ rfl, fun _ mem => mem, rfl, rfl⟩
  | owner p c =>
    obtain rfl : p = .actual x := arg
    simp only [derefStep]
    split_ifs
    · exact ⟨returns _, more _ _, rfl, rfl⟩
    · exact ⟨goes _ rfl, fun _ mem => mem, rfl, rfl⟩
    · exact ⟨returns _, more _ _, rfl, rfl⟩
  | version p c thId =>
    obtain rfl : p = .actual x := arg
    simp only [derefStep]
    split
    · split_ifs
      · exact ⟨returns _, more _ _, rfl, rfl⟩
      · exact ⟨returns _, more _ _, rfl, rfl⟩
    · exact ⟨returns _, more _ _, rfl, rfl⟩

/-- A node that the section has just locked is not in a pending write set of the thread. -/
theorem Known.not_pending (known : Known cfg init s) (inside : (s.thread t).Inside cfg) {x i : Nat}
    (locked : s.hdr x = .copy ⟨t, (s.thread t).wsCurId, i⟩) : ¬ (s.thread t).Pending x := by
  rintro ⟨ctr, j, ge, lt, num, actual⟩
  have h := known.sound.wf.threads t
  have live := h.live_of_unpublished ⟨inside.2.2.1, ge, .inl lt⟩ num
  have installed := known.sound.locks.installed t ctr j live
  rw [actual, locked] at installed
  have slot : (s.thread t).wsCurId = wsIndex ctr :=
    congrArg CopyAddr.slot (PObjCopy.copy.inj installed)
  exact h.slot_ne inside.2.1 (Nat.le_trans h.head_le_wb ge) lt slot.symm

/-- What a step of `rlu_try_lock` of `x` does to the record. -/
structure LockKeeps (t : Nat) (V : Nat → Nat → Word) (k x : Nat) (th th' : Thread Word) : Prop where
  locking : Locking t th' V k x th'.pc
  older : ∀ i < k, th'.cur.buffer i = th.cur.buffer i
  derefs : th'.derefs = th.derefs
  curId : th'.wsCurId = th.wsCurId
  version : th'.localVersion = th.localVersion

theorem lockKeeps_fail {k x : Nat} {th : Thread Word} : LockKeeps t V k x th (tryLockFail th).1 := by
  unfold tryLockFail
  split_ifs <;> exact ⟨trivial, fun _ _ => rfl, rfl, rfl, rfl⟩

theorem lockKeeps_go {k x : Nat} {th : Thread Word} {q : TryLockPc} (target : LockTarget th x q)
    (count : th.cur.numOfObjs = lockCount k q) : LockKeeps t V k x th (th.go (.tryLock q)).1 :=
  ⟨⟨target, count⟩, fun _ _ => rfl, rfl, rfl, rfl⟩

theorem lockKeeps_store {k x : Nat} {th : Thread Word} {f : WsObj Word → WsObj Word} {p : Nat}
    {q : TryLockPc} (target : LockTarget th x q) (simple : ∀ c, q ≠ .actual c)
    (simple' : ∀ p, q ≠ .header p) (count : th.cur.numOfObjs = k) (count' : lockCount k q = k) :
    LockKeeps t V k x th ((th.storeHeader f p).go (.tryLock q)).1 := by
  have cur : ((th.storeHeader f p).go (.tryLock q)).1.cur =
      th.cur.storeHeader th.cur.numOfObjs f p := Function.update_self _ _ _
  refine ⟨⟨?_, ?_⟩, fun i lt => ?_, rfl, rfl, rfl⟩
  · cases q with
    | actual c => exact absurd rfl (simple c)
    | header p => exact absurd rfl (simple' p)
    | _ => exact target
  · rw [cur, count']
    exact count
  · rw [cur]
    exact WriteSet.modifyObj_buffer_of_ne _ _ (by omega)

theorem Known.tryLock_step (known : Known cfg init s) (words : 2 ≤ cfg.objWords) {q : TryLockPc}
    {k x : Nat} (hpc : (s.thread t).pc = .tryLock q)
    (locking : Locking t (s.thread t) (view init s t) k x (.tryLock q))
    (others : ∀ i < k, ((s.thread t).cur.buffer i).pObjActual ≠ x) :
    LockKeeps t (view init s t) k x (s.thread t) (tryLockStep cfg s t (s.thread t) q).1 := by
  obtain ⟨inside, here⟩ := known.inSection (t := t) (by rw [hpc]; exact .inr (.inr (.inl rfl)))
  obtain ⟨target, count⟩ := locking
  have h := known.sound.wf.threads t
  have sees := known.naming.locks t
  rw [hpc] at sees
  have free (count : (s.thread t).cur.numOfObjs = k) :
      LockKeeps t (view init s t) k x (s.thread t) (tryLockFree (s.thread t) x).1 := by
    unfold tryLockFree
    split_ifs <;> exact ⟨⟨rfl, count⟩, fun _ _ => rfl, rfl, rfl, rfl⟩
  cases q with
  | header p =>
    cases p with
    | null => exact ⟨trivial, fun _ _ => rfl, rfl, rfl, rfl⟩
    | copy c =>
      simp only [tryLockStep]
      have denotes : Denotes (s.thread t) (.copy c) x := by
        rcases target with eq | denotes
        · cases eq
        · exact denotes
      split_ifs
      · exact lockKeeps_go denotes count
      · exact ⟨trivial, fun _ _ => rfl, rfl, rfl, rfl⟩
    | actual o =>
      obtain rfl : o = x := by
        rcases target with eq | denotes
        · exact Ptr.actual.inj eq
        · rcases known.denotes_cases here denotes with eq | ⟨c, eq, -⟩
          · exact Ptr.actual.inj eq
          · cases eq
      simp only [tryLockStep]
      split
      · exact free count
      · exact ⟨trivial, fun _ _ => rfl, rfl, rfl, rfl⟩
      · exact lockKeeps_go rfl count
  | actual c =>
    have actual : (s.wsObj c).pObjActual = x := by
      rcases known.denotes_cases here target with eq | ⟨c', eq, -, actual⟩
      · cases eq
      · obtain rfl := Ptr.copy.inj eq
        exact actual
    refine lockKeeps_go (.inl ?_) count
    rw [actual]
  | owner o c =>
    simp only [tryLockStep]
    split_ifs
    · exact lockKeeps_go target count
    · exact lockKeeps_go trivial count
  | runCounter o c =>
    obtain rfl : o = x := target
    obtain ⟨own, held⟩ := sees
    simp only [tryLockStep]
    split_ifs with same
    · -- the section does not hold the node yet
      exfalso
      obtain ⟨ctr, live, slot, actual⟩ := known.sound.locks.logged o c held
      rw [own] at live actual
      have pos : (s.thread t).pc.wbPos = fun wb => (wb, 0) := by rw [hpc]; rfl
      have entry : (s.thread t).entry ctr c.idx = s.wsObj c := by
        unfold Thread.entry State.wsObj
        rw [slot, own]
      obtain ⟨-, -, -, older⟩ := h.live ctr c.idx live
      obtain ⟨-, ⟨lt, -⟩ | ⟨eq, num, -⟩⟩ := (Thread.live_iff pos ctr c.idx).mp live
      · have less := older fun both => by
          have := both.1
          omega
        rw [entry] at less
        omega
      · rw [eq, ← h.curId, hpc] at num
        have num : c.idx < (s.thread t).cur.numOfObjs := num
        refine others c.idx (by rw [count] at num; exact num) ?_
        rw [Thread.cur, h.curId, ← eq]
        exact actual
    · exact lockKeeps_go trivial count
  | sendLoad thId => exact lockKeeps_go trivial count
  | sendStore thId v => exact ⟨⟨trivial, count⟩, fun _ _ => rfl, rfl, rfl, rfl⟩
  | syncLoad => exact lockKeeps_go trivial count
  | syncStore v => exact lockKeeps_fail
  | storeActual o =>
    simp only [tryLockStep]
    split_ifs
    · exact lockKeeps_store target (by simp) (by simp) count rfl
    · exact ⟨trivial, fun _ _ => rfl, rfl, rfl, rfl⟩
  | storeRun o | storeId o | storeMark o =>
    exact lockKeeps_store target (by simp) (by simp) count rfl
  | cas o =>
    simp only [tryLockStep]
    split_ifs
    · exact ⟨⟨target, count⟩, fun _ _ => rfl, rfl, rfl, rfl⟩
    · exact lockKeeps_fail
  | copy o w =>
    obtain rfl : o = x := target
    have count : (s.thread t).cur.numOfObjs = k := count
    simp only [tryLockStep]
    split_ifs
    · have cur : (((s.thread t).modifyObj (s.thread t).wsCurId (s.thread t).cur.numOfObjs fun e =>
          { e with copy := Function.update e.copy w (s.obj o w) }).go (.tryLock (.copy o (w + 1)))).1.cur =
          (s.thread t).cur.modifyObj (s.thread t).cur.numOfObjs fun e =>
            { e with copy := Function.update e.copy w (s.obj o w) } := Function.update_self _ _ _
      refine ⟨⟨rfl, ?_⟩, fun i lt => ?_, rfl, rfl, rfl⟩
      · rw [cur]
        exact count
      · rw [cur]
        exact WriteSet.modifyObj_buffer_of_ne _ _ (by omega)
    · exact ⟨trivial, fun _ _ => rfl, rfl, rfl, rfl⟩
    · have cur : (((s.thread t).setWriteSet (s.thread t).wsCurId
          ((s.thread t).cur.addObj (8 * cfg.objWords))).go (.tryLock (.check o))).1.cur =
          (s.thread t).cur.addObj (8 * cfg.objWords) := Function.update_self _ _ _
      refine ⟨⟨rfl, ?_⟩, fun i lt => ?_, rfl, rfl, rfl⟩
      · rw [cur]
        show (s.thread t).cur.numOfObjs + 1 = k + 1
        rw [count]
      · rw [cur]
        rfl
    · exact ⟨trivial, fun _ _ => rfl, rfl, rfl, rfl⟩
  | check o =>
    obtain rfl : o = x := target
    have count : (s.thread t).cur.numOfObjs = k + 1 := count
    have control := h.control
    rw [hpc] at control
    obtain ⟨-, -, actual, write⟩ := control
    simp only [tryLockStep]
    split_ifs with locked
    · rw [count, Nat.add_sub_cancel] at actual locked ⊢
      have value := known.sound.locked_value known.snap known.pins (known.copied t) inside.1
        (by rw [hpc]; simp [Pc.kind]) locked
      have copy (w : Nat) (lt : w < cfg.objWords) :
          ((s.thread t).cur.buffer k).copy w = view init s t o w := by
        rw [view_of_not_pending (known.not_pending inside locked)]
        exact (value.2.2 hpc w lt).trans (value.2.1 w lt).1
      exact ⟨⟨count, write, ⟨actual, copy 0 (by omega), copy 1 (by omega)⟩, rfl⟩, fun _ _ => rfl, rfl,
        rfl, rfl⟩
    · exact ⟨trivial, fun _ _ => rfl, rfl, rfl, rfl⟩

end ReadLogUpdate.RluList
