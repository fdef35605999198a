import ReadLogUpdate.Rlu.Alone
import ReadLogUpdate.Rlu.Buffer
import ReadLogUpdate.Rlu.Ring

/-!
# Headers behind the buffer

`rlu_add_ws_obj_header_to_write_set` stores five words at `p_cur` and checks nothing. Behind the
buffer of a slot lies the next element of `obj_write_set`, which begins with its `writer_locks_t`.
The stores of a header that does not fit are followed into it, and the ring is in order as long as
every header fits.
-/

namespace ReadLogUpdate

variable {ω : Type}

/-- A store of word `i` of `obj_list_t`: `size` is the first, the `ids` follow. -/
def WriteSet.storeWriterLocks (ws : WriteSet ω) (v : Nat) : Nat → WriteSet ω
  | 0 => { ws with locksSize := v }
  | i + 1 => { ws with lockIds := Function.update ws.lockIds i v }

/-- The part of the store of word `i` at `p_cur` that misses the buffer. Behind the last element
of `obj_write_set` lies padding. -/
def Thread.storeBehind (th : Thread ω) (i v : Nat) : Thread ω :=
  let offset := th.cur.pCur + 8 * i
  if rluMaxWriteSetBufferSize ≤ offset ∧ th.wsCurId + 1 < rluMaxWriteSets then
    th.setWriteSet (th.wsCurId + 1)
      ((th.objWriteSet (th.wsCurId + 1)).storeWriterLocks v
        ((offset - rluMaxWriteSetBufferSize) / 8))
  else th

/-- `tryLockStep` with the stores of a header where they land. `p_cur` itself is in the buffer, so
the first word is. -/
def overrunTryLock (cfg : Config) (s : State ω) (t : Nat) (th : Thread ω) : TryLockPc → Effect ω
  | .storeActual o =>
    ((th.storeBehind 1 (8 * cfg.objWords)).storeHeader (fun e => { e with pObjActual := o })
      th.cur.pCur).go (.tryLock (.storeRun o))
  | .storeRun o =>
    ((th.storeBehind 2 th.runCounter).storeHeader (fun e => { e with runCounter := th.runCounter })
      th.cur.pCur).go (.tryLock (.storeId o))
  | .storeId o =>
    ((th.storeBehind 3 t).storeHeader (fun e => { e with threadId := t }) th.cur.pCur).go
      (.tryLock (.storeMark o))
  | .storeMark o =>
    ((th.storeBehind 4 ptrIdObjCopy).storeHeader (fun e => { e with pObjCopy := .ptrIdObjCopy })
      (th.cur.pCur + wsObjHeaderSize + objHeaderSize)).go (.tryLock (.cas o))
  | pc => tryLockStep cfg s t th pc

def overrunLibStep (cfg : Config) (s : State ω) (t : Nat) (th : Thread ω) : Pc → Option (Effect ω)
  | .tryLock pc => overrunTryLock cfg s t th pc
  | pc => libStep cfg s t th pc

/-- `step` with the stores of a header where they land. -/
def overrunStep [Inhabited ω] (cfg : Config) (s : State ω) : Act ω → Option (State ω)
  | .lib t =>
    if t < s.gCurThreads then
      (overrunLibStep cfg s t (s.thread t) (s.thread t).pc).map fun e => s.apply t e.1 e.2
    else none
  | a => step cfg s a

def Pc.storesHeader : Pc → Bool
  | .tryLock (.storeActual _) | .tryLock (.storeRun _) | .tryLock (.storeId _)
  | .tryLock (.storeMark _) => true
  | _ => false

def HeaderFits (s : State ω) (a : Act ω) : Prop :=
  (s.thread (a.thread s)).pc.storesHeader = true → (s.thread (a.thread s)).headerFits

instance (s : State ω) (a : Act ω) : Decidable (HeaderFits s a) :=
  inferInstanceAs (Decidable (_ → _))

/-- The headers of thread `t` fit in the buffer, and its tail counter is below `2 ^ 31`. -/
def FitsOf (t : Nat) (s : State ω) (a : Act ω) : Prop :=
  a.thread s = t → TailBelow s a ∧ HeaderFits s a

instance (t : Nat) (s : State ω) (a : Act ω) : Decidable (FitsOf t s a) :=
  inferInstanceAs (Decidable (_ → _))

section Fits
variable {cfg : Config} {s s' : State ω} {t : Nat} {th : Thread ω} {a : Act ω}

theorem Thread.storeBehind_of_fits (fits : th.headerFits) {i : Nat} (le : i ≤ 4) (v : Nat) :
    th.storeBehind i v = th := by
  refine if_neg fun behind => ?_
  have room : th.cur.pCur + 32 + 8 ≤ 100000 := fits
  have past : 100000 ≤ th.cur.pCur + 8 * i := behind.1
  omega

theorem overrunTryLock_eq {pc : TryLockPc}
    (fits : (Pc.tryLock pc).storesHeader = true → th.headerFits) :
    overrunTryLock cfg s t th pc = tryLockStep cfg s t th pc := by
  cases pc with
  | storeActual o =>
    have fits := fits rfl
    simp only [overrunTryLock, tryLockStep, Thread.storeBehind_of_fits fits, if_pos fits,
      Nat.reduceLeDiff]
  | storeRun o | storeId o | storeMark o =>
    have fits := fits rfl
    simp only [overrunTryLock, tryLockStep, Thread.storeBehind_of_fits fits, Nat.reduceLeDiff,
      Nat.le_refl]
  | _ => rfl

theorem overrunLibStep_eq {pc : Pc} (fits : pc.storesHeader = true → th.headerFits) :
    overrunLibStep cfg s t th pc = libStep cfg s t th pc := by
  cases pc with
  | tryLock pc => exact congrArg some (overrunTryLock_eq fits)
  | _ => rfl

variable [Inhabited ω]

theorem overrunStep_eq (fits : HeaderFits s a) : overrunStep cfg s a = step cfg s a := by
  cases a with
  | lib t =>
    have same : overrunLibStep cfg s t (s.thread t) (s.thread t).pc =
        libStep cfg s t (s.thread t) (s.thread t).pc := overrunLibStep_eq fits
    simp only [overrunStep, step, same]
  | _ => rfl

theorem overrunStep_other (other : a.thread s ≠ t) (hs : overrunStep cfg s a = some s') :
    s'.thread t = s.thread t := by
  cases a with
  | threadInit =>
    obtain rfl := Option.some.inj hs
    exact Function.update_of_ne (Ne.symm other) _ _
  | call u op | lib u =>
    simp only [overrunStep, step] at hs
    split_ifs at hs
    obtain ⟨e, -, rfl⟩ := Option.map_eq_some_iff.mp hs
    rw [State.apply_thread]
    exact Function.update_of_ne (Ne.symm other) _ _

theorem overrun_ring (h : System.Reachable Init (overrunStep cfg) (FitsOf t) s) :
    ThreadOk cfg t (s.thread t) ∧ PCurOk cfg (s.thread t) := by
  refine System.Reachable.invariant
    (fun s : State ω => ThreadOk cfg t (s.thread t) ∧ PCurOk cfg (s.thread t))
    (fun _ => init_ring) (fun s a s' inv fits hs => ?_) h
  by_cases own : a.thread s = t
  · obtain ⟨below, fits⟩ := fits own
    rw [overrunStep_eq fits] at hs
    exact step_ring (fun _ => below.rightSlot) inv hs
  · rw [overrunStep_other own hs]
    exact inv

/-- No assertion of `rlu_sync_and_writeback` or `rlu_commit_write_set` about the counters
fires, and a section starts in an empty slot. -/
theorem ring_invariant (cfg : Config) (t : Nat) (s : State ω)
    (h : System.Reachable Init (overrunStep cfg) (FitsOf t) s) :
    ((s.thread t).pc.outsideLibrary → (s.thread t).Ring cfg) ∧
    (∀ line ∈ [573, 608, 609], ∀ pc, (s.thread t).pc ≠ .failed line pc) ∧
    ((s.thread t).pc = .readerUnlock → (s.thread t).ringFull → (s.thread t).limitReached cfg) ∧
    ∀ pc, (s.thread t).pc = .readerLock pc → (s.thread t).cur.Empty := by
  obtain ⟨ok, pCur⟩ := overrun_ring h
  refine ⟨Thread.ring_of_ok ok pCur, fun line mem pc hpc => ?_,
    fun _ => Thread.limitReached_of_ringFull ok, fun pc hpc => ?_⟩
  · have control := ok.control
    rw [hpc] at control
    refine control.1 ?_
    revert mem
    simp only [List.mem_cons, List.not_mem_nil, or_false, localAssertions]
    omega
  · have control := ok.control
    rw [hpc] at control
    have strict : (s.thread t).wsTailCounter < (s.thread t).wsWbCounter + cfg.maxWriteSets := by
      cases pc <;> exact control.1.2.1
    refine ok.empty_of_closed pCur (fun ctr ge lt eq => ?_) (fun _ => by rw [hpc]; trivial)
      fun _ => by rw [Thread.overhangs, hpc]; rfl
    rw [ok.curId] at eq
    have := ok.tail_lt_ring strict
    have := wsIndex_inj eq (by omega) (by omega)
    omega

end Fits

def secondSectionRun : List (Act Nat) :=
  [.threadInit, .lib 0, .call 0 .readerLock] ++ List.replicate 5 (.lib 0) ++
  [.call 0 (.tryLock (.actual 0))] ++ List.replicate 9 (.lib 0) ++ [.call 0 .readerUnlock] ++
  List.replicate 24 (.lib 0) ++ [.call 0 .readerLock] ++ List.replicate 5 (.lib 0) ++
  [.call 0 (.tryLock (.actual 0))] ++ List.replicate 9 (.lib 0)

theorem ring_invariant_between : ∃ s : State Nat,
    System.Reachable Init (overrunStep oneWriteSet) (FitsOf 0) s ∧
    (s.thread 0).wsTailCounter = 1 ∧ (s.thread 0).cur.numOfObjs = 1 ∧
    (s.thread 0).pc.outsideLibrary ∧ (s.thread 0).Ring oneWriteSet := by
  have reached : ((System.run (System.guarded (overrunStep oneWriteSet) (FitsOf 0))
      (State.init fun _ _ => 0) secondSectionRun).any fun s =>
        decide ((s.thread 0).wsTailCounter = 1 ∧ (s.thread 0).cur.numOfObjs = 1) &&
          (s.thread 0).pc.kind == .inSection) = true := by
    decide +kernel
  have start : Init (State.init fun _ _ => (0 : Nat)) := ⟨_, rfl⟩
  obtain ⟨s, h, held⟩ := System.exists_reachable start reached
  obtain ⟨counts, kind⟩ := Bool.and_eq_true_iff.mp held
  obtain ⟨tail, num⟩ := of_decide_eq_true counts
  have outside := Pc.outsideLibrary_of_kind (eq_of_beq kind)
  exact ⟨s, h, tail, num, outside, (ring_invariant oneWriteSet 0 s h).1 outside⟩

/-! ### A header that does not fit -/

def largeObjects : Config := { oneWriteSet with objWords := 12493 }

def Pc.copying : Pc → Option (Nat × Nat)
  | .tryLock (.copy o w) => some (o, w)
  | _ => none

theorem Pc.eq_of_copying {pc : Pc} {o w : Nat} (copying : pc.copying = some (o, w)) :
    pc = .tryLock (.copy o w) := by
  unfold Pc.copying at copying
  split at copying
  · cases copying
    rfl
  · cases copying

theorem overrunStep_copy {cfg : Config} {s : State Unit} {th : Thread Unit} {t o w : Nat}
    (known : t < s.gCurThreads) (more : w < cfg.objWords)
    (room : th.cur.pCur + 8 * (w + 1) ≤ rluMaxWriteSetBufferSize) :
    overrunStep cfg (s.withThread t (th.atPc (.tryLock (.copy o w)))) (.lib t) =
      some (s.withThread t (th.atPc (.tryLock (.copy o (w + 1))))) := by
  have blank (slot i x : Nat) : th.modifyObj slot i (fun e =>
      { e with copy := Function.update e.copy x () }) = th := by
    unfold Thread.modifyObj Thread.setWriteSet WriteSet.modifyObj
    simp only [Function.update_eq_self]
  have stepped : overrunLibStep cfg (s.withThread t (th.atPc (.tryLock (.copy o w)))) t
      (th.atPc (.tryLock (.copy o w))) (.tryLock (.copy o w)) =
        some (th.atPc (.tryLock (.copy o (w + 1))), .none) := by
    show some (if w < cfg.objWords then if th.cur.pCur + 8 * (w + 1) ≤ rluMaxWriteSetBufferSize
      then ((th.modifyObj th.wsCurId th.cur.numOfObjs _).atPc _, Write.none) else _ else _) = _
    rw [if_pos more, if_pos room]
    exact congrArg (fun th' => some (Thread.atPc th' _, Write.none)) (blank _ _ _)
  simp only [overrunStep, State.withThread_gCurThreads, if_pos known, State.withThread_thread,
    Thread.atPc_pc, stepped, Option.map_some, State.write_withThread]
  rfl

/-- Thread 0 locks object 0, up to the copy. -/
def fillRun : List (Act Unit) :=
  [.threadInit, .threadInit, .lib 0, .lib 1, .call 0 .readerLock] ++ List.replicate 5 (.lib 0) ++
  [.call 0 (.tryLock (.actual 0))] ++ List.replicate 6 (.lib 0)

/-- It finds object 1 unlocked, and thread 1 locks it first. -/
def spillRun : List (Act Unit) :=
  [.lib 0, .lib 0, .call 0 (.tryLock (.actual 1)), .lib 0, .call 1 .readerLock] ++
  List.replicate 5 (.lib 1) ++ [.call 1 (.tryLock (.actual 1))] ++ List.replicate 6 (.lib 1) ++
  List.replicate 5 (.lib 0)

/-- The header of the second object ends in the `writer_locks` of the next slot, and the failed CAS
keeps it from the assertion of its size. -/
theorem header_spills : ¬ ∀ (cfg : Config) (t : Nat) (s : State Unit),
    System.Reachable Init (overrunStep cfg) (TailBelowOf t) s →
    (s.thread t).pc.outsideLibrary → (s.thread t).Ring cfg := by
  intro claim
  have reached : ((System.run (System.guarded (overrunStep largeObjects) (TailBelowOf 0))
      (State.init fun _ _ => ()) fillRun).any fun s =>
        decide ((s.thread 0).pc.copying = some (0, 0) ∧ 0 < s.gCurThreads ∧
          (s.thread 0).cur.pCur = 40 ∧ (s.thread 0).wsTailCounter = 0) &&
        (System.run (System.guarded (overrunStep largeObjects) (TailBelowOf 0))
          (s.withThread 0 ((s.thread 0).atPc (.tryLock (.copy 0 12493)))) spillRun).any fun s' =>
            decide ((s'.thread 0).pc.kind = .mustAbort ∧ (s'.thread 0).wsCurId = 0 ∧
              (s'.thread 0).wsTailCounter = 0 ∧
              ((s'.thread 0).objWriteSet 1).writerLocks = [0])) = true := by
    decide +kernel
  simp only [Option.any_eq_true, Bool.and_eq_true, decide_eq_true_eq] at reached
  obtain ⟨s, ran, ⟨copying, known, pCur, tail⟩, s', ran', kind, curId, tail', locks⟩ := reached
  have pc := Pc.eq_of_copying copying
  have start : Init (State.init fun _ _ => ()) := ⟨_, rfl⟩
  have filled (w : Nat) (le : w ≤ 12493) : System.Reachable Init (overrunStep largeObjects)
      (TailBelowOf 0) (s.withThread 0 ((s.thread 0).atPc (.tryLock (.copy 0 w)))) := by
    induction w with
    | zero =>
      have same : s.withThread 0 ((s.thread 0).atPc (.tryLock (.copy 0 0))) = s := by
        rw [← pc]
        exact s.withThread_self 0
      rw [same]
      exact System.Reachable.run (.start start) ran
    | succ w ih =>
      refine (ih (Nat.le_of_succ_le le)).step (fun _ => ?_) (overrunStep_copy known le ?_)
      · show ((s.withThread 0 _).thread 0).wsTailCounter < 2 ^ 31
        rw [State.withThread_thread, Thread.atPc_wsTailCounter, tail]
        exact Nat.two_pow_pos 31
      · rw [pCur]
        show 40 + 8 * (w + 1) ≤ 100000
        omega
  have outside : (s'.thread 0).pc.outsideLibrary := by
    cases hpc : (s'.thread 0).pc <;> rw [hpc] at kind <;> cases kind
    trivial
  have ring := claim largeObjects 0 s' (System.Reachable.run (filled 12493 (Nat.le_refl _)) ran') outside
  have empty := (ring.empty 1 (fun ctr _ lt => by omega) fun current => by
    have := current.2
    omega).2.2
  rw [locks] at empty
  cases empty

end ReadLogUpdate
