import ReadLogUpdate.Rlu.Alone
import ReadLogUpdate.Rlu.Isolation
import ReadLogUpdate.Rlu.Ring

/-!
# One thread running alone

Where thread 0 is the only thread, each of its calls runs to its end: what it returns and what
it does to the ring, the flags and the counters. What holds in every reachable state is not
traced again.
-/

namespace ReadLogUpdate

variable {ω : Type} [Inhabited ω]

def Undisturbed (s : State ω) (a : Act ω) : Prop := VersionAtomic s a ∧ RightSlot s a

structure Solo (cfg : Config) (init : Nat → Nat → ω) (s : State ω) : Prop where
  reach : ReachableFrom cfg init Undisturbed s
  one : s.gCurThreads = 1

/-- The steps of thread 0 inside its call lead to a state with `Q`. -/
abbrev SoloLeads (cfg : Config) (s : State ω) (Q : State ω → Prop) : Prop :=
  System.Leads (step cfg) Undisturbed (.lib 0) s Q

variable {cfg : Config} {init : Nat → Nat → ω} {s : State ω} {th : Thread ω}
  {Q : State ω → Prop}

theorem Solo.wf (h : Solo cfg init s) : WellFormed cfg s :=
  reachable_wellFormed (fun _ _ ok => ok.2) h.reach.reachable

theorem Solo.locks (h : Solo cfg init s) : LockInv s :=
  reachable_lockInv (fun _ _ ok => ok.2) h.reach.reachable

omit [Inhabited ω] in
theorem State.write_gCurThreads (s : State ω) (t : Nat) (th : Thread ω) (w : Write ω) :
    (s.write t th w).gCurThreads = s.gCurThreads := by
  cases w <;> rfl

theorem Solo.ok (h : Solo cfg init s) {a : Act ω} (own : a = .lib 0 ∨ ∃ op, a = .call 0 op)
    (right : RightSlot s a) : Undisturbed s a := by
  refine ⟨fun u lt ne => ?_, right⟩
  obtain rfl : u = 0 := by
    have := h.one
    omega
  rcases own with rfl | ⟨op, rfl⟩ <;> exact absurd rfl ne

theorem Solo.step (h : Solo cfg init (s.withThread 0 th)) (th' : Thread ω) (w : Write ω)
    (stepped : libStep cfg (s.withThread 0 th) 0 th th.pc = some (th', w))
    (start : th.pc.isAbortStart = true → th.isWriteDetected = true → th.RightSlot)
    (next : Solo cfg init ((s.write 0 th' w).withThread 0 th') →
      SoloLeads cfg ((s.write 0 th' w).withThread 0 th') Q) :
    SoloLeads cfg (s.withThread 0 th) Q := by
  have one := h.one
  rw [State.withThread_gCurThreads] at one
  have hs : ReadLogUpdate.step cfg (s.withThread 0 th) (.lib 0) =
      some ((s.write 0 th' w).withThread 0 th') := by
    simp only [ReadLogUpdate.step, State.withThread_gCurThreads, one, Nat.zero_lt_one, if_true,
      State.withThread_thread, stepped, Option.map_some, State.write_withThread]
  have ok : Undisturbed (s.withThread 0 th) (.lib 0) := by
    refine h.ok (.inl rfl) ?_
    show ((s.withThread 0 th).thread 0).pc.isAbortStart = true → _
    rw [State.withThread_thread]
    exact start
  refine .head ok hs (next ⟨h.reach.step ok hs, ?_⟩)
  rw [State.withThread_gCurThreads, State.write_gCurThreads]
  exact one

theorem SoloLeads.solo (h : Solo cfg init s) (leads : SoloLeads cfg s Q) :
    SoloLeads cfg s fun s' => Solo cfg init s' ∧ Q s' := by
  obtain ⟨s', repeats, q⟩ := leads
  refine ⟨s', repeats, ⟨h.reach.repeats repeats, ?_⟩, q⟩
  refine repeats.invariant (fun s => s.gCurThreads = 1) h.one fun s t one _ hs => ?_
  rcases step_cases hs with ⟨e, -⟩ | ⟨u, e, -, -, rfl⟩
  · cases e
  · rw [State.apply_gCurThreads]
    exact one

theorem SoloLeads.then {P : State ω → Prop} (h : Solo cfg init s) (first : SoloLeads cfg s P)
    (next : ∀ s', Solo cfg init s' → P s' → SoloLeads cfg s' Q) : SoloLeads cfg s Q :=
  (first.solo h).trans fun s' both => next s' both.1 both.2

/-! ### `rlu_sync_and_writeback` -/

theorem Solo.drawVersion {k : Caller} (h : Solo cfg init (s.withThread 0 (th.atPc (.sync k .start))))
    (even : th.runCounter % 2 = 0) (some : th.wsTailCounter ≠ th.wsHeadCounter) :
    SoloLeads cfg (s.withThread 0 (th.atPc (.sync k .start))) fun s' =>
      ∃ g : State ω, s' = g.withThread 0 ({ th with
        wsNum := th.wsTailCounter - th.wsWbCounter
        writerVersion := .some (s.gWriterVersion + 1)
        flight := .some (s.gWriterVersion + 1) }.atPc (.sync k (.initLoop 0))) ∧
        g.gWriterVersion = s.gWriterVersion + 1 ∧ g.gCommitVersion = s.gCommitVersion ∧
        g.gCurThreads = s.gCurThreads ∧ g.left = s.left := by
  refine h.step ({ th with wsNum := th.wsTailCounter - th.wsWbCounter }.atPc (.sync k .loadVersion))
    .none ?_ (by rintro ⟨⟩) fun h => ?_
  · simp only [Thread.atPc_pc, libStep, syncStep, Thread.atPc_runCounter, even, if_true,
      Thread.atPc_wsTailCounter, Thread.atPc_wsHeadCounter, some, if_false]
    rfl
  refine h.step (Thread.atPc _ (.sync k (.storeVersion s.gWriterVersion))) .none rfl (by rintro ⟨⟩) fun h => ?_
  refine h.step ({ th with
    wsNum := th.wsTailCounter - th.wsWbCounter
    writerVersion := .some (s.gWriterVersion + 1) }.atPc (.sync k .fetchAdd)) .none rfl (by rintro ⟨⟩)
    fun h => ?_
  refine h.step ({ th with
    wsNum := th.wsTailCounter - th.wsWbCounter
    writerVersion := .some (s.gWriterVersion + 1)
    flight := .some (s.gWriterVersion + 1) }.atPc (.sync k (.initLoop 0))) .addWriterVersion rfl (by rintro ⟨⟩)
    fun h => .done ⟨s.write 0 _ .addWriterVersion, rfl, rfl, rfl, rfl, rfl⟩

theorem Solo.waited {k : Caller} (h : Solo cfg init (s.withThread 0 (th.atPc (.sync k (.initLoop 1)))))
    (clear : (th.qThreads 0).isWait = false) :
    SoloLeads cfg (s.withThread 0 (th.atPc (.sync k (.initLoop 1)))) fun s' =>
      s' = s.withThread 0 (th.atPc (.sync k .reset)) := by
  have one : s.gCurThreads = 1 := h.one
  refine h.step (th.atPc (.sync k .waitStart)) .none ?_ (by rintro ⟨⟩) fun h => ?_
  · simp [libStep, syncStep, one, Thread.go_eq]
  refine h.step (th.atPc (.sync k (.waitLoop s.gCurThreads 0))) .none rfl (by rintro ⟨⟩) fun h => ?_
  refine h.step (th.atPc (.sync k (.waitLoop s.gCurThreads 1))) .none ?_ (by rintro ⟨⟩) fun h => ?_
  · simp [libStep, syncStep, one, clear, Thread.go_eq, rluMaxThreads]
  refine h.step (th.atPc (.sync k .reset)) .none ?_ (by rintro ⟨⟩) fun h => .done rfl
  · simp [libStep, syncStep, one, Thread.go_eq]

theorem Solo.wait {k : Caller} (h : Solo cfg init (s.withThread 0 (th.atPc (.sync k (.initLoop 0))))) :
    SoloLeads cfg (s.withThread 0 (th.atPc (.sync k (.initLoop 0)))) fun s' =>
      ∃ q, s' = s.withThread 0 ({ th with qThreads := q }.atPc (.sync k .reset)) := by
  have one : s.gCurThreads = 1 := h.one
  refine h.step ({ th with
    qThreads := Function.update th.qThreads 0 { th.qThreads 0 with isWait := false } }.atPc
      (.sync k (.initLoop 1))) .none ?_ nofun fun h => ?_
  · simp only [Thread.atPc_pc, libStep, syncStep, State.withThread_gCurThreads, one,
      Nat.zero_lt_one, if_true]
    rfl
  · exact (h.waited (by simp)).mono fun s' e => ⟨_, e⟩

omit [Inhabited ω] in
@[simp] theorem State.withObj_withObj (s : State ω) (f g : Nat → Nat → ω) :
    (s.withObj f).withObj g = s.withObj g := rfl

theorem Solo.copyWords {k : Caller} {ctr i : Nat} (n : Nat) {s : State ω} {w : Nat}
    (h : Solo cfg init (s.withThread 0 (th.atPc (.sync k (.copy ctr i w))))) (len : w + n = cfg.objWords) :
    SoloLeads cfg (s.withThread 0 (th.atPc (.sync k (.copy ctr i w)))) fun s' =>
      ∃ obj, s' = (s.withObj obj).withThread 0 (th.atPc (.sync k (.check ctr i))) := by
  induction n generalizing s w with
  | zero =>
    refine h.step (th.atPc (.sync k (.check ctr i))) .none ?_ (by rintro ⟨⟩) fun h => .done ⟨s.obj, rfl⟩
    simp [libStep, syncStep, ← len, Thread.go_eq]
  | succ n ih =>
    have lt : w < cfg.objWords := by omega
    refine h.step (th.atPc (.sync k (.copy ctr i (w + 1)))) (.obj (th.entry ctr i).pObjActual w
      ((th.entry ctr i).copy w)) ?_ (by rintro ⟨⟩) fun h => ?_
    · simp only [Thread.atPc_pc, libStep, syncStep, lt, if_true]
      rfl
    · exact (ih h (by omega)).mono fun _ reached => reached

theorem Solo.writeback {k : Caller} {ctr i : Nat}
    (h : Solo cfg init (s.withThread 0 (th.atPc (.sync k (.entry ctr i))))) (lt : ctr < th.wsTailCounter)
    (num : i < (th.objWriteSet (wsIndex ctr)).numOfObjs) :
    SoloLeads cfg (s.withThread 0 (th.atPc (.sync k (.entry ctr i)))) fun s' =>
      ∃ hdr obj, s' = ((s.withHdr hdr).withObj obj).withThread 0
        (th.atPc (.sync k (.entry ctr (i + 1)))) := by
  have mark : ((th.objWriteSet (wsIndex ctr)).buffer i).pObjCopy = .ptrIdObjCopy := by
    have ok := h.wf.threads 0
    rw [State.withThread_thread] at ok
    exact ok.marked rfl lt num
  refine h.step (th.atPc (.sync k (.copy ctr i 0))) .none ?_ (by rintro ⟨⟩) fun h => ?_
  · simp [libStep, syncStep, lt, num, mark, Thread.go_eq]
  refine (h.copyWords cfg.objWords (Nat.zero_add _)).then h ?_
  rintro s' h ⟨obj, rfl⟩
  refine h.step (th.atPc (.sync k (.unlock ctr i))) .none ?_ (by rintro ⟨⟩) fun h => ?_
  · have checking : ((s.withThread 0 (th.atPc (.sync k (.check ctr i)))).thread 0).pc =
        .sync k (.check ctr i) := by
      rw [State.withThread_thread]
      rfl
    have checked := writebackAssertion h.wf h.locks checking
    rw [State.withThread_thread] at checked
    simp only [Thread.atPc_pc, libStep]
    rw [checked]
    rfl
  exact h.step (th.atPc (.sync k (.entry ctr (i + 1)))) (.hdr (th.entry ctr i).pObjActual .null)
    rfl (by rintro ⟨⟩) fun h => .done ⟨_, obj, rfl⟩

theorem Solo.writebackSet {k : Caller} {ctr : Nat} (n : Nat) {s : State ω} {i : Nat}
    (h : Solo cfg init (s.withThread 0 (th.atPc (.sync k (.entry ctr i))))) (lt : ctr < th.wsTailCounter)
    (len : i + n = (th.objWriteSet (wsIndex ctr)).numOfObjs) :
    SoloLeads cfg (s.withThread 0 (th.atPc (.sync k (.entry ctr i)))) fun s' =>
      ∃ hdr obj, s' = ((s.withHdr hdr).withObj obj).withThread 0
        (th.atPc (.sync k (.entry (ctr + 1) 0))) := by
  induction n generalizing s i with
  | zero =>
    refine h.step (th.atPc (.sync k (.entry (ctr + 1) 0))) .none ?_ (by rintro ⟨⟩)
      fun h => .done ⟨s.hdr, s.obj, rfl⟩
    simp [libStep, syncStep, lt, ← len, Thread.go_eq]
  | succ n ih =>
    refine (h.writeback lt (by omega)).then h ?_
    rintro s' h ⟨hdr, obj, rfl⟩
    exact (ih h (by omega)).mono fun _ reached => reached

theorem Solo.writebackSets {k : Caller} (n : Nat) {s : State ω} {ctr : Nat}
    (h : Solo cfg init (s.withThread 0 (th.atPc (.sync k (.entry ctr 0)))))
    (len : ctr + n = th.wsTailCounter) :
    SoloLeads cfg (s.withThread 0 (th.atPc (.sync k (.entry ctr 0)))) fun s' =>
      ∃ hdr obj, s' = ((s.withHdr hdr).withObj obj).withThread 0
        (th.atPc (.sync k (.entry th.wsTailCounter 0))) := by
  induction n generalizing s ctr with
  | zero =>
    obtain rfl : ctr = th.wsTailCounter := by omega
    exact .done ⟨s.hdr, s.obj, rfl⟩
  | succ n ih =>
    refine (h.writebackSet _ (by omega) (Nat.zero_add _)).then h ?_
    rintro s' h ⟨hdr, obj, rfl⟩
    exact (ih h (by omega)).mono fun _ reached => reached

def Caller.returned (th : Thread ω) : Caller → Thread ω
  | .readerLock => { th with isWriteDetected := false, isSteal := true, isCheckLocks := true }.atPc
      (.readerLock .register)
  | .commit => th.atPc (.release .commit (.check 0))
  | .readerUnlock | .abort | .checkpoint => th.atPc .idle
  | .finish => th.atPc (.sync .finishAgain .start)
  | .finishAgain => th.atPc .finished

omit [Inhabited ω] in
theorem afterSync_eq {k : Caller} (lt : k = .commit → th.wsHeadCounter < th.wsTailCounter ∧
    wsIndex th.wsTailCounter ≠ wsIndex th.wsHeadCounter) :
    afterSync th k = (k.returned th, .none) := by
  cases k with
  | commit =>
    obtain ⟨lt, ne⟩ := lt rfl
    simp only [afterSync, if_neg ne]
    exact if_neg (not_not_intro lt)
  | _ => rfl

/-- With no pending write set, no object is locked between the sections. -/
theorem Solo.unlocked (h : Solo cfg init s) (drained : (s.thread 0).wsWbCounter = (s.thread 0).wsTailCounter)
    (dropped : ∀ i, (s.thread 0).pc.dropped i) (o : Nat) : s.hdr o = .null := by
  cases held : s.hdr o with
  | null => rfl
  | ptrIdObjCopy => exact absurd held (h.locks.unmarked o)
  | copy c =>
    obtain ⟨ctr, live, -⟩ := h.locks.logged o c held
    obtain ⟨owner, slot, idx⟩ := c
    rcases Nat.eq_zero_or_pos owner with rfl | pos
    · have ge := (h.wf.threads 0).live_ge live
      rcases live.2 with ⟨lt, -⟩ | ⟨-, -, active⟩
      · exact absurd lt (Nat.not_lt_of_le (drained ▸ ge))
      · exact absurd (dropped idx) active
    · have one := h.one
      rw [h.wf.fresh owner (by omega)] at live
      rcases live.2 with ⟨lt, -⟩ | ⟨-, -, active⟩
      · exact absurd lt (Nat.not_lt_zero _)
      · exact absurd trivial active

theorem Solo.processFree {k : Caller} (n : Nat) {s : State ω} {i : Nat}
    (h : Solo cfg init (s.withThread 0 (th.atPc (.sync k (.freeCheck i)))))
    (free : ∀ n ∈ th.freeNodes, s.hdr n.obj = .null) (len : i + n = th.freeNodes.length)
    (returns : k = .commit → th.wsHeadCounter < th.wsTailCounter ∧
      wsIndex th.wsTailCounter ≠ wsIndex th.wsHeadCounter) :
    SoloLeads cfg (s.withThread 0 (th.atPc (.sync k (.freeCheck i)))) fun s' =>
      ∃ released, s' = ({ s with released := released } : State ω).withThread 0
        (k.returned { th with freeNodes := [] }) := by
  induction n generalizing s i with
  | zero =>
    refine h.step (k.returned { th with freeNodes := [] }) .none ?_ (by rintro ⟨⟩)
      fun h => .done ⟨s.released, rfl⟩
    have none : th.freeNodes[i]? = none := List.getElem?_eq_none (by omega)
    simp only [Thread.atPc_pc, libStep, syncStep, Thread.atPc_freeNodes, none]
    rw [afterSync_eq (by exact returns)]
    cases k <;> rfl
  | succ n ih =>
    have bound : i < th.freeNodes.length := by omega
    have here : th.freeNodes[i]? = some th.freeNodes[i] := List.getElem?_eq_getElem bound
    refine h.step (th.atPc (.sync k (.free i))) .none ?_ (by rintro ⟨⟩) fun h => ?_
    · simp [libStep, syncStep, here, free _ (List.getElem_mem bound), Thread.go_eq]
    refine h.step (th.atPc (.sync k (.freeCheck (i + 1)))) (.free th.freeNodes[i]) ?_ (by rintro ⟨⟩)
      fun h => ?_
    · simp only [Thread.atPc_pc, libStep, syncStep, Thread.atPc_freeNodes, here]
      rfl
    · exact (ih (s := s.write 0 th (.free th.freeNodes[i])) h free (by omega)).mono
        fun _ reached => reached

def Thread.synced (th : Thread ω) (q : Nat → WaitEntry) (log : Nat → WriteSet ω) : Thread ω :=
  { th with
    objWriteSet := log
    wsNum := th.wsTailCounter - th.wsWbCounter
    writerVersion := none
    flight := none
    qThreads := q
    wsHeadCounter := th.wsWbCounter
    wsWbCounter := th.wsTailCounter
    freeNodes := [] }

theorem Solo.endSync {k : Caller}
    (h : Solo cfg init (s.withThread 0 (th.atPc (.sync k (.entry th.wsTailCounter 0)))))
    (num : th.wsNum = th.wsTailCounter - th.wsWbCounter)
    (returns : k = .commit → th.wsHeadCounter < th.wsTailCounter ∧
      wsIndex th.wsTailCounter ≠ wsIndex th.wsHeadCounter) :
    SoloLeads cfg (s.withThread 0 (th.atPc (.sync k (.entry th.wsTailCounter 0)))) fun s' =>
      ∃ g : State ω, s' = g.withThread 0 (k.returned { th with
        wsWbCounter := th.wsTailCounter
        writerVersion := none
        flight := none
        freeNodes := [] }) ∧ g.gWriterVersion = s.gWriterVersion ∧
        g.gCommitVersion = s.gCommitVersion + 1 ∧ g.isSync 0 = 0 ∧ g.left = s.left := by
  refine h.step ({ th with wsWbCounter := th.wsTailCounter }.atPc (.sync k .storeMax)) .none ?_
    (by rintro ⟨⟩) fun h => ?_
  · simp only [Thread.atPc_pc, libStep, syncStep, Thread.atPc_wsTailCounter, Nat.lt_irrefl, if_false,
      Thread.atPc_wsNum, Thread.atPc_wsWbCounter, num, if_true]
    rfl
  refine h.step ({ th with
    wsWbCounter := th.wsTailCounter
    writerVersion := none }.atPc (.sync k .commitAdd)) .none rfl (by rintro ⟨⟩) fun h => ?_
  generalize last : ({ th with
    wsWbCounter := th.wsTailCounter
    writerVersion := none
    flight := none } : Thread ω) = th'
  refine h.step (th'.atPc (.sync k .loadSync)) .addCommitVersion (by rw [← last]; rfl) (by rintro ⟨⟩)
    fun h => ?_
  -- nothing is locked any more, so the free list may go
  have free (g : State ω) (h : Solo cfg init (g.withThread 0 (th'.atPc (.sync k (.freeCheck 0)))))
      (clear : g.isSync 0 = 0) (write : g.gWriterVersion = s.gWriterVersion)
      (commit : g.gCommitVersion = s.gCommitVersion + 1) (left : g.left = s.left) :
      SoloLeads cfg (g.withThread 0 (th'.atPc (.sync k (.freeCheck 0)))) fun s' =>
        ∃ g : State ω, s' = g.withThread 0 (k.returned { th with
          wsWbCounter := th.wsTailCounter
          writerVersion := none
          flight := none
          freeNodes := [] }) ∧ g.gWriterVersion = s.gWriterVersion ∧
          g.gCommitVersion = s.gCommitVersion + 1 ∧ g.isSync 0 = 0 ∧ g.left = s.left := by
    have unlocked := h.unlocked (by rw [State.withThread_thread, ← last]; rfl)
      (fun i => by rw [State.withThread_thread]; trivial)
    refine (h.processFree _ (fun n _ => unlocked n.obj) (Nat.zero_add _)
      (by rw [← last]; exact returns)).mono ?_
    rintro s' ⟨released, rfl⟩
    refine ⟨{ g with released := released }, ?_, write, commit, clear, left⟩
    rw [← last]
  by_cases requested : s.isSync 0 = 0
  · refine h.step (th'.atPc (.sync k (.freeCheck 0))) .none ?_ (by rintro ⟨⟩)
      fun h => free _ h requested rfl rfl rfl
    show some (if s.isSync 0 = 0 then _ else _) = _
    rw [if_pos requested]
    rfl
  · refine h.step (th'.atPc (.sync k .storeSync)) .none ?_ (by rintro ⟨⟩) fun h => ?_
    · show some (if s.isSync 0 = 0 then _ else _) = _
      rw [if_neg requested]
      rfl
    · exact h.step (th'.atPc (.sync k (.freeCheck 0))) (.isSync 0 0) rfl (by rintro ⟨⟩)
        fun h => free (State.write _ 0 _ (.isSync 0 0)) h
          (show Function.update s.isSync 0 0 0 = 0 from Function.update_self _ _ _) rfl rfl rfl

theorem Solo.sync {k : Caller} (h : Solo cfg init (s.withThread 0 (th.atPc (.sync k .start))))
    (due : th.wsTailCounter ≠ th.wsHeadCounter) :
    SoloLeads cfg (s.withThread 0 (th.atPc (.sync k .start))) fun s' =>
      ∃ (g : State ω) (q : Nat → WaitEntry) (log : Nat → WriteSet ω),
        s' = g.withThread 0 (k.returned (th.synced q log)) ∧
        (∀ slot, log slot = (th.objWriteSet slot).reset ∨ log slot = th.objWriteSet slot) ∧
        g.gWriterVersion = s.gWriterVersion + 1 ∧ g.gCommitVersion = s.gCommitVersion + 1 ∧
        g.isSync 0 = 0 ∧ g.left = s.left := by
  have ok := h.wf.threads 0
  rw [State.withThread_thread] at ok
  obtain ⟨even, -, -, strict, pending⟩ :
    th.runCounter % 2 = 0 ∧ th.flight = none ∧ th.writerVersion = none ∧
      (k ≠ .commit → th.wsTailCounter < th.wsWbCounter + cfg.maxWriteSets) ∧
      (k = .commit → th.wsWbCounter < th.wsTailCounter) := ok.control
  have le : th.wsWbCounter ≤ th.wsTailCounter := ok.wb_le_tail
  have near : th.wsTailCounter ≤ th.wsWbCounter + cfg.maxWriteSets := ok.tail_le_wb
  have two := cfg.two_le
  have one := cfg.one_le
  refine (h.drawVersion even due).then h ?_
  rintro s' h ⟨g, rfl, write, commit, -, left⟩
  refine h.wait.then h ?_
  rintro s' h ⟨q, rfl⟩
  generalize eq : ({ th with
    wsNum := th.wsTailCounter - th.wsWbCounter
    writerVersion := .some (s.gWriterVersion + 1)
    flight := .some (s.gWriterVersion + 1)
    qThreads := q } : Thread ω) = th₀ at h ⊢
  obtain ⟨log, reset, slots⟩ := rluResetWriteSets_eq (th₀.atPc (.sync k .reset)) th₀.wsHeadCounter
    (th₀.wsWbCounter - th₀.wsHeadCounter)
  refine h.step ({ th₀ with objWriteSet := log, wsHeadCounter := th₀.wsWbCounter }.atPc
    (.sync k (.entry th₀.wsWbCounter 0))) .none ?_ nofun fun h => ?_
  · show some (Thread.go { Thread.rluResetWriteSets (th₀.atPc (.sync k .reset)) th₀.wsHeadCounter
      (th₀.wsWbCounter - th₀.wsHeadCounter) with wsHeadCounter := th₀.wsWbCounter } _) = _
    rw [reset]
    rfl
  subst eq
  refine (h.writebackSets (th.wsTailCounter - th.wsWbCounter)
    (by show th.wsWbCounter + _ = th.wsTailCounter; omega)).then h ?_
  rintro s' h ⟨hdr, obj, rfl⟩
  refine (h.endSync rfl fun e => ?_).mono ?_
  · have lt := pending e
    refine ⟨lt, fun (index : wsIndex th.wsTailCounter = wsIndex th.wsWbCounter) => ?_⟩
    have same := wsIndex_inj index.symm le (by omega)
    exact absurd same (Nat.ne_of_lt lt)
  · rintro s' ⟨g', rfl, write', commit', clear, left'⟩
    exact ⟨g', q, log, rfl, fun slot => (slots slot).imp And.right And.right, write'.trans write, commit'.trans (congrArg (· + 1) commit), clear,
      left'.trans left⟩

end ReadLogUpdate
