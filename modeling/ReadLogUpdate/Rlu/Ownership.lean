import ReadLogUpdate.Rlu.Flow
import ReadLogUpdate.Rlu.LogStep

/-!
# Ownership of object locks

A header points at a copy exactly when one live log entry locks the object: an entry of a
pending write set or of the current one that no running write-back or `rlu_unlock_objs` has
passed.
-/

namespace ReadLogUpdate

variable {ω : Type}

inductive LockStep (t : Nat) (s s' : State ω) (th th' : Thread ω) : Prop
  | frame (hdr : s'.hdr = s.hdr) (live : ∀ ctr i, th'.Live ctr i ↔ th.Live ctr i)
      (actual : ∀ ctr i, th.Live ctr i →
        (th'.entry ctr i).pObjActual = (th.entry ctr i).pObjActual)
  | lock (idle : th.flight = none) (free : s.hdr (th.entry th.wsTailCounter th.cur.numOfObjs).pObjActual = .null)
      (hdr : s'.hdr = Function.update s.hdr
        (th.entry th.wsTailCounter th.cur.numOfObjs).pObjActual
        (.copy ⟨t, wsIndex th.wsTailCounter, th.cur.numOfObjs⟩))
      (live : ∀ ctr i, th'.Live ctr i ↔
        th.Live ctr i ∨ ctr = th.wsTailCounter ∧ i = th.cur.numOfObjs)
      (entry : th'.entry = th.entry)
  | unlock (ctr i : Nat) (held : th.Live ctr i)
      (hdr : s'.hdr = Function.update s.hdr (th.entry ctr i).pObjActual .null)
      (live : ∀ c j, th'.Live c j ↔ th.Live c j ∧ ¬ (c = ctr ∧ j = i))
      (entry : th'.entry = th.entry)

section Step
variable {cfg : Config} {t : Nat} {s s' : State ω} {th th' : Thread ω}

theorem commit_live {pc' : Pc} (hpc : th.pc = .readerUnlock)
    (next : pc' = .sync .commit .start ∨ pc' = .release .commit (.check 0)) (ctr i : Nat) :
    Thread.Live { th with
      isWriteDetected := false
      wsTailCounter := th.wsTailCounter + 1
      wsCurId := wsIndex (th.wsTailCounter + 1)
      pc := pc' } ctr i ↔ th.Live ctr i := by
  have pos : pc'.wbPos = fun wb => (wb, 0) := by rcases next with rfl | rfl <;> rfl
  have dropped : ∀ i, pc'.dropped i := by rcases next with rfl | rfl <;> exact fun _ => trivial
  rw [Thread.live_iff pos, Thread.live_iff (by rw [hpc]; rfl), hpc]
  refine and_congr_right fun _ => ⟨?_, ?_⟩
  · rintro (⟨lt, num⟩ | ⟨-, -, active⟩)
    · rcases Nat.lt_succ_iff_lt_or_eq.mp lt with lt | e
      · exact .inl ⟨lt, num⟩
      · exact .inr ⟨e, num, id⟩
    · exact absurd (dropped i) active
  · rintro (⟨lt, num⟩ | ⟨e, num, -⟩)
    · exact .inl ⟨Nat.lt_succ_of_lt lt, num⟩
    · exact .inl ⟨Nat.lt_succ_of_le (Nat.le_of_eq e), num⟩

theorem recycle_live {k : Caller} (h : ThreadOk cfg t th) (hpc : th.pc = .sync k .reset)
    (ctr i : Nat) :
    Thread.Live { th with
      objWriteSet :=
        (th.rluResetWriteSets th.wsHeadCounter (th.wsWbCounter - th.wsHeadCounter)).objWriteSet
      wsHeadCounter := th.wsWbCounter
      pc := .sync k (.entry th.wsWbCounter 0) } ctr i ↔ th.Live ctr i := by
  unfold Thread.Live
  rw [hpc]
  show (th.wsWbCounter < ctr ∨ th.wsWbCounter = ctr ∧ 0 ≤ i) ∧ _ ↔
    (th.wsWbCounter < ctr ∨ th.wsWbCounter = ctr ∧ 0 ≤ i) ∧ _
  refine and_congr_right fun past => or_congr (and_congr_right fun lt => ?_) ?_
  · rw [h.recycle_kept (by omega) lt]
  · exact ⟨fun e => absurd trivial e.2.2, fun e => absurd trivial e.2.2⟩

/-- Entries of the current write set come after the pending ones, which keep theirs. -/
theorem write_actual {ws : WriteSet ω} (h : ThreadOk cfg t th)
    (log : th'.objWriteSet = Function.update th.objWriteSet th.wsCurId ws)
    (strict : th.wsTailCounter < th.wsWbCounter + cfg.maxWriteSets)
    (actual : ∀ i, th.Live th.wsTailCounter i →
      (ws.buffer i).pObjActual = (th.cur.buffer i).pObjActual) {ctr i : Nat}
    (live : th.Live ctr i) :
    (th'.entry ctr i).pObjActual = (th.entry ctr i).pObjActual := by
  unfold Thread.entry
  rw [log]
  obtain ⟨-, ⟨lt, -⟩ | ⟨e, -, -⟩⟩ := id live
  · rw [Function.update_of_ne (h.slot_ne strict (Nat.le_trans h.head_le_wb (h.live_ge live)) lt)]
  · subst e
    rw [← h.curId, Function.update_self]
    exact actual i live

theorem LogStep.lockStep (h : ThreadOk cfg t th) (step : LogStep cfg t s s' th th') :
    LockStep t s s' th th' := by
  cases step with
  | quiet objects log =>
    exact .frame objects.hdr log.live fun ctr i _ => by unfold Thread.entry; rw [log.log]
  | write ws objects window log live actual owned strict =>
    exact .frame objects.hdr live fun ctr i => write_actual h log strict actual
  | lock o pc free record state =>
    obtain ⟨inside, -, actual, -⟩ : th.Inside cfg ∧ tryLockControl t th (.cas o) := by
      simpa [pc, Control] using h.control
    have entry : th.entry th.wsTailCounter th.cur.numOfObjs = th.cur.buffer th.cur.numOfObjs := by
      rw [Thread.entry, Thread.cur, h.curId]
    subst record state
    refine .lock inside.2.2.1 (by rwa [entry, actual]) ?_ (fun ctr i => ?_) rfl
    · rw [entry, actual, ← h.curId]
      rfl
    · rw [Thread.live_iff (by rfl), Thread.live_iff (by rw [pc]; rfl), pc]
      show _ ∧ (_ ∨ _ ∧ i < _ + 1 ∧ ¬ False) ↔ (_ ∧ (_ ∨ _ ∧ i < _ + 0 ∧ ¬ False)) ∨ _
      have := h.wb_le_tail
      rw [Thread.cur, h.curId]
      constructor
      · rintro ⟨ge, pending | ⟨rfl, lt, -⟩⟩
        · exact .inl ⟨ge, .inl pending⟩
        · rcases Nat.lt_succ_iff_lt_or_eq.mp lt with lt | e
          · exact .inl ⟨ge, .inr ⟨rfl, lt, id⟩⟩
          · exact .inr ⟨rfl, e⟩
      · rintro (⟨ge, pending | ⟨rfl, lt, -⟩⟩ | ⟨rfl, rfl⟩)
        · exact ⟨ge, .inl pending⟩
        · exact ⟨ge, .inr ⟨rfl, Nat.lt_succ_of_lt lt, id⟩⟩
        · exact ⟨this, .inr ⟨rfl, Nat.lt_succ_self _, id⟩⟩
  | commit pc' pc detected next record state =>
    subst record state
    exact .frame rfl (commit_live pc next) fun _ _ _ => rfl
  | abortUnlock i pc record state =>
    obtain ⟨outside, -, lt⟩ : th.Outside cfg ∧ th.wsCurId = th.wsCurId ∧ i < th.cur.numOfObjs := by
      simpa [pc, Control] using h.control
    have num : i < (th.objWriteSet (wsIndex th.wsTailCounter)).numOfObjs := by
      rwa [Thread.cur, h.curId] at lt
    subst record state
    have pos : th.pc.wbPos = fun wb => (wb, 0) := by rw [pc]; rfl
    refine .unlock th.wsTailCounter i ?_ ?_ (fun c j => ?_) rfl
    · rw [Thread.live_iff pos, pc]
      exact ⟨h.wb_le_tail, .inr ⟨rfl, num, Nat.lt_irrefl i⟩⟩
    · rw [Thread.entry, ← h.curId]
      rfl
    · rw [Thread.live_iff (by rfl), Thread.live_iff pos, pc]
      show _ ∧ (_ ∨ _ ∧ _ ∧ ¬ j < i + 1) ↔ (_ ∧ (_ ∨ _ ∧ _ ∧ ¬ j < i)) ∧ _
      dsimp only [Pc.extra]
      omega
  | publish k pc record state =>
    subst record state
    exact .frame rfl (Thread.live_congr rfl rfl (by rw [pc]; rfl) (by rw [pc]; rfl)
      (by rw [pc]; rfl)) fun _ _ _ => rfl
  | recycle k pc record state =>
    subst record state
    refine .frame rfl (recycle_live h pc) fun ctr i live => ?_
    have lt : ctr < th.wsTailCounter := by
      obtain ⟨-, ⟨lt, -⟩ | ⟨-, -, active⟩⟩ := id live
      · exact lt
      · rw [pc] at active
        exact absurd trivial active
    unfold Thread.entry
    rw [h.recycle_kept (h.live_ge live) lt]
  | writeWord k ctr i w pc bound record state =>
    subst record state
    exact .frame rfl (Thread.live_congr rfl rfl (by rw [pc]; rfl) (by rw [pc]; rfl)
      (by rw [pc]; rfl)) fun _ _ _ => rfl
  | unlock k ctr i pc record state =>
    obtain ⟨writing, lt, num⟩ : th.WritingBack k ctr ∧ ctr < th.wsTailCounter ∧
        i < (th.objWriteSet (wsIndex ctr)).numOfObjs := by
      simpa [pc, Control, syncControl] using h.control
    subst record state
    refine .unlock ctr i ?_ rfl (fun c j => ?_) rfl
    · unfold Thread.Live
      rw [pc]
      exact ⟨.inr ⟨rfl, Nat.le_refl _⟩, .inl ⟨lt, num⟩⟩
    · unfold Thread.Live
      rw [pc]
      show (ctr < c ∨ ctr = c ∧ i + 1 ≤ j) ∧ (_ ∨ _ ∧ _ ∧ ¬ True) ↔
        ((ctr < c ∨ ctr = c ∧ i ≤ j) ∧ (_ ∨ _ ∧ _ ∧ ¬ True)) ∧ _
      simp only [not_true_eq_false, and_false, or_false]
      omega
  | finishWb k pc record state =>
    subst record state
    refine .frame rfl (fun c j => ?_) fun _ _ _ => rfl
    unfold Thread.Live
    rw [pc]
    show (th.wsTailCounter < c ∨ th.wsTailCounter = c ∧ 0 ≤ j) ∧ (_ ∨ _ ∧ _ ∧ ¬ True) ↔
      (th.wsTailCounter < c ∨ th.wsTailCounter = c ∧ 0 ≤ j) ∧ (_ ∨ _ ∧ _ ∧ ¬ True)
    exact Iff.rfl
  | commitVersion k pc record state =>
    subst record state
    exact .frame rfl (Thread.live_congr rfl rfl (by rw [pc]; rfl) (by rw [pc]; rfl)
      (by rw [pc]; rfl)) fun _ _ _ => rfl

end Step

/-! ### The invariant -/

structure LockInv (s : State ω) : Prop where
  installed : ∀ t ctr i, (s.thread t).Live ctr i →
    s.hdr ((s.thread t).entry ctr i).pObjActual = .copy ⟨t, wsIndex ctr, i⟩
  logged : ∀ o c, s.hdr o = .copy c → ∃ ctr, (s.thread c.owner).Live ctr c.idx ∧
    wsIndex ctr = c.slot ∧ ((s.thread c.owner).entry ctr c.idx).pObjActual = o
  unmarked : ∀ o, s.hdr o ≠ .ptrIdObjCopy

/-- The copy that a header points at is marked, names its owner and is for that object. -/
theorem LockInv.copy_of_held {cfg : Config} [Inhabited ω] {s : State ω} (h : LockInv s)
    (wf : WellFormed cfg s) {o : Nat} {c : CopyAddr} (held : s.hdr o = .copy c) :
    (s.wsObj c).threadId = c.owner ∧ (s.wsObj c).pObjCopy = .ptrIdObjCopy ∧
    (s.wsObj c).pObjActual = o := by
  obtain ⟨ctr, live, slot, actual⟩ := h.logged o c held
  obtain ⟨id, mark, -⟩ := (wf.threads c.owner).live ctr c.idx live
  unfold Thread.entry at id mark actual
  rw [slot] at id mark actual
  exact ⟨id, mark, actual⟩

/-- No object is in two write sets or twice in one. -/
theorem LockInv.entry_inj {cfg : Config} [Inhabited ω] {s : State ω} (h : LockInv s)
    (wf : WellFormed cfg s) {t u a b i j : Nat} (ha : (s.thread t).Live a i)
    (hb : (s.thread u).Live b j)
    (same : ((s.thread t).entry a i).pObjActual = ((s.thread u).entry b j).pObjActual) :
    t = u ∧ a = b ∧ i = j := by
  have copies := h.installed t a i ha
  rw [same, h.installed u b j hb] at copies
  obtain ⟨rfl, slot, rfl⟩ : u = t ∧ wsIndex b = wsIndex a ∧ j = i := by simpa using copies
  exact ⟨rfl, ((wf.threads _).live_slot_inj hb ha slot).symm, rfl⟩

theorem init_lockInv [Inhabited ω] {s : State ω} (h : Init s) : LockInv s := by
  obtain ⟨obj, rfl⟩ := h
  refine ⟨fun t ctr i live => ?_, fun o c e => (by cases e), fun o e => (by cases e)⟩
  obtain ⟨-, ⟨lt, -⟩ | ⟨-, -, active⟩⟩ := live
  · exact absurd lt (Nat.not_lt_zero _)
  · exact absurd trivial active

theorem LockStep.lockInv [Inhabited ω] {cfg : Config} {t : Nat} {s s' : State ω}
    {th' : Thread ω} (h : LockInv s) (wf : WellFormed cfg s)
    (thread : s'.thread = Function.update s.thread t th')
    (step : LockStep t s s' (s.thread t) th') : LockInv s' := by
  have self : s'.thread t = th' := by rw [thread, Function.update_self]
  have other {u : Nat} (ne : u ≠ t) : s'.thread u = s.thread u := by
    rw [thread, Function.update_of_ne ne]
  cases step with
  | frame hdr live actual =>
    have same (u ctr i : Nat) : ((s'.thread u).Live ctr i ↔ (s.thread u).Live ctr i) ∧
        ((s.thread u).Live ctr i →
          ((s'.thread u).entry ctr i).pObjActual = ((s.thread u).entry ctr i).pObjActual) := by
      by_cases e : u = t
      · subst e
        rw [self]
        exact ⟨live ctr i, actual ctr i⟩
      · rw [other e]
        exact ⟨Iff.rfl, fun _ => rfl⟩
    refine ⟨fun u ctr i l => ?_, fun o c e => ?_, by rw [hdr]; exact h.unmarked⟩
    · have l' := (same u ctr i).1.mp l
      rw [hdr, (same u ctr i).2 l']
      exact h.installed u ctr i l'
    · rw [hdr] at e
      obtain ⟨ctr, l, slot, obj⟩ := h.logged o c e
      exact ⟨ctr, (same c.owner ctr c.idx).1.mpr l, slot, ((same c.owner ctr c.idx).2 l).trans obj⟩
  | lock idle free hdr live entry =>
    refine ⟨fun u ctr i l => ?_, fun o c e => ?_, fun o => ?_⟩
    · have kept (l : (s.thread u).Live ctr i) :
          s'.hdr ((s.thread u).entry ctr i).pObjActual = .copy ⟨u, wsIndex ctr, i⟩ := by
        have old := h.installed u ctr i l
        have ne : ((s.thread u).entry ctr i).pObjActual ≠
            ((s.thread t).entry (s.thread t).wsTailCounter (s.thread t).cur.numOfObjs).pObjActual :=
          fun e => by
            rw [e, free] at old
            cases old
        rw [hdr, Function.update_of_ne ne]
        exact old
      by_cases e : u = t
      · subst e
        rw [self] at l ⊢
        rw [entry]
        rcases (live ctr i).mp l with l | ⟨rfl, rfl⟩
        · exact kept l
        · rw [hdr, Function.update_self]
      · rw [other e] at l ⊢
        exact kept l
    · rw [hdr] at e
      by_cases here :
        o = ((s.thread t).entry (s.thread t).wsTailCounter (s.thread t).cur.numOfObjs).pObjActual
      · rw [here, Function.update_self] at e
        obtain rfl := PObjCopy.copy.inj e
        refine ⟨(s.thread t).wsTailCounter, ?_, rfl, ?_⟩
        · rw [self]
          exact (live _ _).mpr (.inr ⟨rfl, rfl⟩)
        · rw [self, entry, here]
      · rw [Function.update_of_ne here] at e
        obtain ⟨ctr, l, slot, obj⟩ := h.logged o c e
        by_cases mine : c.owner = t
        · rw [mine] at l obj
          refine ⟨ctr, ?_, slot, ?_⟩
          · rw [mine, self]
            exact (live _ _).mpr (.inl l)
          · rw [mine, self, entry]
            exact obj
        · rw [← other mine] at l obj
          exact ⟨ctr, l, slot, obj⟩
    · rw [hdr]
      by_cases here :
        o = ((s.thread t).entry (s.thread t).wsTailCounter (s.thread t).cur.numOfObjs).pObjActual
      · rw [here, Function.update_self]
        nofun
      · rw [Function.update_of_ne here]
        exact h.unmarked o
  | unlock ctr i held hdr live entry =>
    have still {u a j : Nat} (l : (s.thread u).Live a j) (ne : ¬ (u = t ∧ a = ctr ∧ j = i)) :
        s'.hdr ((s.thread u).entry a j).pObjActual = .copy ⟨u, wsIndex a, j⟩ := by
      have apart : ((s.thread u).entry a j).pObjActual ≠ ((s.thread t).entry ctr i).pObjActual :=
        fun e => ne (h.entry_inj wf l held e)
      rw [hdr, Function.update_of_ne apart]
      exact h.installed u a j l
    refine ⟨fun u a j l => ?_, fun o c e => ?_, fun o => ?_⟩
    · by_cases e : u = t
      · subst e
        rw [self] at l ⊢
        rw [entry]
        obtain ⟨l, ne⟩ := (live a j).mp l
        exact still l fun e => ne e.2
      · rw [other e] at l ⊢
        exact still l fun e' => e e'.1
    · rw [hdr] at e
      by_cases here : o = ((s.thread t).entry ctr i).pObjActual
      · rw [here, Function.update_self] at e
        cases e
      · rw [Function.update_of_ne here] at e
        obtain ⟨a, l, slot, obj⟩ := h.logged o c e
        by_cases mine : c.owner = t
        · rw [mine] at l obj
          refine ⟨a, ?_, slot, ?_⟩
          · rw [mine, self]
            refine (live _ _).mpr ⟨l, fun e => here ?_⟩
            rw [← obj, e.1, e.2]
          · rw [mine, self, entry]
            exact obj
        · rw [← other mine] at l obj
          exact ⟨a, l, slot, obj⟩
    · rw [hdr]
      by_cases here : o = ((s.thread t).entry ctr i).pObjActual
      · rw [here, Function.update_self]
        nofun
      · rw [Function.update_of_ne here]
        exact h.unmarked o

theorem reachable_lockInv [Inhabited ω] {cfg : Config} {ok : State ω → Act ω → Prop}
    (right : ∀ s a, ok s a → RightSlot s a) {s : State ω}
    (h : System.Reachable Init (step cfg) ok s) : LockInv s :=
  System.Reachable.invariant_of LockInv (fun _ => reachable_wellFormed right)
    (fun _ => init_lockInv)
    (fun s a s' wf _ inv hok hs => by
      obtain ⟨t, th', thread, step⟩ := step_logStep wf (right s a hok) hs
      exact (step.lockStep (wf.threads t)).lockInv inv wf thread) h

/-! ### Locking an object again -/

/-- A thread that looks at a header during `rlu_try_lock` has seen every lock of its own. -/
def OwnSeen (s : State ω) (t : Nat) : Pc → Prop
  | .tryLock (.owner o c) | .tryLock (.runCounter o c) =>
    ∀ c', s.hdr o = .copy c' → c'.owner = t → c' = c
  | _ => True

/-- A step of another thread neither takes nor gives back a lock of thread `t`. -/
theorem LockStep.own_kept {t u : Nat} {s s' : State ω} {th th' : Thread ω} (ne : u ≠ t)
    (step : LockStep u s s' th th') {o : Nat} {c : CopyAddr} (own : c.owner = t)
    (e : s'.hdr o = .copy c) : s.hdr o = .copy c := by
  cases step with
  | frame hdr => rwa [hdr] at e
  | lock idle free hdr =>
    rw [hdr] at e
    by_cases here : o = (th.entry th.wsTailCounter th.cur.numOfObjs).pObjActual
    · rw [here, Function.update_self] at e
      obtain rfl := PObjCopy.copy.inj e
      exact absurd own ne
    · rwa [Function.update_of_ne here] at e
  | unlock ctr i held hdr =>
    rw [hdr] at e
    by_cases here : o = (th.entry ctr i).pObjActual
    · rw [here, Function.update_self] at e
      cases e
    · rwa [Function.update_of_ne here] at e

theorem tryLockStep_ownSeen {cfg : Config} {t : Nat} {s : State ω} {th : Thread ω}
    {pc : TryLockPc} (seen : OwnSeen s t (.tryLock pc)) :
    OwnSeen (s.apply t (tryLockStep cfg s t th pc).1 (tryLockStep cfg s t th pc).2) t
      (tryLockStep cfg s t th pc).1.pc := by
  cases pc with
  | header p =>
    cases p with
    | null => trivial
    | copy c =>
      simp only [tryLockStep]
      split_ifs <;> trivial
    | actual o =>
      simp only [tryLockStep, tryLockFree]
      split
      · split_ifs <;> trivial
      · trivial
      · rename_i c e
        intro c' e' _
        exact (PObjCopy.copy.inj (e.symm.trans e')).symm
  | owner o c =>
    simp only [tryLockStep]
    split_ifs
    · exact seen
    · trivial
  | runCounter o c | syncStore v | storeActual o | cas o | copy o w | check o =>
    simp only [tryLockStep, tryLockFail, tryLockReturn]
    (repeat' split) <;> trivial
  | _ => trivial

theorem actEffect_ownSeen {cfg : Config} {s : State ω} {a : Act ω} {t : Nat} {e : Effect ω}
    (seen : OwnSeen s t (s.thread t).pc) (act : ActEffect cfg s a t e) :
    OwnSeen (s.apply t e.1 e.2) t e.1.pc := by
  have flow := actEffect_flow act
  cases hpc : e.1.pc with
  | tryLock pc' =>
    rw [hpc] at flow
    rcases Pc.tryLock_of_nexts flow with from_ | ⟨q, from_⟩
    · rcases act with ⟨op, rfl, called⟩ | ⟨rfl, stepped⟩
      · rw [from_] at called
        cases op with
        | tryLock p | lock p =>
          simp only [call, callInSection, ← apply_ite some, Option.some.injEq] at called
          subst called
          split_ifs at hpc <;> cases hpc
          all_goals trivial
        | readerLock | checkpoint | finish => cases called
        | readerUnlock | abort =>
          obtain rfl := Option.some.inj called
          unfold rluUnregisterThread at hpc
          split_ifs at hpc <;> cases hpc
        | deref p | tryWriterLock l =>
          simp only [call, callInSection, ← apply_ite some, Option.some.injEq] at called
          subst called
          split_ifs at hpc <;> cases hpc
        | store c w x =>
          simp only [call, callInSection] at called
          split_ifs at called
          obtain rfl := Option.some.inj called
          cases hpc
        | free p =>
          obtain rfl := Option.some.inj called
          simp only [rluFree] at hpc
          split at hpc
          · cases hpc
          · split_ifs at hpc <;> cases hpc
          · cases hpc
      · rw [from_] at stepped
        cases stepped
    · rcases act with ⟨op, rfl, called⟩ | ⟨rfl, stepped⟩
      · rw [from_] at called
        cases called
      · rw [from_] at stepped seen
        obtain rfl := Option.some.inj stepped
        rw [← hpc]
        exact tryLockStep_ownSeen seen
  | _ => trivial

theorem reachable_ownSeen [Inhabited ω] {cfg : Config} {ok : State ω → Act ω → Prop}
    (right : ∀ s a, ok s a → RightSlot s a) {s : State ω}
    (h : System.Reachable Init (step cfg) ok s) (t : Nat) : OwnSeen s t (s.thread t).pc := by
  refine System.Reachable.invariant_of (fun s => ∀ t, OwnSeen s t (s.thread t).pc)
    (fun _ => reachable_wellFormed right) ?_ (fun s a s' wf _ seen hok hs t => ?_) h t
  · rintro _ ⟨obj, rfl⟩ t
    trivial
  rcases step_cases hs with ⟨rfl, rfl⟩ | ⟨u, e, -, act, rfl⟩
  · rw [wf.threadInit]
    exact seen t
  rw [State.apply_thread]
  by_cases eq : t = u
  · subst eq
    rw [Function.update_self]
    exact actEffect_ownSeen (seen t) act
  · have lockStep := (actEffect_log (wf.threads u) (right s a hok) act).lockStep (wf.threads u)
    rw [Function.update_of_ne eq]
    have before := seen t
    cases hpc : (s.thread t).pc with
    | tryLock pc =>
      rw [hpc] at before
      cases pc with
      | owner o c | runCounter o c =>
        exact fun c' e' own => before c' (lockStep.own_kept (Ne.symm eq) own e') own
      | _ => trivial
    | _ => trivial

/-- A section that holds `o` and locks it again finds its own copy and logs nothing. -/
theorem relock [Inhabited ω] {cfg : Config} {s : State ω} (wf : WellFormed cfg s) (inv : LockInv s)
    {t : Nat} (seen : OwnSeen s t (s.thread t).pc) {pc : TryLockPc}
    (hpc : (s.thread t).pc = .tryLock pc) {o i : Nat} (lt : i < (s.thread t).cur.numOfObjs)
    (actual : ((s.thread t).cur.buffer i).pObjActual = o) :
    (pc = .header (.actual o) → tryLockStep cfg s t (s.thread t) pc =
      (s.thread t).go (.tryLock (.owner o ⟨t, (s.thread t).wsCurId, i⟩))) ∧
    (∀ c, pc = .owner o c → tryLockStep cfg s t (s.thread t) pc =
      (s.thread t).go (.tryLock (.runCounter o ⟨t, (s.thread t).wsCurId, i⟩))) ∧
    (∀ c, pc = .runCounter o c → tryLockStep cfg s t (s.thread t) pc =
      tryLockReturn (s.thread t) ⟨t, (s.thread t).wsCurId, i⟩) := by
  have h := wf.threads t
  have inside : (s.thread t).Inside cfg := by
    have control := h.control
    rw [hpc] at control
    exact control.1
  have pos : (s.thread t).pc.wbPos = fun wb => (wb, 0) := by rw [hpc]; rfl
  have active : ¬ (s.thread t).pc.dropped i := by rw [hpc]; exact id
  have live : (s.thread t).Live (s.thread t).wsTailCounter i := by
    rw [Thread.live_iff pos, ← h.curId]
    exact ⟨h.wb_le_tail, .inr ⟨rfl, Nat.lt_add_right _ lt, active⟩⟩
  obtain ⟨id, -, run, -⟩ := h.current pos (Nat.lt_add_right _ lt) active
  have entry : (s.thread t).entry (s.thread t).wsTailCounter i = (s.thread t).cur.buffer i := by
    rw [Thread.entry, Thread.cur, h.curId]
  have held : s.hdr o = .copy ⟨t, (s.thread t).wsCurId, i⟩ := by
    rw [← actual, ← entry, inv.installed t _ i live, h.curId]
  have wsObj : s.wsObj ⟨t, (s.thread t).wsCurId, i⟩ = (s.thread t).cur.buffer i := rfl
  rw [hpc] at seen
  refine ⟨?_, fun c => ?_, fun c => ?_⟩
  · rintro rfl
    simp only [tryLockStep, held]
  · rintro rfl
    obtain rfl := seen _ held rfl
    simp only [tryLockStep]
    rw [wsObj, if_pos id]
  · rintro rfl
    obtain rfl := seen _ held rfl
    simp only [tryLockStep]
    rw [wsObj, if_pos (run inside.1).symm]

/-! ### The assertions about locks -/

section Assertion
variable [Inhabited ω] {cfg : Config} {s : State ω} {t : Nat}

theorem writebackAssertion (wf : WellFormed cfg s) (inv : LockInv s) {k : Caller} {ctr i : Nat}
    (hpc : (s.thread t).pc = .sync k (.check ctr i)) :
    syncStep cfg s t (s.thread t) k (.check ctr i) = (s.thread t).go (.sync k (.unlock ctr i)) := by
  have h := wf.threads t
  have control := h.control
  rw [hpc] at control
  obtain ⟨-, lt, num⟩ := control
  have live : (s.thread t).Live ctr i := by
    unfold Thread.Live
    rw [hpc]
    exact ⟨.inr ⟨rfl, Nat.le_refl _⟩, .inl ⟨lt, num⟩⟩
  have held := inv.installed t ctr i live
  have id : (s.wsObj ⟨t, wsIndex ctr, i⟩).threadId = t := (h.live ctr i live).1
  simp only [syncStep]
  rw [show ((s.thread t).objWriteSet (wsIndex ctr)).buffer i = (s.thread t).entry ctr i from rfl, held]
  exact if_pos id

theorem unlockAssertion (wf : WellFormed cfg s) (inv : LockInv s) {slot i : Nat}
    (hpc : (s.thread t).pc = .abort (.unlock slot i)) :
    (abortStep s t (s.thread t) (.unlock slot i)).1.pc.kind ≠ .failed 405 := by
  have h := wf.threads t
  have control := h.control
  rw [hpc] at control
  obtain ⟨outside, rfl, le⟩ := control
  simp only [abortStep]
  split_ifs with lt mark holds
  · rintro ⟨⟩
  · have live : (s.thread t).Live (s.thread t).wsTailCounter i := by
      rw [Thread.live_iff (by rw [hpc]; rfl), ← h.curId, hpc]
      exact ⟨h.wb_le_tail, .inr ⟨rfl, lt, Nat.lt_irrefl i⟩⟩
    have held := inv.installed t _ i live
    rw [Thread.entry, ← h.curId] at held
    exact absurd held holds
  · rintro ⟨⟩
  · rintro ⟨⟩

theorem lockAssertion (wf : WellFormed cfg s) (inv : LockInv s) {o : Nat}
    (hpc : (s.thread t).pc = .tryLock (.check o)) :
    tryLockStep cfg s t (s.thread t) (.check o) =
      tryLockReturn (s.thread t) ⟨t, (s.thread t).wsCurId, (s.thread t).cur.numOfObjs - 1⟩ := by
  have h := wf.threads t
  have control := h.control
  rw [hpc] at control
  obtain ⟨inside, pos, actual, -⟩ := control
  have live : (s.thread t).Live (s.thread t).wsTailCounter ((s.thread t).cur.numOfObjs - 1) := by
    rw [Thread.live_iff (by rw [hpc]; rfl), ← h.curId, hpc]
    exact ⟨h.wb_le_tail, .inr ⟨rfl, Nat.sub_lt pos Nat.one_pos, id⟩⟩
  have held := inv.installed t _ _ live
  rw [Thread.entry, ← h.curId] at held
  simp only [tryLockStep]
  exact if_pos (actual ▸ held)

/-- The assertions at lines 332, 345, 401, 405 and 927 hold where they are made. -/
theorem lockAssertions_hold {a : Act ω} (wf : WellFormed cfg s) (inv : LockInv s)
    (right : RightSlot s a) {e : Effect ω} (act : ActEffect cfg s a t e) {line : Nat}
    (fails : e.1.pc.kind = .failed line) : line ∉ [332, 345, 401, 405, 927] := by
  have h := wf.threads t
  have ok := actEffect_ok h right act
  have flow := actEffect_flow act
  rw [fails] at flow
  have foreign : line ∉ localAssertions := by
    have control := ok.control
    cases hpc : e.1.pc with
    | failed n q =>
      rw [hpc] at control fails
      obtain rfl := PcKind.failed.inj fails
      exact control.1
    | _ =>
      rw [hpc] at fails
      cases fails
  have global : line ∉ [345, 405, 927] := fun mem => by
    rcases Pc.lockAssertion_of_nexts flow mem with ⟨k, ctr, i, hpc⟩ | ⟨slot, i, hpc⟩ | ⟨o, hpc⟩
    · rcases act with ⟨op, -, called⟩ | ⟨-, stepped⟩
      · rw [hpc] at called
        cases called
      · rw [hpc] at stepped
        obtain rfl := Option.some.inj stepped
        rw [writebackAssertion wf inv hpc] at fails
        cases fails
    · rcases act with ⟨op, -, called⟩ | ⟨-, stepped⟩
      · rw [hpc] at called
        cases called
      · rw [hpc] at stepped flow
        obtain rfl := Option.some.inj stepped
        have line_eq : line = 401 ∨ line = 405 := by simpa [Pc.nexts] using flow
        rcases line_eq with rfl | rfl
        · exact foreign (by decide)
        · exact unlockAssertion wf inv hpc fails
    · rcases act with ⟨op, -, called⟩ | ⟨-, stepped⟩
      · rw [hpc] at called
        cases called
      · rw [hpc] at stepped
        obtain rfl := Option.some.inj stepped
        rw [lockAssertion wf inv hpc] at fails
        cases fails
  simp only [localAssertions, List.mem_cons, List.not_mem_nil, or_false] at foreign global ⊢
  omega

end Assertion

/-! ### Ownership over whole runs -/

structure LogPos where
  owner : Nat
  ctr : Nat
  idx : Nat
  deriving DecidableEq

def LogPos.addr (x : LogPos) : CopyAddr := ⟨x.owner, wsIndex x.ctr, x.idx⟩

def State.Locks (s : State ω) (x : LogPos) (o : Nat) : Prop :=
  (s.thread x.owner).Live x.ctr x.idx ∧ ((s.thread x.owner).entry x.ctr x.idx).pObjActual = o

/-- An entry of a write set between the write-back counter and the tail, or of the current
one, is for `o`. -/
def State.Logs (s : State ω) (x : LogPos) (o : Nat) : Prop :=
  (s.thread x.owner).wsWbCounter ≤ x.ctr ∧ x.ctr ≤ (s.thread x.owner).wsTailCounter ∧
  x.idx < ((s.thread x.owner).objWriteSet (wsIndex x.ctr)).numOfObjs ∧
  ((s.thread x.owner).entry x.ctr x.idx).pObjActual = o

/-- The header of `o` points at a copy exactly when one entry is for it, and it is that copy. -/
def State.OwnedBy (s : State ω) (entries : LogPos → Nat → Prop) : Prop :=
  ∀ o c, s.hdr o = .copy c ↔ ∃ x, entries x o ∧ x.addr = c ∧ (s.wsObj c).threadId = x.owner ∧
    ∀ y, entries y o → y = x

theorem LockInv.locks_inj [Inhabited ω] {cfg : Config} {s : State ω} (inv : LockInv s)
    (wf : WellFormed cfg s) {x y : LogPos} {o : Nat} (hx : s.Locks x o) (hy : s.Locks y o) :
    y = x := by
  obtain ⟨owner, ctr, idx⟩ := x
  obtain ⟨owner', ctr', idx'⟩ := y
  obtain ⟨rfl, rfl, rfl⟩ := inv.entry_inj wf hy.1 hx.1 (hy.2.trans hx.2.symm)
  rfl

theorem LockInv.ownedBy [Inhabited ω] {cfg : Config} {s : State ω} (inv : LockInv s)
    (wf : WellFormed cfg s) : s.OwnedBy s.Locks := by
  intro o c
  constructor
  · intro held
    obtain ⟨ctr, live, slot, actual⟩ := inv.logged o c held
    have locks : s.Locks ⟨c.owner, ctr, c.idx⟩ o := ⟨live, actual⟩
    have id := ((wf.threads c.owner).live ctr c.idx live).1
    unfold Thread.entry at id
    rw [slot] at id
    exact ⟨_, locks, by rw [LogPos.addr, slot], id, fun y hy => inv.locks_inj wf locks hy⟩
  · rintro ⟨x, ⟨live, actual⟩, rfl, -, -⟩
    rw [← actual]
    exact inv.installed x.owner x.ctr x.idx live

/-- Object locks and log entries match in every reachable state: a header points at a copy
exactly when one live entry is for the object; no object is in two entries; locking an object
again finds the copy and logs nothing; and the assertions about locks never fire. -/
theorem lock_ownership [Inhabited ω] (cfg : Config) (s : State ω)
    (h : System.Reachable Init (step cfg) TailBelow s) :
    s.OwnedBy s.Locks ∧ (∀ o, s.hdr o ≠ .ptrIdObjCopy) ∧
    (∀ x y o, s.Locks x o → s.Locks y o → y = x) ∧
    (∀ t pc o i, (s.thread t).pc = .tryLock pc → i < (s.thread t).cur.numOfObjs →
      ((s.thread t).cur.buffer i).pObjActual = o →
      (pc = .header (.actual o) → tryLockStep cfg s t (s.thread t) pc =
        (s.thread t).go (.tryLock (.owner o ⟨t, (s.thread t).wsCurId, i⟩))) ∧
      (∀ c, pc = .owner o c → tryLockStep cfg s t (s.thread t) pc =
        (s.thread t).go (.tryLock (.runCounter o ⟨t, (s.thread t).wsCurId, i⟩))) ∧
      (∀ c, pc = .runCounter o c → tryLockStep cfg s t (s.thread t) pc =
        tryLockReturn (s.thread t) ⟨t, (s.thread t).wsCurId, i⟩)) ∧
    ∀ t line, (s.thread t).pc.kind = .failed line → line ∉ [332, 345, 401, 405, 927] := by
  have right (s : State ω) (a : Act ω) (ok : TailBelow s a) : RightSlot s a := ok.rightSlot
  have wf := reachable_wellFormed right h
  have inv := reachable_lockInv right h
  refine ⟨inv.ownedBy wf, inv.unmarked, fun x y o => inv.locks_inj wf,
    fun t pc o i hpc lt actual => relock wf inv (reachable_ownSeen right h t) hpc lt actual,
    fun t line fails => ?_⟩
  refine System.Reachable.invariant_of
    (fun s => ∀ t line, (s.thread t).pc.kind = .failed line → line ∉ [332, 345, 401, 405, 927])
    (fun s h => (⟨reachable_wellFormed right h, reachable_lockInv right h⟩ :
      WellFormed cfg s ∧ LockInv s)) ?_ (fun s a s' known _ unfired hok hs t line fails => ?_)
    h t line fails
  · rintro _ ⟨obj, rfl⟩ t line fails
    cases fails
  · obtain ⟨wf, inv⟩ := known
    rcases step_cases hs with ⟨rfl, rfl⟩ | ⟨u, e, -, act, rfl⟩
    · rw [wf.threadInit] at fails
      exact unfired t line fails
    · rw [State.apply_thread] at fails
      by_cases eq : t = u
      · subst eq
        rw [Function.update_self] at fails
        exact lockAssertions_hold wf inv (right s a hok) act fails
      · rw [Function.update_of_ne eq] at fails
        exact unfired t line fails

/-- One write set at a time, objects of one word. -/
def oneWriteSet : Config := ⟨.fineGrained, 1, 1, by decide, by decide, nofun⟩

def unlockedRun : List (Act Nat) :=
  [.threadInit, .lib 0, .call 0 .readerLock] ++ List.replicate 5 (.lib 0) ++
  [.call 0 (.tryLock (.actual 0))] ++ List.replicate 9 (.lib 0) ++ [.call 0 .readerUnlock] ++
  List.replicate 16 (.lib 0)

/-- The same run, stopped in the section with the lock held. -/
theorem lock_ownership_held : ∃ s : State Nat,
    System.Reachable Init (step oneWriteSet) TailBelow s ∧ s.hdr 0 = .copy ⟨0, 0, 0⟩ ∧
    s.OwnedBy s.Locks := by
  have reached : ((System.run (System.guarded (step oneWriteSet) TailBelow)
      (State.init fun _ _ => 0) (unlockedRun.take 18)).any fun s =>
        decide (s.hdr 0 = .copy ⟨0, 0, 0⟩)) = true := by
    decide +kernel
  have start : Init (State.init fun _ _ => (0 : Nat)) := ⟨_, rfl⟩
  obtain ⟨s, h, held⟩ := System.exists_reachable start reached
  exact ⟨s, h, of_decide_eq_true held, (lock_ownership oneWriteSet s h).1⟩

/-- While the write-back runs, an object it has unlocked still has its entry below the tail:
counted by the counters alone, entries and headers do not match. -/
theorem not_ownedBy_logs : ¬ ∀ s : State Nat,
    System.Reachable Init (step oneWriteSet) TailBelow s → s.OwnedBy s.Logs := by
  intro claim
  have reached : ((System.run (System.guarded (step oneWriteSet) TailBelow)
      (State.init fun _ _ => 0) unlockedRun).any fun s =>
        decide (s.gCurThreads = 1 ∧ s.hdr 0 = .null ∧ (s.thread 0).wsWbCounter = 0 ∧
          (s.thread 0).wsTailCounter = 1 ∧ ((s.thread 0).objWriteSet 0).numOfObjs = 1 ∧
          ((s.thread 0).objWriteSet 1).numOfObjs = 0 ∧
          (((s.thread 0).objWriteSet 0).buffer 0).pObjActual = 0 ∧
          (((s.thread 0).objWriteSet 0).buffer 0).threadId = 0)) = true := by
    decide +kernel
  have start : Init (State.init fun _ _ => (0 : Nat)) := ⟨_, rfl⟩
  obtain ⟨s, h, facts⟩ := System.exists_reachable start reached
  obtain ⟨n, free, wb, tail, num, num', actual, id⟩ := of_decide_eq_true facts
  have wf := reachable_wellFormed (fun _ _ ok => TailBelow.rightSlot ok) h
  have held := (claim s h 0 ⟨0, 0, 0⟩).mpr ⟨⟨0, 0, 0⟩, ?_, rfl, id, ?_⟩
  · rw [free] at held
    cases held
  · refine ⟨Nat.le_of_eq wb, Nat.zero_le _, ?_, actual⟩
    show 0 < ((s.thread 0).objWriteSet 0).numOfObjs
    omega
  · rintro ⟨owner, ctr, idx⟩ ⟨ge, le, lt, -⟩
    dsimp only at ge le lt
    rcases Nat.eq_zero_or_pos owner with rfl | pos
    · rw [tail] at le
      have ctr_cases : ctr = 0 ∨ ctr = 1 := by omega
      rcases ctr_cases with rfl | rfl
      · have lt' : idx < ((s.thread 0).objWriteSet 0).numOfObjs := lt
        obtain rfl : idx = 0 := by omega
        rfl
      · have lt' : idx < ((s.thread 0).objWriteSet 1).numOfObjs := lt
        omega
    · rw [wf.fresh owner (by omega)] at lt
      exact absurd lt (Nat.not_lt_zero _)

end ReadLogUpdate
