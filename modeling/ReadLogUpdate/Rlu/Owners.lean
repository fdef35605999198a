import ReadLogUpdate.Rlu.Ring
import ReadLogUpdate.Rlu.Frees

/-!
# Headers in every run

What holds of the headers whatever the aborts do: a header points at an entry that names its
owner, and only the owner clears it. The locks of one thread are in order if its own aborts find
their write sets.
-/

namespace ReadLogUpdate

variable {ω : Type}

def Thread.Unlocks (th : Thread ω) (o : Nat) : Prop :=
  match th.pc with
  | .abort (.unlockStore slot i) => ((th.objWriteSet slot).buffer i).pObjActual = o
  | .sync _ (.unlock ctr i) => ((th.objWriteSet (wsIndex ctr)).buffer i).pObjActual = o
  | _ => False

def Pc.unlocking : Pc → Bool
  | .abort (.unlockStore _ _) | .sync _ (.unlock _ _) => true
  | _ => false

def Pc.marking : Pc → Bool
  | .tryLock (.storeMark _) | .tryLock (.cas _) => true
  | _ => false

/-- New ids in the log of thread `t` are its own, and no entry is made to point at a copy. -/
def Thread.OwnLog (t : Nat) (th th' : Thread ω) : Prop :=
  ∀ slot, (th'.objWriteSet slot).Owned t (th.objWriteSet slot)

def Thread.next (th : Thread ω) : WsObj ω := th.cur.buffer th.cur.numOfObjs

inductive HdrStep (t : Nat) (s : State ω) (th : Thread ω) (e : Effect ω) : Prop
  | quiet (write : ∀ o v, e.2 ≠ .hdr o v) (log : th.OwnLog t e.1) (calm : e.1.pc.unlocking = false)
      (marks : e.1.pc.marking = true → e.1.next.threadId = t ∨
        th.pc.marking = true ∧ e.1.next.threadId = th.next.threadId)
  | check (o : Nat) (c : CopyAddr) (held : s.hdr o = .copy c)
      (mine : c.owner = t ∨ (s.wsObj c).threadId = t) (write : e.2 = .none)
      (log : e.1.objWriteSet = th.objWriteSet) (unlocks : ∀ o', e.1.Unlocks o' → o' = o)
      (other : e.1.pc.marking = false)
  | install (o : Nat) (pc : th.pc = .tryLock (.cas o)) (free : s.hdr o = .null)
      (record : e = ({ th with pc := .tryLock (.copy o 0) }, .hdr o (.copy (th.nextCopy t))))
  | release (o : Nat) (unlocks : th.Unlocks o) (write : e.2 = .hdr o .null)
      (log : e.1.objWriteSet = th.objWriteSet) (calm : e.1.pc.unlocking = false)
      (other : e.1.pc.marking = false)

theorem Thread.OwnLog.of_same {t : Nat} {th th' : Thread ω}
    (log : th'.objWriteSet = th.objWriteSet) : th.OwnLog t th' := by
  intro slot
  rw [log]
  exact .refl _ t

theorem Thread.OwnLog.of_set {t slot : Nat} {th th' : Thread ω} {ws : WriteSet ω}
    (log : th'.objWriteSet = (th.setWriteSet slot ws).objWriteSet)
    (owned : ws.Owned t (th.objWriteSet slot)) : th.OwnLog t th' := by
  intro slot'
  rw [log]
  by_cases same : slot' = slot
  · subst same
    rw [show (th.setWriteSet slot' ws).objWriteSet slot' = ws from Function.update_self _ _ _]
    exact owned
  · rw [show (th.setWriteSet slot ws).objWriteSet slot' = th.objWriteSet slot' from
      Function.update_of_ne same _ _]
    exact .refl _ t

theorem Thread.OwnLog.of_header {t : Nat} {th th' : Thread ω} {f : WsObj ω → WsObj ω} {p : Nat}
    (log : th'.objWriteSet = (th.storeHeader f p).objWriteSet)
    (id : ∀ e, (f e).threadId = t ∨ (f e).threadId = e.threadId)
    (mark : ∀ e c, (f e).pObjCopy = .copy c → e.pObjCopy = .copy c) : th.OwnLog t th' :=
  .of_set log (WriteSet.Owned.modifyObj th.cur t _ (id _) (mark _))

theorem HdrStep.of_same {t : Nat} {s : State ω} {th : Thread ω} {e : Effect ω}
    (log : e.1.objWriteSet = th.objWriteSet) (write : ∀ o v, e.2 ≠ .hdr o v)
    (calm : e.1.pc.unlocking = false) (other : e.1.pc.marking = false) : HdrStep t s th e :=
  .quiet write (.of_same log) calm fun marking => by
    rw [other] at marking
    cases marking

section Family
variable {cfg : Config} {t : Nat} {s : State ω} {th : Thread ω}

theorem afterSync_hdr {th' : Thread ω} (log : th'.objWriteSet = th.objWriteSet) (k : Caller) :
    HdrStep t s th (afterSync th' k) := by
  cases k with
  | commit =>
    simp only [afterSync]
    split_ifs <;> exact .of_same log (by rintro _ _ ⟨⟩) rfl rfl
  | _ => exact .of_same log (by rintro _ _ ⟨⟩) rfl rfl

theorem readerLockStep_hdr (pc : ReaderLockPc) : HdrStep t s th (readerLockStep s th pc) := by
  cases pc <;> simp only [readerLockStep] <;> (repeat' split) <;> exact .of_same rfl (by rintro _ _ ⟨⟩) rfl rfl

theorem derefStep_hdr (pc : DerefPc) : HdrStep t s th (derefStep s t th pc) := by
  cases pc <;> simp only [derefStep, derefReturn] <;> (repeat' split) <;>
    exact .of_same rfl (by rintro _ _ ⟨⟩) rfl rfl

theorem tryLockStep_hdr {pc : TryLockPc} (hpc : th.pc = .tryLock pc) :
    HdrStep t s th (tryLockStep cfg s t th pc) := by
  have header {f : WsObj ω → WsObj ω} {p : Nat} {e : Effect ω}
      (log : e.1.objWriteSet = (th.storeHeader f p).objWriteSet) (write : e.2 = .none)
      (id : ∀ e, (f e).threadId = t ∨ (f e).threadId = e.threadId)
      (mark : ∀ e c, (f e).pObjCopy = .copy c → e.pObjCopy = .copy c)
      (calm : e.1.pc.unlocking = false)
      (marks : e.1.pc.marking = true → e.1.next.threadId = t ∨
        th.pc.marking = true ∧ e.1.next.threadId = th.next.threadId) : HdrStep t s th e :=
    .quiet (by rw [write]; rintro _ _ ⟨⟩) (.of_header log id mark) calm marks
  have next {f : WsObj ω → WsObj ω} {p : Nat} {q : Pc} :
      ((th.storeHeader f p).go q).1.next = f th.next := by
    show (Thread.cur (th.setWriteSet _ _)).buffer (Thread.cur (th.setWriteSet _ _)).numOfObjs = _
    rw [show (th.setWriteSet th.wsCurId (th.cur.storeHeader th.cur.numOfObjs f p)).cur =
      th.cur.storeHeader th.cur.numOfObjs f p from Function.update_self _ _ _]
    exact WriteSet.modifyObj_buffer_self _ _ _
  cases pc with
  | header p =>
    cases p <;> simp only [tryLockStep, tryLockFree] <;> (repeat' split) <;>
      exact .of_same rfl (by rintro _ _ ⟨⟩) rfl rfl
  | owner | runCounter | syncStore | check =>
    simp only [tryLockStep, tryLockFail, tryLockReturn]
    (repeat' split) <;> exact .of_same rfl (by rintro _ _ ⟨⟩) rfl rfl
  | storeActual o =>
    simp only [tryLockStep]
    split_ifs
    · exact header rfl rfl (fun _ => .inr rfl) (fun _ _ => id) rfl (by rintro ⟨⟩)
    · exact .of_same rfl (by rintro _ _ ⟨⟩) rfl rfl
  | storeRun o => exact header rfl rfl (fun _ => .inr rfl) (fun _ _ => id) rfl (by rintro ⟨⟩)
  | storeId o =>
    refine header rfl rfl (fun _ => .inl rfl) (fun _ _ => id) rfl fun _ => .inl ?_
    rw [tryLockStep, next]
  | storeMark o =>
    refine header rfl rfl (fun _ => .inr rfl) (fun _ _ => by rintro ⟨⟩) rfl fun _ => .inr ⟨by rw [hpc]; rfl, ?_⟩
    rw [tryLockStep, next]
  | cas o =>
    simp only [tryLockStep, tryLockFail]
    split_ifs with free
    · exact .install o hpc free rfl
    · exact .of_same rfl (by rintro _ _ ⟨⟩) rfl rfl
    · exact .of_same rfl (by rintro _ _ ⟨⟩) rfl rfl
  | copy o w =>
    simp only [tryLockStep]
    split_ifs
    · exact .quiet (by rintro _ _ ⟨⟩) (.of_set rfl (.modifyObj _ _ _ (.inr rfl) fun _ => id)) rfl (by rintro ⟨⟩)
    · exact .of_same rfl (by rintro _ _ ⟨⟩) rfl rfl
    · exact .quiet (by rintro _ _ ⟨⟩) (.of_set rfl (.refl th.cur t)) rfl (by rintro ⟨⟩)
    · exact .of_same rfl (by rintro _ _ ⟨⟩) rfl rfl
  | _ => exact .of_same rfl (by rintro _ _ ⟨⟩) rfl rfl

theorem writerLockStep_hdr (pc : WriterLockPc) : HdrStep t s th (writerLockStep s t th pc) := by
  cases pc with
  | load l =>
    simp only [writerLockStep]
    split_ifs <;> exact .of_same rfl (by rintro _ _ ⟨⟩) rfl rfl
  | cas l =>
    simp only [writerLockStep]
    split_ifs
    · exact .quiet (by rintro _ _ ⟨⟩) (.of_set rfl (.refl th.cur t)) rfl (by rintro ⟨⟩)
    · exact .quiet (by rintro _ _ ⟨⟩) (.of_set rfl (.refl th.cur t)) rfl (by rintro ⟨⟩)
    · exact .quiet (by rintro _ _ ⟨⟩) (.of_set rfl (.refl th.cur t)) rfl (by rintro ⟨⟩)
    · exact .of_same rfl (by rintro _ _ ⟨⟩) rfl rfl

theorem releaseStep_hdr (r : Releaser) (pc : ReleasePc) : HdrStep t s th (releaseStep s t th r pc) := by
  cases pc <;> simp only [releaseStep] <;> (repeat' split)
  · exact .of_same rfl (by rintro _ _ ⟨⟩) rfl rfl
  · exact .of_same rfl (by rintro _ _ ⟨⟩) rfl rfl
  · cases r with
    | commit => exact .of_same rfl (by rintro _ _ ⟨⟩) rfl rfl
    | readOnly | abortClean | abortWrite =>
      exact .quiet (by rintro _ _ ⟨⟩) (.of_set rfl (.refl _ t)) rfl (by rintro ⟨⟩)
  · exact .of_same rfl (by rintro _ _ ⟨⟩) rfl rfl
  · exact .of_same rfl (by rintro _ _ ⟨⟩) rfl rfl

theorem readerUnlockStep_hdr : HdrStep t s th (readerUnlockStep cfg th) := by
  simp only [readerUnlockStep, afterSync]
  (repeat' split) <;> exact .of_same rfl (by rintro _ _ ⟨⟩) rfl rfl

theorem abortStep_hdr {pc : AbortPc} (hpc : th.pc = .abort pc) :
    HdrStep t s th (abortStep s t th pc) := by
  cases pc with
  | start =>
    simp only [abortStep]
    (repeat' split) <;> exact .of_same rfl (by rintro _ _ ⟨⟩) rfl rfl
  | unlock slot i =>
    simp only [abortStep]
    split_ifs with counted marked held
    · exact .of_same rfl (by rintro _ _ ⟨⟩) rfl rfl
    · exact .of_same rfl (by rintro _ _ ⟨⟩) rfl rfl
    · exact .check _ _ (not_not.mp held) (.inl rfl) rfl rfl (fun o' unlocks => unlocks.symm) rfl
    · exact .of_same rfl (by rintro _ _ ⟨⟩) rfl rfl
  | unlockStore slot i =>
    refine .release _ ?_ rfl rfl rfl rfl
    rw [Thread.Unlocks, hpc]

theorem syncStep_hdr {k : Caller} {pc : SyncPc} (hpc : th.pc = .sync k pc) :
    HdrStep t s th (syncStep cfg s t th k pc) := by
  cases pc with
  | start =>
    simp only [syncStep]
    split_ifs
    · exact afterSync_hdr rfl k
    · exact .of_same rfl (by rintro _ _ ⟨⟩) rfl rfl
    · exact .of_same rfl (by rintro _ _ ⟨⟩) rfl rfl
  | reset =>
    refine .quiet (by rintro _ _ ⟨⟩) (fun slot i => ?_) rfl (by rintro ⟨⟩)
    rw [show (syncStep cfg s t th k .reset).1.objWriteSet slot =
      (th.rluResetWriteSets th.wsHeadCounter (th.wsWbCounter - th.wsHeadCounter)).objWriteSet slot from rfl,
      rluResetWriteSets_buffer]
    exact ⟨.inr rfl, fun _ => id⟩
  | check ctr i =>
    simp only [syncStep]
    split
    · rename_i c held
      split_ifs with mine
      · exact .check _ c held (.inr mine) rfl rfl (fun o' unlocks => unlocks.symm) rfl
      · exact .of_same rfl (by rintro _ _ ⟨⟩) rfl rfl
    · exact .of_same rfl (by rintro _ _ ⟨⟩) rfl rfl
  | unlock ctr i =>
    refine .release _ ?_ rfl rfl rfl rfl
    rw [Thread.Unlocks, hpc]
  | freeCheck i =>
    simp only [syncStep]
    split
    · split_ifs <;> exact .of_same rfl (by rintro _ _ ⟨⟩) rfl rfl
    · have log : ({ th with freeNodes := [] } : Thread ω).objWriteSet = th.objWriteSet := rfl
      exact afterSync_hdr log k
  | waitVersion =>
    simp only [syncStep]
    (repeat' split) <;> exact .of_same rfl (by rintro _ _ ⟨⟩) rfl rfl
  | free i =>
    simp only [syncStep]
    split <;> exact .of_same rfl (by rintro _ _ ⟨⟩) rfl rfl
  | initLoop | initThread | waitLoop | waitCounter | entry | copy | loadSync =>
    simp only [syncStep]
    split_ifs <;> exact .of_same rfl (by rintro _ _ ⟨⟩) rfl rfl
  | _ => exact .of_same rfl (by rintro _ _ ⟨⟩) rfl rfl

theorem rluUnregisterThread_hdr {pc : Pc} (calm : pc.unlocking = false) (other : pc.marking = false) :
    HdrStep t s th (rluUnregisterThread th pc) := by
  unfold rluUnregisterThread
  split_ifs
  · exact .of_same rfl nofun calm other
  · exact .of_same rfl nofun rfl rfl

theorem callInSection_hdr {op : Op ω} {e : Effect ω}
    (called : callInSection cfg s t th op = some e) : HdrStep t s th e := by
  cases op with
  | readerLock | checkpoint | finish => cases called
  | readerUnlock | abort =>
    obtain rfl := Option.some.inj called
    exact rluUnregisterThread_hdr rfl rfl
  | deref p | tryLock p | lock p | tryWriterLock l =>
    simp only [callInSection, ← apply_ite some, Option.some.injEq] at called
    subst called
    split_ifs <;> exact .of_same rfl (by rintro _ _ ⟨⟩) rfl rfl
  | store c w x =>
    simp only [callInSection] at called
    split_ifs at called
    obtain rfl := Option.some.inj called
    exact .quiet (by rintro _ _ ⟨⟩) (.of_set rfl (.modifyObj _ _ _ (.inr rfl) fun _ => id)) rfl (by rintro ⟨⟩)
  | free p =>
    obtain rfl := Option.some.inj called
    unfold rluFree
    split
    · exact .of_same rfl (by rintro _ _ ⟨⟩) rfl rfl
    · split_ifs <;> exact .of_same rfl (by rintro _ _ ⟨⟩) rfl rfl
    · exact .of_same rfl (by rintro _ _ ⟨⟩) rfl rfl

theorem call_hdr {op : Op ω} {e : Effect ω} (called : call cfg s t th op th.pc = some e) :
    HdrStep t s th e := by
  cases hpc : th.pc with
  | idle =>
    rw [hpc] at called
    cases op with
    | readerLock | checkpoint | finish =>
      obtain rfl := Option.some.inj called
      exact .of_same rfl nofun rfl rfl
    | _ => cases called
  | inSection =>
    rw [hpc] at called
    exact callInSection_hdr called
  | mustAbort =>
    rw [hpc] at called
    cases op with
    | abort =>
      obtain rfl := Option.some.inj called
      exact rluUnregisterThread_hdr rfl rfl
    | _ => cases called
  | _ =>
    rw [hpc] at called
    cases called

theorem libStep_hdr {e : Effect ω} (stepped : libStep cfg s t th th.pc = some e) :
    HdrStep t s th e := by
  cases hpc : th.pc with
  | idle | inSection | mustAbort | finished | failed _ _ | fault _ =>
    rw [hpc] at stepped
    cases stepped
  | init =>
    rw [hpc] at stepped
    rcases libStep_init stepped with ⟨-, rfl⟩ | rfl <;>
      exact .of_same rfl (by rintro _ _ ⟨⟩) rfl rfl
  | syncCheckpoint k =>
    rw [hpc] at stepped
    simp only [libStep, ← apply_ite some, Option.some.injEq] at stepped
    subst stepped
    split_ifs
    · exact afterSync_hdr rfl k
    · exact .of_same rfl (by rintro _ _ ⟨⟩) rfl rfl
  | readerLock pc =>
    rw [hpc] at stepped
    obtain rfl := Option.some.inj stepped
    exact readerLockStep_hdr pc
  | deref pc =>
    rw [hpc] at stepped
    obtain rfl := Option.some.inj stepped
    exact derefStep_hdr pc
  | tryLock pc =>
    rw [hpc] at stepped
    obtain rfl := Option.some.inj stepped
    exact tryLockStep_hdr hpc
  | writerLock pc =>
    rw [hpc] at stepped
    obtain rfl := Option.some.inj stepped
    exact writerLockStep_hdr pc
  | readerUnlock =>
    rw [hpc] at stepped
    obtain rfl := Option.some.inj stepped
    exact readerUnlockStep_hdr
  | abort pc =>
    rw [hpc] at stepped
    obtain rfl := Option.some.inj stepped
    exact abortStep_hdr hpc
  | release r pc =>
    rw [hpc] at stepped
    obtain rfl := Option.some.inj stepped
    exact releaseStep_hdr r pc
  | sync k pc =>
    rw [hpc] at stepped
    obtain rfl := Option.some.inj stepped
    exact syncStep_hdr hpc

theorem actEffect_hdr {a : Act ω} {e : Effect ω} (act : ActEffect cfg s a t e) :
    HdrStep t s (s.thread t) e := by
  rcases act with ⟨op, -, called⟩ | ⟨-, stepped⟩
  · exact call_hdr called
  · exact libStep_hdr stepped

end Family

/-! ### What holds in every run -/

structure Owners (s : State ω) : Prop where
  named : ∀ o c, s.hdr o = .copy c → (s.wsObj c).threadId = c.owner
  unmarked : ∀ o, s.hdr o ≠ .ptrIdObjCopy
  unlocks : ∀ t o, (s.thread t).Unlocks o → ∃ c, s.hdr o = .copy c ∧ c.owner = t
  marking : ∀ t, (s.thread t).pc.marking = true → (s.thread t).next.threadId = t
  unchained : ∀ c c', (s.wsObj c).pObjCopy ≠ .copy c'

/-- What a step of thread `t` leaves of the locks of another thread. -/
structure KeepsOthers (t : Nat) (s s' : State ω) : Prop where
  kept : ∀ o c, s.hdr o = .copy c → c.owner ≠ t → s'.hdr o = .copy c
  old : ∀ o c, s'.hdr o = .copy c → c.owner ≠ t → s.hdr o = .copy c

section Owners
variable {s : State ω} {t : Nat} {e : Effect ω}

theorem HdrStep.log (step : HdrStep t s (s.thread t) e) : (s.thread t).OwnLog t e.1 := by
  cases step with
  | quiet write log => exact log
  | check o c held mine write log => exact .of_same log
  | install o pc free record =>
    subst record
    exact .of_same rfl
  | release o unlocks write log => exact .of_same log

theorem HdrStep.wsObj (step : HdrStep t s (s.thread t) e) (c : CopyAddr) :
    (((s.apply t e.1 e.2).wsObj c).threadId = c.owner ∨
      ((s.apply t e.1 e.2).wsObj c).threadId = (s.wsObj c).threadId) ∧
    ∀ c', ((s.apply t e.1 e.2).wsObj c).pObjCopy = .copy c' → (s.wsObj c).pObjCopy = .copy c' := by
  unfold State.wsObj
  rw [State.apply_thread]
  by_cases own : c.owner = t
  · subst own
    rw [Function.update_self]
    exact step.log c.slot c.idx
  · rw [Function.update_of_ne own]
    exact ⟨.inr rfl, fun _ => id⟩

theorem State.apply_hdr_of (s : State ω) (t : Nat) (th : Thread ω) {w : Write ω}
    (write : ∀ o v, w ≠ .hdr o v) : (s.apply t th w).hdr = s.hdr := by
  cases w with
  | hdr o v => exact absurd rfl (write o v)
  | _ => rfl

theorem Thread.unlocks_unlocking {th : Thread ω} {o : Nat} (unlocks : th.Unlocks o) :
    th.pc.unlocking = true := by
  unfold Thread.Unlocks at unlocks
  split at unlocks
  · rename_i pc
    rw [pc]
    rfl
  · rename_i pc
    rw [pc]
    rfl
  · exact unlocks.elim

theorem HdrStep.keepsOthers (owners : Owners s) (step : HdrStep t s (s.thread t) e) :
    KeepsOthers t s (s.apply t e.1 e.2) := by
  have same (write : ∀ o v, e.2 ≠ .hdr o v) : KeepsOthers t s (s.apply t e.1 e.2) := by
    have := s.apply_hdr_of t e.1 write
    exact ⟨fun o c held _ => by rw [this]; exact held, fun o c held _ => by rwa [this] at held⟩
  cases step with
  | quiet write => exact same write
  | check o c held mine write => exact same (by rw [write]; nofun)
  | install o pc free record =>
    subst record
    refine ⟨fun o' c held other => ?_, fun o' c held other => ?_⟩
    · show Function.update s.hdr o _ o' = _
      have ne : o' ≠ o := by
        rintro rfl
        rw [free] at held
        cases held
      rw [Function.update_of_ne ne]
      exact held
    · have held : Function.update s.hdr o (.copy ((s.thread t).nextCopy t)) o' = .copy c := held
      by_cases eq : o' = o
      · rw [eq, Function.update_self] at held
        obtain rfl := PObjCopy.copy.inj held
        exact absurd rfl other
      · rwa [Function.update_of_ne eq] at held
  | release o unlocks write =>
    obtain ⟨c₀, held₀, mine⟩ := owners.unlocks t o unlocks
    have hdr : (s.apply t e.1 e.2).hdr = Function.update s.hdr o .null := by rw [write]; rfl
    refine ⟨fun o' c held other => ?_, fun o' c held other => ?_⟩
    · have ne : o' ≠ o := by
        rintro rfl
        rw [held] at held₀
        cases held₀
        exact other mine
      rw [hdr, Function.update_of_ne ne]
      exact held
    · rw [hdr] at held
      by_cases eq : o' = o
      · rw [eq, Function.update_self] at held
        cases held
      · rwa [Function.update_of_ne eq] at held

/-- What a header says after a step it said before, or it is the entry just installed. -/
theorem HdrStep.hdr_cases (step : HdrStep t s (s.thread t) e) (o : Nat) :
    (s.apply t e.1 e.2).hdr o = s.hdr o ∨ (s.apply t e.1 e.2).hdr o = .null ∨
    (s.thread t).pc.marking = true ∧ e.1.objWriteSet = (s.thread t).objWriteSet ∧
      (s.apply t e.1 e.2).hdr o = .copy ((s.thread t).nextCopy t) := by
  cases step with
  | quiet write => exact .inl (by rw [s.apply_hdr_of t e.1 write])
  | check o' c held mine write => exact .inl (by rw [s.apply_hdr_of t e.1 (by rw [write]; nofun)])
  | install o' pc free record =>
    subst record
    show Function.update s.hdr o' _ o = _ ∨ Function.update s.hdr o' _ o = _ ∨ _ ∧ _ ∧
      Function.update s.hdr o' _ o = _
    by_cases eq : o = o'
    · subst eq
      rw [Function.update_self]
      exact .inr (.inr ⟨by rw [pc]; rfl, rfl, rfl⟩)
    · exact .inl (Function.update_of_ne eq _ _)
  | release o' unlocks write =>
    have hdr : (s.apply t e.1 e.2).hdr = Function.update s.hdr o' .null := by rw [write]; rfl
    rw [hdr]
    by_cases eq : o = o'
    · subst eq
      exact .inr (.inl (Function.update_self _ _ _))
    · exact .inl (Function.update_of_ne eq _ _)

theorem HdrStep.owners (owners : Owners s) (step : HdrStep t s (s.thread t) e) :
    Owners (s.apply t e.1 e.2) := by
  have wsObj := step.wsObj
  have others := step.keepsOthers owners
  refine ⟨fun o c held => ?_, fun o held => ?_, fun u o unlocks => ?_, fun u marking => ?_,
    fun c c' e' => owners.unchained c c' ((wsObj c).2 c' e')⟩
  · rcases step.hdr_cases o with same | null | ⟨marking, log, new⟩
    · rw [same] at held
      rcases (wsObj c).1 with own | kept
      · exact own
      · rw [kept]
        exact owners.named o c held
    · rw [null] at held
      cases held
    · rw [new] at held
      obtain rfl := PObjCopy.copy.inj held
      rcases (wsObj ((s.thread t).nextCopy t)).1 with own | kept
      · exact own
      · rw [kept]
        exact owners.marking t marking
  · rcases step.hdr_cases o with same | null | ⟨-, -, new⟩
    · rw [same] at held
      exact owners.unmarked o held
    · rw [null] at held
      cases held
    · rw [new] at held
      cases held
  · rw [State.apply_thread] at unlocks
    by_cases own : u = t
    · subst own
      rw [Function.update_self] at unlocks
      have busy := Thread.unlocks_unlocking unlocks
      cases step with
      | quiet write log calm =>
        rw [calm] at busy
        cases busy
      | check o' c held mine write log here =>
        obtain rfl := here o unlocks
        refine ⟨c, ?_, ?_⟩
        · rw [s.apply_hdr_of u e.1 (by rw [write]; nofun)]
          exact held
        · rcases mine with mine | mine
          · exact mine
          · exact (owners.named _ c held).symm.trans mine
      | install o' pc free record =>
        subst record
        cases busy
      | release o' unlocks' write log calm =>
        rw [calm] at busy
        cases busy
    · rw [Function.update_of_ne own] at unlocks
      obtain ⟨c, held, mine⟩ := owners.unlocks u o unlocks
      exact ⟨c, others.kept o c held (mine ▸ own), mine⟩
  · rw [State.apply_thread] at marking ⊢
    by_cases own : u = t
    · subst own
      rw [Function.update_self] at marking ⊢
      cases step with
      | quiet write log calm marks =>
        rcases marks marking with done | ⟨was, same⟩
        · exact done
        · rw [same]
          exact owners.marking u was
      | check o' c held mine write log here other =>
        rw [other] at marking
        cases marking
      | install o' pc free record =>
        subst record
        cases marking
      | release o' unlocks' write log calm other =>
        rw [other] at marking
        cases marking
    · rw [Function.update_of_ne own] at marking ⊢
      exact owners.marking u marking

end Owners

section Run
variable [Inhabited ω] {cfg : Config} {ok : State ω → Act ω → Prop} {s s' : State ω} {t : Nat}

theorem init_owners (start : Init s) : Owners s := by
  obtain ⟨obj, rfl⟩ := start
  exact ⟨nofun, nofun, fun _ _ => False.elim, nofun, nofun⟩

/-- Threads that are not there yet have their initial record. -/
def State.Fresh (s : State ω) : Prop := ∀ t, s.gCurThreads ≤ t → s.thread t = Thread.init

theorem step_fresh {a : Act ω} (fresh : s.Fresh) (hs : step cfg s a = some s') : s'.Fresh := by
  intro u le
  rcases step_cases hs with ⟨-, rfl⟩ | ⟨t, e, lt, -, rfl⟩
  · have le : s.gCurThreads + 1 ≤ u := le
    show Function.update s.thread s.gCurThreads Thread.init u = _
    rw [Function.update_of_ne (by omega)]
    exact fresh u (by omega)
  · rw [State.apply_gCurThreads] at le
    rw [State.apply_thread, Function.update_of_ne (by omega)]
    exact fresh u le

theorem reachable_fresh (h : System.Reachable Init (step cfg) ok s) : s.Fresh :=
  System.Reachable.invariant State.Fresh (by rintro _ ⟨obj, rfl⟩ _ _; rfl)
    (fun _ _ _ fresh _ hs => step_fresh fresh hs) h

theorem State.Fresh.threadInit (fresh : s.Fresh) : { s with
    gCurThreads := s.gCurThreads + 1
    thread := Function.update s.thread s.gCurThreads Thread.init } =
    { s with gCurThreads := s.gCurThreads + 1 } := by
  rw [← fresh _ (Nat.le_refl _), Function.update_eq_self]

theorem step_owners {a : Act ω} (fresh : s.Fresh) (owners : Owners s)
    (hs : step cfg s a = some s') : Owners s' := by
  rcases step_cases hs with ⟨-, rfl⟩ | ⟨t, e, -, act, rfl⟩
  · rw [fresh.threadInit]
    exact ⟨owners.named, owners.unmarked, owners.unlocks, owners.marking, owners.unchained⟩
  · exact (actEffect_hdr act).owners owners

theorem reachable_owners (h : System.Reachable Init (step cfg) ok s) : Owners s :=
  System.Reachable.invariant_of Owners (fun _ => reachable_fresh) (fun _ => init_owners)
    (fun _ _ _ fresh _ owners _ hs => step_owners fresh owners hs) h

end Run

/-! ### The locks of one thread -/

/-- The headers that point into the log of thread `t` are those of its live entries. -/
structure LocksOf (t : Nat) (s : State ω) : Prop where
  installed : ∀ ctr i, (s.thread t).Live ctr i →
    s.hdr ((s.thread t).entry ctr i).pObjActual = .copy ⟨t, wsIndex ctr, i⟩
  logged : ∀ o c, s.hdr o = .copy c → c.owner = t → ∃ ctr, (s.thread t).Live ctr c.idx ∧
    wsIndex ctr = c.slot ∧ ((s.thread t).entry ctr c.idx).pObjActual = o

section Locks
variable [Inhabited ω] {cfg : Config} {s s' : State ω} {t : Nat}

omit [Inhabited ω] in
theorem LocksOf.others {u : Nat} (locks : LocksOf t s) (ne : t ≠ u)
    (thread : s'.thread t = s.thread t) (keeps : KeepsOthers u s s') : LocksOf t s' := by
  refine ⟨fun ctr i live => ?_, fun o c held mine => ?_⟩
  · rw [thread] at live ⊢
    exact keeps.kept _ _ (locks.installed ctr i live) ne
  · rw [thread]
    exact locks.logged o c (keeps.old o c held (mine ▸ ne)) mine

omit [Inhabited ω] in
theorem LocksOf.entry_inj (locks : LocksOf t s) (ok : ThreadOk cfg t (s.thread t)) {a b i j : Nat}
    (ha : (s.thread t).Live a i) (hb : (s.thread t).Live b j)
    (same : ((s.thread t).entry a i).pObjActual = ((s.thread t).entry b j).pObjActual) :
    a = b ∧ i = j := by
  have copies := locks.installed a i ha
  rw [same, locks.installed b j hb] at copies
  obtain ⟨slot, rfl⟩ : wsIndex b = wsIndex a ∧ j = i := by simpa using copies
  exact ⟨(ok.live_slot_inj hb ha slot).symm, rfl⟩

omit [Inhabited ω] in
theorem LockStep.locksOf {th' : Thread ω} (locks : LocksOf t s) (ok : ThreadOk cfg t (s.thread t))
    (self : s'.thread t = th') (step : LockStep t s s' (s.thread t) th') : LocksOf t s' := by
  cases step with
  | frame hdr live actual =>
    refine ⟨fun ctr i l => ?_, fun o c e mine => ?_⟩
    · rw [self] at l ⊢
      have l' := (live ctr i).mp l
      rw [hdr, actual ctr i l']
      exact locks.installed ctr i l'
    · rw [hdr] at e
      obtain ⟨ctr, l, slot, obj⟩ := locks.logged o c e mine
      rw [self]
      exact ⟨ctr, (live ctr c.idx).mpr l, slot, (actual ctr c.idx l).trans obj⟩
  | lock idle free hdr live entry =>
    refine ⟨fun ctr i l => ?_, fun o c e mine => ?_⟩
    · rw [self] at l ⊢
      rw [entry]
      rcases (live ctr i).mp l with l | ⟨rfl, rfl⟩
      · have old := locks.installed ctr i l
        have ne : ((s.thread t).entry ctr i).pObjActual ≠
            ((s.thread t).entry (s.thread t).wsTailCounter (s.thread t).cur.numOfObjs).pObjActual :=
          fun e => by
            rw [e, free] at old
            cases old
        rw [hdr, Function.update_of_ne ne]
        exact old
      · rw [hdr, Function.update_self]
    · rw [hdr] at e
      rw [self, entry]
      by_cases here :
        o = ((s.thread t).entry (s.thread t).wsTailCounter (s.thread t).cur.numOfObjs).pObjActual
      · rw [here, Function.update_self] at e
        obtain rfl := PObjCopy.copy.inj e
        exact ⟨(s.thread t).wsTailCounter, (live _ _).mpr (.inr ⟨rfl, rfl⟩), rfl, here.symm⟩
      · rw [Function.update_of_ne here] at e
        obtain ⟨ctr, l, slot, obj⟩ := locks.logged o c e mine
        exact ⟨ctr, (live _ _).mpr (.inl l), slot, obj⟩
  | unlock ctr i held hdr live entry =>
    refine ⟨fun a j l => ?_, fun o c e mine => ?_⟩
    · rw [self] at l ⊢
      rw [entry]
      obtain ⟨l, ne⟩ := (live a j).mp l
      have apart : ((s.thread t).entry a j).pObjActual ≠ ((s.thread t).entry ctr i).pObjActual :=
        fun e => ne (locks.entry_inj ok l held e)
      rw [hdr, Function.update_of_ne apart]
      exact locks.installed a j l
    · rw [hdr] at e
      rw [self, entry]
      have here : o ≠ ((s.thread t).entry ctr i).pObjActual := by
        rintro rfl
        rw [Function.update_self] at e
        cases e
      rw [Function.update_of_ne here] at e
      obtain ⟨a, l, slot, obj⟩ := locks.logged o c e mine
      refine ⟨a, (live _ _).mpr ⟨l, fun e => here ?_⟩, slot, obj⟩
      rw [← obj, e.1, e.2]

theorem init_locksOf (start : Init s) : LocksOf t s := by
  obtain ⟨obj, rfl⟩ := start
  refine ⟨fun ctr i live => ?_, nofun⟩
  rcases live.2 with ⟨lt, -⟩ | ⟨-, -, active⟩
  · exact absurd lt (Nat.not_lt_zero _)
  · exact absurd trivial active

/-- The locks of a thread whose aborts find their write sets, whatever the other threads do. -/
theorem reachable_locksOf {ok : State ω → Act ω → Prop}
    (right : ∀ s a, ok s a → a.thread s = t → RightSlot s a)
    (h : System.Reachable Init (step cfg) ok s) : LocksOf t s := by
  refine System.Reachable.invariant_of (LocksOf t)
    (fun s h => And.intro (reachable_ring right h).1 (And.intro (reachable_owners h)
      (reachable_fresh h))) (fun _ => init_locksOf) (fun s a s' known _ locks allowed hs => ?_) h
  obtain ⟨ok, owners, fresh⟩ := known
  rcases step_cases hs with ⟨-, rfl⟩ | ⟨u, e, -, act, rfl⟩
  · rw [fresh.threadInit]
    exact ⟨locks.installed, locks.logged⟩
  · by_cases own : t = u
    · subst own
      exact ((actEffect_log ok (right s a allowed act.thread_eq) act).lockStep ok).locksOf locks ok
        (by rw [State.apply_thread, Function.update_self])
    · refine locks.others own ?_ ((actEffect_hdr act).keepsOthers owners)
      rw [State.apply_thread, Function.update_of_ne own]

end Locks

/-! ### Which steps write what -/

def Write.special : Write ω → Bool
  | .isSync _ 0 | .obj _ _ _ | .commit _ => true
  | _ => false

section Record
variable {cfg : Config} {s : State ω} {t : Nat} {th : Thread ω} {a : Act ω} {e : Effect ω}

theorem afterSync_plain (k : Caller) : (afterSync th k).2.special = false := by
  cases k with
  | commit =>
    simp only [afterSync]
    split_ifs <;> rfl
  | _ => rfl

theorem derefStep_plain (pc : DerefPc) : (derefStep s t th pc).2.special = false := by
  cases pc <;> simp only [derefStep, derefReturn] <;> (repeat' split) <;> rfl

theorem tryLockStep_plain (pc : TryLockPc) : (tryLockStep cfg s t th pc).2.special = false := by
  cases pc with
  | header p => cases p <;> simp only [tryLockStep, tryLockFree] <;> (repeat' split) <;> rfl
  | owner | runCounter | syncStore | storeActual | cas | copy | check =>
    simp only [tryLockStep, tryLockFail, tryLockReturn]
    (repeat' split) <;> rfl
  | _ => rfl

theorem writerLockStep_plain (pc : WriterLockPc) : (writerLockStep s t th pc).2.special = false := by
  cases pc <;> simp only [writerLockStep] <;> split_ifs <;> rfl

theorem releaseStep_plain (r : Releaser) (pc : ReleasePc) :
    (releaseStep s t th r pc).2.special = false := by
  cases pc <;> simp only [releaseStep] <;> (repeat' split) <;> cases r <;> rfl

theorem readerLockStep_plain (pc : ReaderLockPc) : (readerLockStep s th pc).2.special = false := by
  cases pc <;> simp only [readerLockStep] <;> (repeat' split) <;> rfl

theorem abortStep_plain (pc : AbortPc) : (abortStep s t th pc).2.special = false := by
  cases pc <;> simp only [abortStep] <;> (repeat' split) <;> rfl

theorem syncStep_plain {k : Caller} {pc : SyncPc} (late : pc ≠ .storeSync)
    (other : ∀ ctr i w, pc ≠ .copy ctr i w) : (syncStep cfg s t th k pc).2.special = false := by
  cases pc with
  | storeSync => exact absurd rfl late
  | copy ctr i w => exact absurd rfl (other ctr i w)
  | start =>
    simp only [syncStep]
    split_ifs
    · exact afterSync_plain k
    · rfl
    · rfl
  | freeCheck i =>
    simp only [syncStep]
    split
    · split_ifs <;> rfl
    · exact afterSync_plain k
  | check | waitVersion =>
    simp only [syncStep]
    split
    · split_ifs <;> rfl
    · rfl
  | free i =>
    simp only [syncStep]
    split <;> rfl
  | initLoop | initThread | waitLoop | waitCounter | entry | loadSync =>
    simp only [syncStep]
    split_ifs <;> rfl
  | _ => rfl

theorem callInSection_write {op : Op ω} (called : callInSection cfg s t th op = some e) :
    e.2 = .none := by
  cases op with
  | readerLock | checkpoint | finish => cases called
  | readerUnlock | abort =>
    obtain rfl := Option.some.inj called
    unfold rluUnregisterThread
    split_ifs <;> rfl
  | deref p | tryLock p | lock p | tryWriterLock l =>
    simp only [callInSection, ← apply_ite some, Option.some.injEq] at called
    subst called
    split_ifs <;> rfl
  | store c w x =>
    simp only [callInSection] at called
    split_ifs at called
    obtain rfl := Option.some.inj called
    rfl
  | free p =>
    obtain rfl := Option.some.inj called
    unfold rluFree
    (repeat' split) <;> rfl

theorem call_write {op : Op ω} (called : call cfg s t th op th.pc = some e) : e.2 = .none := by
  cases hpc : th.pc with
  | idle =>
    rw [hpc] at called
    cases op with
    | readerLock | checkpoint | finish =>
      obtain rfl := Option.some.inj called
      rfl
    | _ => cases called
  | inSection =>
    rw [hpc] at called
    exact callInSection_write called
  | mustAbort =>
    rw [hpc] at called
    cases op with
    | abort =>
      obtain rfl := Option.some.inj called
      unfold rluUnregisterThread
      split_ifs <;> rfl
    | _ => cases called
  | _ =>
    rw [hpc] at called
    cases called

/-- Where a thread clears its flag, writes an object or commits. -/
theorem ActEffect.special (act : ActEffect cfg s a t e) (special : e.2.special = true) :
    (s.thread t).pc = .readerUnlock ∨ (∃ k, (s.thread t).pc = .sync k .storeSync) ∨
    ∃ k ctr i w, (s.thread t).pc = .sync k (.copy ctr i w) := by
  have no {p : Prop} (plain : e.2.special = false) : p := by
    rw [plain] at special
    cases special
  rcases act with ⟨op, -, called⟩ | ⟨-, stepped⟩
  · refine no ?_
    rw [call_write called]
    rfl
  · cases hpc : (s.thread t).pc with
    | sync k pc =>
      rw [hpc] at stepped
      obtain rfl := Option.some.inj stepped
      by_cases late : pc = .storeSync
      · exact .inr (.inl ⟨k, late ▸ rfl⟩)
      by_cases copies : ∃ ctr i w, pc = .copy ctr i w
      · obtain ⟨ctr, i, w, rfl⟩ := copies
        exact .inr (.inr ⟨k, ctr, i, w, rfl⟩)
      · exact no (syncStep_plain late fun ctr i w e => copies ⟨ctr, i, w, e⟩)
    | syncCheckpoint k =>
      rw [hpc] at stepped
      simp only [libStep, ← apply_ite some, Option.some.injEq] at stepped
      subst stepped
      refine no ?_
      split_ifs
      · exact afterSync_plain k
      · rfl
    | init =>
      rw [hpc] at stepped
      rcases libStep_init stepped with ⟨-, rfl⟩ | rfl <;> exact no rfl
    | readerLock pc =>
      rw [hpc] at stepped
      obtain rfl := Option.some.inj stepped
      exact no (readerLockStep_plain pc)
    | deref pc =>
      rw [hpc] at stepped
      obtain rfl := Option.some.inj stepped
      exact no (derefStep_plain pc)
    | tryLock pc =>
      rw [hpc] at stepped
      obtain rfl := Option.some.inj stepped
      exact no (tryLockStep_plain pc)
    | writerLock pc =>
      rw [hpc] at stepped
      obtain rfl := Option.some.inj stepped
      exact no (writerLockStep_plain pc)
    | readerUnlock => exact .inl rfl
    | abort pc =>
      rw [hpc] at stepped
      obtain rfl := Option.some.inj stepped
      exact no (abortStep_plain pc)
    | release r pc =>
      rw [hpc] at stepped
      obtain rfl := Option.some.inj stepped
      exact no (releaseStep_plain r pc)
    | _ =>
      rw [hpc] at stepped
      cases stepped

end Record

end ReadLogUpdate
