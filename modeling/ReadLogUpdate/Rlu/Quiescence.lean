import Mathlib.Data.Set.Basic
import ReadLogUpdate.Rlu.Ownership

/-!
# Who waits for whom

A thread in `rlu_wait_for_quiescence` waits for threads whose recorded `run_counter` is odd and
still current. The parity of a counter is the side of a section its thread is on, so the thread
waited for is in a section, where it waits for nobody. This holds in every run.
-/

namespace ReadLogUpdate

variable {ω : Type}

def Pc.insideSection : Pc → Bool
  | .readerLock .register => false
  | .readerLock _ | .inSection | .mustAbort | .deref _ | .tryLock _ | .writerLock _ => true
  | .failed _ pc | .fault pc => pc.insideSection
  | _ => false

/-- The thread whose entry `rlu_init_quiescence` is about to fill. -/
def Pc.recording : Pc → Option Nat
  | .sync _ (.initThread u) | .sync _ (.initCounter u) => some u
  | _ => none

def Pc.failedLine : Pc → Option Nat
  | .failed line _ => some line
  | _ => none

def Pc.synchronizing : Pc → Bool
  | .sync _ (.initLoop _) | .sync _ (.initThread _) | .sync _ (.initCounter _)
  | .sync _ .waitStart | .sync _ (.waitLoop _ _) | .sync _ (.waitCounter _ _)
  | .sync _ (.waitVersion _ _) => true
  | _ => false

def Pc.inWaitLoop : Pc → Bool
  | .sync _ (.waitLoop _ _) | .sync _ (.waitCounter _ _) | .sync _ (.waitVersion _ _) => true
  | _ => false

def parityAssertions : List Nat := [417, 424, 433, 553]

/-- The counter is odd inside a section, and so is every counter that is waited on. -/
structure WaitOk (t : Nat) (th : Thread ω) : Prop where
  parity : th.runCounter % 2 = th.pc.insideSection.toNat
  recorded : ∀ u, (th.qThreads u).isWait = true → (th.qThreads u).runCounter % 2 = 1
  self : (th.qThreads t).isWait = false
  recording : ∀ u, th.pc.recording = some u → u ≠ t
  holds : ∀ line, th.pc.failedLine = some line → line ∉ parityAssertions

/-! ### One step -/

section Step
variable {cfg : Config} {s : State ω} {t : Nat} {th th' : Thread ω}

/-- A step that leaves the counter and the wait entries alone. -/
theorem WaitOk.go (h : WaitOk t th) (run : th'.runCounter = th.runCounter)
    (entries : th'.qThreads = th.qThreads) (side : th'.pc.insideSection = th.pc.insideSection)
    (recording : th'.pc.recording = none) (holds : th'.pc.failedLine = none) : WaitOk t th' where
  parity := by rw [run, side, h.parity]
  recorded := by rw [entries]; exact h.recorded
  self := by rw [entries]; exact h.self
  recording u e := by rw [recording] at e; cases e
  holds line e := by rw [holds] at e; cases e

theorem WaitOk.fail (h : WaitOk t th) {line : Nat} (other : line ∉ parityAssertions) :
    WaitOk t (th.fail line).1 where
  parity := h.parity
  recorded := h.recorded
  self := h.self
  recording := nofun
  holds _ e := Option.some.inj e ▸ other

theorem WaitOk.fault (h : WaitOk t th) : WaitOk t th.fault.1 := h.go rfl rfl rfl rfl rfl

theorem WaitOk.even (h : WaitOk t th) (outside : th.pc.insideSection = false) :
    th.runCounter % 2 = 0 := by
  rw [h.parity, outside]
  rfl

theorem WaitOk.odd (h : WaitOk t th) (inside : th.pc.insideSection = true) :
    th.runCounter % 2 = 1 := by
  rw [h.parity, inside]
  rfl

theorem afterSync_wait {k : Caller} (h : WaitOk t th) (outside : th.pc.insideSection = false) :
    WaitOk t (afterSync th k).1 := by
  cases k with
  | commit =>
    simp only [afterSync]
    split_ifs <;> first | exact h.fail (by decide) | exact h.go rfl rfl outside.symm rfl rfl
  | _ => exact h.go rfl rfl outside.symm rfl rfl

theorem readerLockStep_wait {pc : ReaderLockPc} (h : WaitOk t th) (hpc : th.pc = .readerLock pc) :
    WaitOk t (readerLockStep s th pc).1 := by
  cases pc with
  | register =>
    have even := h.even (by rw [hpc]; rfl)
    simp only [readerLockStep]
    rw [if_pos even]
    exact ⟨show (th.runCounter + 1) % 2 = 1 by omega, h.recorded, h.self, by rintro _ ⟨⟩, by rintro _ ⟨⟩⟩
  | _ => exact h.go rfl rfl (by rw [hpc]; rfl) rfl rfl

theorem derefStep_wait {pc : DerefPc} (h : WaitOk t th) (hpc : th.pc = .deref pc) :
    WaitOk t (derefStep s t th pc).1 := by
  cases pc <;> simp only [derefStep] <;> (repeat' split) <;>
    exact h.go rfl rfl (by rw [hpc]; rfl) rfl rfl

theorem tryLockFail_wait (h : WaitOk t th) (inside : th.pc.insideSection = true) :
    WaitOk t (tryLockFail th).1 := by
  unfold tryLockFail
  split_ifs
  · exact h.fail (by decide)
  · exact h.go rfl rfl inside.symm rfl rfl

theorem tryLockStep_wait {pc : TryLockPc} (h : WaitOk t th) (hpc : th.pc = .tryLock pc) :
    WaitOk t (tryLockStep cfg s t th pc).1 := by
  have inside : th.pc.insideSection = true := by rw [hpc]; rfl
  cases pc with
  | syncStore v => exact tryLockFail_wait h inside
  | cas o =>
    simp only [tryLockStep]
    split_ifs
    · exact h.go rfl rfl inside.symm rfl rfl
    · exact tryLockFail_wait h inside
  | header p =>
    cases p with
    | null => exact h.fault
    | copy c =>
      simp only [tryLockStep]
      split_ifs
      · exact h.go rfl rfl inside.symm rfl rfl
      · exact h.fault
    | actual o =>
      simp only [tryLockStep, tryLockFree]
      split
      · split_ifs <;> exact h.go rfl rfl inside.symm rfl rfl
      · exact h.fault
      · exact h.go rfl rfl inside.symm rfl rfl
  | copy | check =>
    simp only [tryLockStep]
    split_ifs <;>
      first | exact h.go rfl rfl inside.symm rfl rfl | exact h.fault | exact h.fail (by decide)
  | owner | runCounter =>
    simp only [tryLockStep]
    split_ifs <;> exact h.go rfl rfl inside.symm rfl rfl
  | storeActual =>
    simp only [tryLockStep]
    split_ifs
    · exact h.go rfl rfl inside.symm rfl rfl
    · exact h.fault
  | _ => exact h.go rfl rfl inside.symm rfl rfl

theorem writerLockStep_wait {pc : WriterLockPc} (h : WaitOk t th) (hpc : th.pc = .writerLock pc) :
    WaitOk t (writerLockStep s t th pc).1 := by
  have inside : th.pc.insideSection = true := by rw [hpc]; rfl
  cases pc with
  | load l =>
    simp only [writerLockStep]
    split_ifs <;> exact h.go rfl rfl inside.symm rfl rfl
  | cas l =>
    have failed (line : Nat) (other : line ∉ parityAssertions) (ws : WriteSet ω) :
        WaitOk t { th.setWriteSet th.wsCurId ws with pc := .failed line th.pc } :=
      ⟨h.parity, h.recorded, h.self, by rintro _ ⟨⟩, fun _ e => Option.some.inj e ▸ other⟩
    simp only [writerLockStep]
    split_ifs
    · exact failed 209 (by decide) _
    · exact h.go rfl rfl inside.symm rfl rfl
    · exact failed 215 (by decide) _
    · exact h.go rfl rfl inside.symm rfl rfl

theorem releaseStep_wait {r : Releaser} {pc : ReleasePc} (h : WaitOk t th)
    (hpc : th.pc = .release r pc) : WaitOk t (releaseStep s t th r pc).1 := by
  have outside : th.pc.insideSection = false := by rw [hpc]; rfl
  cases pc with
  | check i =>
    simp only [releaseStep]
    split
    · split_ifs
      · exact h.go rfl rfl outside.symm rfl rfl
      · exact h.fail (by decide)
    · cases r <;> exact h.go rfl rfl outside.symm rfl rfl
  | store i =>
    simp only [releaseStep]
    split
    · exact h.go rfl rfl outside.symm rfl rfl
    · exact h.fault

theorem readerUnlockStep_wait (h : WaitOk t th) (hpc : th.pc = .readerUnlock) :
    WaitOk t (readerUnlockStep cfg th).1 := by
  have outside : th.pc.insideSection = false := by rw [hpc]; rfl
  simp only [readerUnlockStep]
  split_ifs
  · exact h.go rfl rfl outside.symm rfl rfl
  · exact afterSync_wait (h.go rfl rfl rfl (by rw [hpc]; rfl) (by rw [hpc]; rfl)) outside
  · exact h.go rfl rfl outside.symm rfl rfl

theorem abortStep_wait {pc : AbortPc} (h : WaitOk t th) (hpc : th.pc = .abort pc) :
    WaitOk t (abortStep s t th pc).1 := by
  have outside : th.pc.insideSection = false := by rw [hpc]; rfl
  cases pc with
  | start =>
    simp only [abortStep]
    split_ifs
    · split
      · exact h.go rfl rfl outside.symm rfl rfl
      · exact h.go rfl rfl rfl rfl rfl
    · exact h.go rfl rfl outside.symm rfl rfl
  | unlock slot i =>
    simp only [abortStep]
    split_ifs <;> first | exact h.fail (by decide) | exact h.go rfl rfl outside.symm rfl rfl
  | unlockStore slot i => exact h.go rfl rfl outside.symm rfl rfl

/-- A step of a sync that rewrites the wait entry of `u`. -/
theorem WaitOk.record {u : Nat} {e : WaitEntry} (h : WaitOk t th)
    (run : th'.runCounter = th.runCounter)
    (entries : th'.qThreads = Function.update th.qThreads u e)
    (odd : e.isWait = true → e.runCounter % 2 = 1 ∧ u ≠ t)
    (side : th'.pc.insideSection = th.pc.insideSection)
    (recording : ∀ u, th'.pc.recording = some u → u ≠ t) (holds : th'.pc.failedLine = none) :
    WaitOk t th' where
  parity := by rw [run, side, h.parity]
  recorded u' := by
    rw [entries]
    by_cases eq : u' = u
    · subst eq
      rw [Function.update_self]
      exact fun wait => (odd wait).1
    · rw [Function.update_of_ne eq]
      exact h.recorded u'
  self := by
    rw [entries]
    by_cases eq : t = u
    · subst eq
      rw [Function.update_self]
      exact Bool.eq_false_iff.mpr fun wait => (odd wait).2 rfl
    · rw [Function.update_of_ne eq]
      exact h.self
  recording := recording
  holds line e := by rw [holds] at e; cases e

theorem syncStep_wait {k : Caller} {pc : SyncPc} (h : WaitOk t th) (hpc : th.pc = .sync k pc) :
    WaitOk t (syncStep cfg s t th k pc).1 := by
  have outside : th.pc.insideSection = false := by rw [hpc]; rfl
  cases pc with
  | start =>
    simp only [syncStep]
    rw [if_pos (h.even outside)]
    split_ifs
    · exact afterSync_wait h outside
    · exact h.go rfl rfl outside.symm rfl rfl
  | initLoop u =>
    simp only [syncStep]
    split_ifs with lt valid self
    · exact h.record rfl rfl (by rintro ⟨⟩) outside.symm (by rintro _ ⟨⟩) rfl
    · exact h.record rfl rfl (by rintro ⟨⟩) outside.symm (fun _ e => Option.some.inj e ▸ self) rfl
    · exact h.fault
    · exact h.go rfl rfl outside.symm rfl rfl
  | initThread u =>
    have other : u ≠ t := h.recording u (by rw [hpc]; rfl)
    simp only [syncStep]
    split_ifs
    · exact ⟨(h.even outside).trans rfl, h.recorded, h.self, fun _ e => Option.some.inj e ▸ other,
        fun _ h => by cases h⟩
    · exact h.go rfl rfl outside.symm rfl rfl
  | initCounter u =>
    have other : u ≠ t := h.recording u (by rw [hpc]; rfl)
    exact h.record rfl rfl (fun wait => ⟨eq_of_beq wait, other⟩) outside.symm (by rintro _ ⟨⟩) rfl
  | waitCounter n u =>
    simp only [syncStep]
    split_ifs
    · exact h.record rfl rfl (by rintro ⟨⟩) outside.symm (by rintro _ ⟨⟩) rfl
    · exact h.go rfl rfl outside.symm rfl rfl
  | waitVersion n u =>
    simp only [syncStep]
    split
    · split_ifs
      · exact h.record rfl rfl (by rintro ⟨⟩) outside.symm (by rintro _ ⟨⟩) rfl
      · exact h.go rfl rfl outside.symm rfl rfl
    · exact h.go rfl rfl outside.symm rfl rfl
  | reset =>
    simp only [syncStep]
    rw [rluResetWriteSets_rest]
    exact h.go rfl rfl outside.symm rfl rfl
  | entry ctr i =>
    simp only [syncStep]
    split_ifs <;> first | exact h.go rfl rfl outside.symm rfl rfl | exact h.fail (by decide)
  | check ctr i =>
    simp only [syncStep]
    split
    · split_ifs
      · exact h.go rfl rfl outside.symm rfl rfl
      · exact h.fail (by decide)
    · exact h.fault
  | freeCheck i =>
    simp only [syncStep]
    split
    · split_ifs
      · exact h.go rfl rfl outside.symm rfl rfl
      · exact h.fail (by decide)
    · exact afterSync_wait (h.go rfl rfl rfl (by rw [hpc]; rfl) (by rw [hpc]; rfl)) outside
  | free i =>
    simp only [syncStep]
    split
    · exact h.go rfl rfl outside.symm rfl rfl
    · exact h.fault
  | waitLoop n u =>
    simp only [syncStep]
    split_ifs <;> first | exact h.fault | exact h.go rfl rfl outside.symm rfl rfl
  | _ =>
    simp only [syncStep]
    repeat' split
    all_goals exact h.go rfl rfl outside.symm rfl rfl

theorem libStep_wait {e : Effect ω} (h : WaitOk t th)
    (stepped : libStep cfg s t th th.pc = some e) : WaitOk t e.1 := by
  cases hpc : th.pc with
  | idle | inSection | mustAbort | finished | failed _ _ | fault _ =>
    rw [hpc] at stepped
    cases stepped
  | syncCheckpoint k =>
    have outside : th.pc.insideSection = false := by rw [hpc]; rfl
    rw [hpc] at stepped
    simp only [libStep, ← apply_ite some, Option.some.injEq] at stepped
    subst stepped
    split_ifs
    · exact afterSync_wait h outside
    · exact h.go rfl rfl outside.symm rfl rfl
  | init =>
    rw [hpc] at stepped
    rcases libStep_init stepped with ⟨-, rfl⟩ | rfl
    · exact h.go rfl rfl (by rw [hpc]; rfl) rfl rfl
    · exact h.fault
  | _ =>
    rw [hpc] at stepped
    obtain rfl := Option.some.inj stepped
    first
    | exact readerLockStep_wait h hpc
    | exact derefStep_wait h hpc
    | exact tryLockStep_wait h hpc
    | exact writerLockStep_wait h hpc
    | exact readerUnlockStep_wait h hpc
    | exact abortStep_wait h hpc
    | exact releaseStep_wait h hpc
    | exact syncStep_wait h hpc

theorem rluUnregisterThread_wait {pc : Pc} (h : WaitOk t th)
    (inside : th.pc.insideSection = true) (outside : pc.insideSection = false)
    (recording : pc.recording = none) (holds : pc.failedLine = none) :
    WaitOk t (rluUnregisterThread th pc).1 := by
  have odd := h.odd inside
  unfold rluUnregisterThread
  rw [if_pos odd]
  refine ⟨?_, h.recorded, h.self, fun u e => ?_, fun line e => ?_⟩
  · show (th.runCounter + 1) % 2 = pc.insideSection.toNat
    rw [outside]
    show (th.runCounter + 1) % 2 = 0
    omega
  · cases recording.symm.trans e
  · cases holds.symm.trans e

theorem callInSection_wait {op : Op ω} {e : Effect ω} (h : WaitOk t th)
    (hpc : th.pc = .inSection) (called : callInSection cfg s t th op = some e) : WaitOk t e.1 := by
  have inside : th.pc.insideSection = true := by rw [hpc]; rfl
  cases op with
  | readerLock | checkpoint | finish => cases called
  | readerUnlock | abort =>
    obtain rfl := Option.some.inj called
    exact rluUnregisterThread_wait h inside rfl rfl rfl
  | store c w x =>
    simp only [callInSection] at called
    split_ifs at called
    obtain rfl := Option.some.inj called
    exact h.go rfl rfl inside.symm rfl rfl
  | free p =>
    obtain rfl := Option.some.inj called
    unfold rluFree
    split
    · exact h.go rfl rfl inside.symm rfl rfl
    · rw [if_pos (h.odd inside)]
      split_ifs
      · exact h.go rfl rfl inside.symm rfl rfl
      · exact ⟨h.parity, h.recorded, h.self, by rintro _ ⟨⟩, fun _ e => Option.some.inj e ▸ by decide⟩
    · exact h.fault
  | _ =>
    simp only [callInSection, ← apply_ite some, Option.some.injEq] at called
    subst called
    split_ifs <;> first | exact h.fail (by decide) | exact h.go rfl rfl inside.symm rfl rfl

theorem call_wait {op : Op ω} {e : Effect ω} (h : WaitOk t th)
    (called : call cfg s t th op th.pc = some e) : WaitOk t e.1 := by
  cases hpc : th.pc with
  | idle =>
    rw [hpc] at called
    cases op with
    | readerLock | checkpoint | finish =>
      obtain rfl := Option.some.inj called
      exact h.go rfl rfl (by rw [hpc]; rfl) rfl rfl
    | _ => cases called
  | inSection =>
    rw [hpc] at called
    exact callInSection_wait h hpc called
  | mustAbort =>
    rw [hpc] at called
    cases op with
    | abort =>
      obtain rfl := Option.some.inj called
      exact rluUnregisterThread_wait h (by rw [hpc]; rfl) rfl rfl rfl
    | _ => cases called
  | _ =>
    rw [hpc] at called
    cases called

theorem actEffect_wait {a : Act ω} {e : Effect ω} (h : WaitOk t (s.thread t))
    (act : ActEffect cfg s a t e) : WaitOk t e.1 := by
  rcases act with ⟨op, -, called⟩ | ⟨-, stepped⟩
  · exact call_wait h called
  · exact libStep_wait h stepped

end Step

/-! ### Every run -/

section Runs
variable [Inhabited ω] {cfg : Config} {s : State ω}

theorem WaitOk.init (t : Nat) : WaitOk (ω := ω) t Thread.init :=
  ⟨rfl, nofun, rfl, nofun, nofun⟩

theorem reachable_wait {ok : State ω → Act ω → Prop} (h : System.Reachable Init (step cfg) ok s)
    (t : Nat) : WaitOk t (s.thread t) := by
  refine System.Reachable.invariant (fun s : State ω => ∀ t, WaitOk t (s.thread t)) ?_
    (fun s a s' inv _ hs t => ?_) h t
  · rintro _ ⟨obj, rfl⟩ t
    exact WaitOk.init t
  · rcases step_cases hs with ⟨rfl, rfl⟩ | ⟨u, e, -, act, rfl⟩
    · dsimp only
      by_cases eq : t = s.gCurThreads
      · rw [eq, Function.update_self]
        exact WaitOk.init _
      · rw [Function.update_of_ne eq]
        exact inv t
    · rw [State.apply_thread]
      by_cases eq : t = u
      · subst eq
        rw [Function.update_self]
        exact actEffect_wait (inv t) act
      · rw [Function.update_of_ne eq]
        exact inv t

end Runs

/-- Thread `a` waits for thread `b`: its loop finds the entry set and the counter unchanged. -/
def State.WaitsFor (s : State ω) (a b : Nat) : Prop :=
  (s.thread a).pc.inWaitLoop = true ∧ ((s.thread a).qThreads b).isWait = true ∧
  ((s.thread a).qThreads b).runCounter = (s.thread b).runCounter

instance (s : State ω) (a b : Nat) : Decidable (s.WaitsFor a b) :=
  inferInstanceAs (Decidable (_ ∧ _ ∧ _))

theorem Pc.synchronizing_of_inWaitLoop {pc : Pc} (waiting : pc.inWaitLoop = true) :
    pc.synchronizing = true := by
  cases pc with
  | sync k pc => cases pc <;> first | rfl | cases waiting
  | _ => cases waiting

theorem Pc.not_synchronizing_of_inside {pc : Pc} (inside : pc.insideSection = true) :
    pc.synchronizing = false := by
  cases pc with
  | sync k pc => cases inside
  | _ => rfl

theorem WaitOk.waitsFor {s : State ω} (ok : ∀ t, WaitOk t (s.thread t)) {a b : Nat}
    (waits : s.WaitsFor a b) :
    b ≠ a ∧ (s.thread b).pc.insideSection = true ∧ (s.thread b).pc.synchronizing = false := by
  obtain ⟨-, wait, same⟩ := waits
  have odd : (s.thread b).runCounter % 2 = 1 := same ▸ (ok a).recorded b wait
  have inside : (s.thread b).pc.insideSection = true := by
    by_contra outside
    have even := (ok b).even (Bool.eq_false_iff.mpr outside)
    omega
  refine ⟨?_, inside, Pc.not_synchronizing_of_inside inside⟩
  rintro rfl
  cases (ok b).self.symm.trans wait

/-- A thread that is waited for waits for nobody, so a set of threads that all wait has a
member that waits for one outside it. -/
theorem waits_acyclic [Inhabited ω] (cfg : Config) (s : State ω)
    (h : System.Reachable Init (step cfg) (fun _ _ => True) s) :
    (∀ a b, s.WaitsFor a b → b ≠ a ∧ (s.thread b).pc.insideSection = true ∧
      (s.thread b).pc.synchronizing = false) ∧
    (∀ W : Set Nat, W.Nonempty → ¬ ∀ a ∈ W, ∃ b ∈ W, s.WaitsFor a b) ∧
    ∀ t, ∀ line ∈ [417, 424, 433, 553], ∀ pc, (s.thread t).pc ≠ .failed line pc := by
  have ok := reachable_wait h
  refine ⟨fun a b waits => WaitOk.waitsFor ok waits, fun W ⟨a, mem⟩ closed => ?_,
    fun t line mem pc hpc => (ok t).holds line (by rw [hpc]; rfl) mem⟩
  obtain ⟨b, memb, waits⟩ := closed a mem
  obtain ⟨c, -, ⟨waiting, -⟩⟩ := closed b memb
  have idle := (WaitOk.waitsFor ok waits).2.2
  cases idle.symm.trans (Pc.synchronizing_of_inWaitLoop waiting)

def waitingRun : List (Act Nat) :=
  [.threadInit, .lib 0, .threadInit, .lib 1, .call 1 .readerLock] ++ List.replicate 5 (.lib 1) ++
  [.call 0 .readerLock] ++ List.replicate 5 (.lib 0) ++ [.call 0 (.tryLock (.actual 0))] ++
  List.replicate 9 (.lib 0) ++ [.call 0 .readerUnlock] ++ List.replicate 13 (.lib 0)

theorem waits_acyclic_waiting : ∃ s : State Nat,
    System.Reachable Init (step oneWriteSet) (fun _ _ => True) s ∧ s.WaitsFor 0 1 ∧
    (s.thread 1).pc.insideSection = true := by
  have reached : ((System.run (System.guarded (step oneWriteSet) fun _ _ => True)
      (State.init fun _ _ => 0) waitingRun).any fun s => decide (s.WaitsFor 0 1)) = true := by
    decide +kernel
  have start : Init (State.init fun _ _ => (0 : Nat)) := ⟨_, rfl⟩
  obtain ⟨s, h, waits⟩ := System.exists_reachable start reached
  have waits := of_decide_eq_true waits
  exact ⟨s, h, waits, ((waits_acyclic oneWriteSet s h).1 0 1 waits).2.1⟩

end ReadLogUpdate
