import ReadLogUpdate.Rlu.Lending

/-!
# Threads that come and go

Which fields of the structure of another thread a step reads or writes, and what is left of that
once the other thread has finished.
-/

namespace ReadLogUpdate

variable {ω : Type}

/-- The fields of `rlu_thread_data_t` that other threads use. -/
inductive Field where
  | runCounter | localVersion | writerVersion | isSync | objWriteSet
  deriving DecidableEq

def Ptr.accesses : Ptr → List (Nat × Field)
  | .copy c => [(c.owner, .objWriteSet)]
  | _ => []

/-- The fields that the next step of thread `t` inside a call reads or writes through a pointer, a
header or `g_rlu_threads`. -/
def State.accesses (s : State ω) (t : Nat) : List (Nat × Field) :=
  match (s.thread t).pc with
  | .deref (.header p) | .deref (.slow p) | .tryLock (.header p) => p.accesses
  | .deref (.owner _ c) | .tryLock (.actual c) | .tryLock (.owner _ c)
  | .tryLock (.runCounter _ c) => [(c.owner, .objWriteSet)]
  | .deref (.version _ _ thId) => [(thId, .writerVersion)]
  | .tryLock (.sendLoad thId) | .tryLock (.sendStore thId _) => [(thId, .isSync)]
  | .sync _ (.initCounter u) | .sync _ (.waitCounter _ u) => [(u, .runCounter)]
  | .sync _ (.waitVersion _ u) => [(u, .localVersion)]
  | .sync _ (.check ctr i) =>
    match s.hdr ((s.thread t).entry ctr i).pObjActual with
    | .copy c => [(c.owner, .objWriteSet)]
    | _ => []
  | _ => []

def Ptr.Avoids (t : Nat) (p : Ptr) : Prop := ∀ c, p = .copy c → c.owner ≠ t

/-- Between two calls, or before the first. -/
def Pc.betweenCalls : Pc → Prop
  | .init => True
  | pc => pc.outsideLibrary

/-! ### A step depends on another thread through these fields only -/

section Frame
variable {cfg : Config} {s : State ω} {t u : Nat} {th' : Thread ω} {n : Nat}

def State.withOther (s : State ω) (u : Nat) (th : Thread ω) (n : Nat) : State ω :=
  { s with
    thread := Function.update s.thread u th
    isSync := Function.update s.isSync u n }

theorem State.withOther_thread (ne : t ≠ u) : (s.withOther u th' n).thread t = s.thread t :=
  Function.update_of_ne ne _ _

theorem State.withOther_isSync (ne : t ≠ u) : (s.withOther u th' n).isSync t = s.isSync t :=
  Function.update_of_ne ne _ _

theorem State.withOther_wsObj {c : CopyAddr} (ne : c.owner ≠ u) :
    (s.withOther u th' n).wsObj c = s.wsObj c := by
  rw [State.wsObj, State.withOther_thread ne]
  rfl

theorem State.withOther_getCopy {p : Ptr} (away : ∀ f, (u, f) ∉ p.accesses) :
    (s.withOther u th' n).getCopy p = s.getCopy p := by
  cases p with
  | copy c =>
    have ne : c.owner ≠ u := fun e => away .objWriteSet (by rw [Ptr.accesses, e]; exact List.mem_cons_self)
    show ((s.withOther u th' n).wsObj c).pObjCopy = _
    rw [State.withOther_wsObj ne]
    rfl
  | _ => rfl

/-- What a step does is the same whatever stands in the fields it does not access. -/
theorem libStep_frame (ne : t ≠ u) (away : ∀ f, (u, f) ∉ s.accesses t) :
    libStep cfg (s.withOther u th' n) t (s.thread t) (s.thread t).pc =
      libStep cfg s t (s.thread t) (s.thread t).pc := by
  unfold State.accesses at away
  have only {v : Nat} {f : Field} (away : ∀ f', (u, f') ∉ [(v, f)]) : v ≠ u := fun e =>
    away f (by rw [e]; exact List.mem_cons_self)
  cases hpc : (s.thread t).pc with
  | syncCheckpoint k =>
    simp only [libStep, State.withOther_isSync ne]
  | deref q =>
    rw [hpc] at away
    cases q with
    | header p | slow p => simp only [libStep, derefStep, State.withOther_getCopy away]
    | owner p c => simp only [libStep, derefStep, State.withOther_wsObj (only away)]
    | version p c thId => simp only [libStep, derefStep, State.withOther_thread (only away)]
  | tryLock q =>
    rw [hpc] at away
    cases q with
    | header p =>
      cases p with
      | copy c => simp only [libStep, tryLockStep, State.withOther_wsObj (only away)]
      | _ => rfl
    | actual c | owner o c | runCounter o c =>
      simp only [libStep, tryLockStep, State.withOther_wsObj (only away)]
    | sendLoad thId => simp only [libStep, tryLockStep, State.withOther_isSync (only away)]
    | syncLoad => simp only [libStep, tryLockStep, State.withOther_isSync ne]
    | _ => rfl
  | sync k q =>
    rw [hpc] at away
    cases q with
    | initCounter v | waitCounter n v | waitVersion n v =>
      simp only [libStep, syncStep, State.withOther_thread (only away)]
    | loadSync => simp only [libStep, syncStep, State.withOther_isSync ne]
    | check ctr i =>
      show some (syncStep cfg (s.withOther u th' n) t (s.thread t) k (.check ctr i)) =
        some (syncStep cfg s t (s.thread t) k (.check ctr i))
      have hdr : (s.withOther u th' n).hdr = s.hdr := rfl
      simp only [syncStep, hdr]
      cases held : s.hdr (((s.thread t).objWriteSet (wsIndex ctr)).buffer i).pObjActual with
      | copy c =>
        have held' : s.hdr ((s.thread t).entry ctr i).pObjActual = .copy c := held
        simp only [held'] at away
        simp only [State.withOther_wsObj (only away)]
      | null | ptrIdObjCopy => rfl
    | _ => rfl
  | _ => rfl

end Frame

/-! ### After the end of a thread -/

section Gone
variable {cfg : Config} {s s' : State ω} {x u : Nat} {a : Act ω} {e : Effect ω}

/-- Thread `x` has finished: it stays so, and no header points into its log. -/
structure State.Gone (s : State ω) (x : Nat) : Prop where
  finished : (s.thread x).pc = .finished
  there : x < s.gCurThreads
  even : (s.thread x).runCounter % 2 = 0
  drained : (s.thread x).wsHeadCounter = (s.thread x).wsTailCounter
  unlocked : ∀ o c, s.hdr o = .copy c → c.owner ≠ x

theorem State.Gone.of_finished [Inhabited ω] (wf : WellFormed cfg s) (fresh : s.Fresh) (locks : LocksOf x s)
    (drains : (s.thread x).Drains) (finished : (s.thread x).pc = .finished) : s.Gone x := by
  have control := (wf.threads x).control
  rw [finished] at control
  have empty := drains.again (.inr finished)
  refine ⟨finished, ?_, control.1, (drains.head (.inr finished)).trans empty, fun o c held mine => ?_⟩
  · by_contra beyond
    rw [fresh x (Nat.le_of_not_lt beyond)] at finished
    cases finished
  · obtain ⟨ctr, live, -⟩ := locks.logged o c held mine
    have ge := (wf.threads x).live_ge live
    rcases live.2 with ⟨lt, -⟩ | ⟨-, -, active⟩
    · omega
    · rw [finished] at active
      exact active trivial

theorem ActEffect.not_finished (act : ActEffect cfg s a u e) : (s.thread u).pc ≠ .finished := by
  intro finished
  rcases act with ⟨op, -, called⟩ | ⟨-, stepped⟩
  · rw [finished] at called
    cases called
  · rw [finished] at stepped
    cases stepped

theorem step_finished [Inhabited ω] (fresh : s.Fresh) (finished : (s.thread x).pc = .finished)
    (hs : step cfg s a = some s') : (s'.thread x).pc = .finished := by
  rcases step_cases hs with ⟨-, rfl⟩ | ⟨t, e, -, act, rfl⟩
  · rw [fresh.threadInit]
    exact finished
  · rw [State.apply_thread]
    by_cases own : x = t
    · subst own
      exact absurd finished act.not_finished
    · rw [Function.update_of_ne own]
      exact finished

/-- A section that runs on was given no copy of a thread that has finished. -/
theorem Lending.avoids (lending : Lending s) (gone : s.Gone x)
    (odd : (s.thread u).runCounter % 2 = 1) (ne : u ≠ x) {p : Ptr} (held : p.Held u (s.thread u)) :
    p.Avoids x := by
  rintro c rfl rfl
  obtain ⟨d, mem, result⟩ := held c rfl (Ne.symm ne)
  obtain ⟨ctr, ge, lt, -⟩ := lending.kept u odd d mem c result (Ne.symm ne)
  have := gone.drained
  omega

/-- What a call of thread `u` that began after the end of thread `x` may look at. -/
def AwayFrom (s : State ω) (x u : Nat) : Pc → Prop
  | .deref (.owner _ c) | .deref (.version _ c _) | .tryLock (.actual c)
  | .tryLock (.runCounter _ c) => c.owner ≠ x
  | .tryLock (.header p) => p.Avoids x
  | .tryLock (.owner _ c) => c.owner ≠ x ∧ (s.wsObj c).threadId = c.owner
  | .tryLock (.sendLoad thId) | .tryLock (.sendStore thId _) => thId ≠ x
  | .sync _ (.initLoop v) | .sync _ (.initCounter v) =>
    x < v → ((s.thread u).qThreads x).isWait = false
  | .sync _ (.initThread v) => x ≤ v → ((s.thread u).qThreads x).isWait = false
  | .sync _ .waitStart | .sync _ (.waitLoop _ _) => ((s.thread u).qThreads x).isWait = false
  | .sync _ (.waitCounter _ v) | .sync _ (.waitVersion _ v) =>
    ((s.thread u).qThreads x).isWait = false ∧ ((s.thread u).qThreads v).isWait = true
  | _ => True

theorem Ptr.Avoids.not_mem {p : Ptr} (avoids : p.Avoids x) (f : Field) : (x, f) ∉ p.accesses := by
  intro mem
  cases p with
  | copy c =>
    simp only [Ptr.accesses, List.mem_singleton, Prod.mk.injEq] at mem
    exact avoids c rfl mem.1.symm
  | _ => cases mem

/-- What such a call looks at: nothing but the `run_counter`, in `rlu_init_quiescence`. -/
theorem AwayFrom.accesses [Inhabited ω] (wf : WellFormed cfg s) (lending : Lending s)
    (gone : s.Gone x) (ne : u ≠ x) (away : AwayFrom s x u (s.thread u).pc) {f : Field}
    (mem : (x, f) ∈ s.accesses u) :
    f = .runCounter ∧ ∃ k, (s.thread u).pc = .sync k (.initCounter x) := by
  have not {b : Prop} {v : Nat} {f' : Field} (other : v ≠ x) (mem : (x, f) ∈ [(v, f')]) : b := by
    simp only [List.mem_singleton, Prod.mk.injEq] at mem
    exact absurd mem.1.symm other
  have holds := lending.holds u
  have control := (wf.threads u).control
  unfold State.accesses at mem
  cases hpc : (s.thread u).pc with
  | deref q =>
    rw [hpc] at mem away holds control
    cases q with
    | header p | slow p => exact absurd mem ((lending.avoids gone control.1 ne holds).not_mem f)
    | owner p c => exact not away mem
    | version p c thId => exact not (holds.2.1 ▸ away) mem
  | tryLock q =>
    rw [hpc] at mem away
    cases q with
    | header p => exact absurd mem (away.not_mem f)
    | actual c | runCounter o c | sendLoad thId | sendStore thId v => exact not away mem
    | owner o c => exact not away.1 mem
    | _ => cases mem
  | sync k q =>
    rw [hpc] at mem away
    cases q with
    | initCounter v =>
      simp only [List.mem_singleton, Prod.mk.injEq] at mem
      obtain ⟨rfl, rfl⟩ := mem
      exact ⟨rfl, k, rfl⟩
    | waitCounter n v | waitVersion n v =>
      refine not ?_ mem
      rintro rfl
      exact Bool.false_ne_true (away.1.symm.trans away.2)
    | check ctr i =>
      dsimp only at mem
      split at mem
      · rename_i c held
        exact not (gone.unlocked _ c held) mem
      · cases mem
    | _ => cases mem
  | _ =>
    rw [hpc] at mem
    cases mem

theorem derefStep_away {q q' : DerefPc} (gone : s.Gone x) (owners : Owners s)
    (away : AwayFrom s x u (.deref q))
    (next : (derefStep s u (s.thread u) q).1.pc = .deref q') : AwayFrom s x u (.deref q') := by
  have beyond {b : Prop} {p r : Ptr} (e : (derefReturn (s.thread u) p r).1.pc = .deref q') : b := by
    cases e
  cases q with
  | header p =>
    simp only [derefStep] at next
    split_ifs at next
    · exact beyond next
    · cases next
      trivial
  | slow p =>
    simp only [derefStep] at next
    split at next
    · exact beyond next
    · exact beyond next
    · rename_i c held
      cases next
      cases p with
      | null => cases held
      | copy c' => exact absurd held (owners.unchained c' c)
      | actual o => exact gone.unlocked o c held
  | owner p c =>
    simp only [derefStep] at next
    split_ifs at next
    · exact beyond next
    · cases next
      exact away
    · exact beyond next
  | version p c thId =>
    simp only [derefStep] at next
    (repeat' split at next) <;> exact beyond next

theorem tryLockStep_away {q q' : TryLockPc} (gone : s.Gone x) (owners : Owners s)
    (away : AwayFrom s x u (.tryLock q))
    (next : (tryLockStep cfg s u (s.thread u) q).1.pc = .tryLock q') :
    AwayFrom s x u (.tryLock q') := by
  cases q with
  | header p =>
    cases p with
    | null => cases next
    | copy c =>
      simp only [tryLockStep] at next
      split_ifs at next <;> cases next
      exact away c rfl
    | actual o =>
      simp only [tryLockStep, tryLockFree] at next
      split at next
      · split_ifs at next <;> cases next <;> trivial
      · cases next
      · rename_i c held
        cases next
        exact ⟨gone.unlocked o c held, owners.named o c held⟩
  | actual c =>
    cases next
    rintro _ ⟨⟩
  | owner o c =>
    simp only [tryLockStep] at next
    split_ifs at next <;> cases next
    · exact away.1
    · exact away.2 ▸ away.1
  | sendLoad thId =>
    cases next
    exact away
  | runCounter o c =>
    simp only [tryLockStep, tryLockReturn] at next
    split_ifs at next <;> cases next
    trivial
  | syncStore | storeActual | cas | copy | check =>
    simp only [tryLockStep, tryLockFail, tryLockReturn] at next
    (repeat' split at next) <;> cases next <;> trivial
  | _ =>
    cases next
    trivial

/-- The scan does not wait for a thread that has finished. -/
theorem syncStep_away {k : Caller} {q : SyncPc} (gone : s.Gone x)
    (away : AwayFrom s x u (.sync k q)) {s' : State ω}
    (self : s'.thread u = (syncStep cfg s u (s.thread u) k q).1) :
    AwayFrom s' x u (syncStep cfg s u (s.thread u) k q).1.pc := by
  have after {th' : Thread ω} : AwayFrom s' x u (afterSync th' k).1.pc := by
    cases k with
    | commit =>
      simp only [afterSync]
      split_ifs <;> trivial
    | _ => trivial
  have other {v : Nat} (w : WaitEntry) (ne : x ≠ v) :
      Function.update (s.thread u).qThreads v w x = (s.thread u).qThreads x :=
    Function.update_of_ne ne _ _
  have released {n v : Nat} (away : ((s.thread u).qThreads x).isWait = false)
      (self : s'.thread u = { s.thread u with
        qThreads := Function.update (s.thread u).qThreads v
          { (s.thread u).qThreads v with isWait := false }
        pc := .sync k (.waitLoop n (v + 1)) }) : ((s'.thread u).qThreads x).isWait = false := by
    rw [self]
    show (Function.update (s.thread u).qThreads v _ x).isWait = false
    by_cases eq : x = v
    · rw [eq, Function.update_self]
    · rw [other _ eq]
      exact away
  cases q with
  | start =>
    simp only [syncStep]
    split_ifs
    · exact after
    · trivial
    · trivial
  | fetchAdd => exact fun before => absurd before (Nat.not_lt_zero x)
  | initLoop v =>
    -- the entry of `v` is cleared first
    have cleared (le : x < v + 1) : (Function.update (s.thread u).qThreads v
        { (s.thread u).qThreads v with isWait := false } x).isWait = false := by
      by_cases eq : x = v
      · rw [eq, Function.update_self]
      · rw [other _ eq]
        exact away (by omega)
    simp only [syncStep] at self ⊢
    split_ifs at self ⊢ with more valid own
    · show x < v + 1 → _
      rw [self]
      exact cleared
    · show x ≤ v → _
      rw [self]
      exact fun le => cleared (Nat.lt_succ_of_le le)
    · trivial
    · show ((s'.thread u).qThreads x).isWait = false
      rw [self]
      exact away (Nat.lt_of_lt_of_le gone.there (Nat.le_of_not_lt more))
  | initThread v =>
    simp only [syncStep] at self ⊢
    split_ifs at self ⊢
    · show x < v → _
      rw [self]
      exact fun lt => away (Nat.le_of_lt lt)
    · show x < v + 1 → _
      rw [self]
      exact fun lt => away (Nat.le_of_lt_succ lt)
  | initCounter v =>
    show x < v + 1 → _
    rw [self]
    intro le
    show (Function.update (s.thread u).qThreads v _ x).isWait = false
    by_cases eq : x = v
    · subst eq
      rw [Function.update_self]
      simp [gone.even]
    · rw [other _ eq]
      exact away (by omega)
  | waitStart =>
    show ((s'.thread u).qThreads x).isWait = false
    rw [self]
    exact away
  | waitLoop n v =>
    simp only [syncStep] at self ⊢
    split_ifs at self ⊢ with more valid waits
    · show ((s'.thread u).qThreads x).isWait = false ∧ ((s'.thread u).qThreads v).isWait = true
      rw [self]
      exact ⟨away, waits⟩
    · show ((s'.thread u).qThreads x).isWait = false
      rw [self]
      exact away
    · trivial
    · trivial
  | waitCounter n v =>
    simp only [syncStep] at self ⊢
    split_ifs at self ⊢
    · exact released away.1 self
    · show ((s'.thread u).qThreads x).isWait = false ∧ ((s'.thread u).qThreads v).isWait = true
      rw [self]
      exact away
  | waitVersion n v =>
    have waits (self : s'.thread u = { s.thread u with pc := .sync k (.waitLoop n v) }) :
        ((s'.thread u).qThreads x).isWait = false := by
      rw [self]
      exact away.1
    simp only [syncStep] at self ⊢
    split at self
    · split_ifs at self ⊢
      · exact released away.1 self
      · exact waits self
    · exact waits self
  | freeCheck i =>
    simp only [syncStep]
    split
    · split_ifs <;> trivial
    · exact after
  | check ctr i | free i =>
    simp only [syncStep]
    (repeat' split) <;> trivial
  | entry ctr i | copy ctr i w | loadSync =>
    simp only [syncStep]
    split_ifs <;> trivial
  | _ => trivial

theorem AwayFrom.mono {s' : State ω} {pc : Pc} (away : AwayFrom s x u pc)
    (named : ∀ c, (s.wsObj c).threadId = c.owner → (s'.wsObj c).threadId = c.owner)
    (entries : ∀ k q, pc = .sync k q → (s'.thread u).qThreads = (s.thread u).qThreads) :
    AwayFrom s' x u pc := by
  cases pc with
  | tryLock q =>
    cases q with
    | owner o c => exact ⟨away.1, named c away.2⟩
    | _ => exact away
  | deref q => cases q <;> exact away
  | sync k q =>
    have same := entries k q rfl
    cases q <;> simp only [AwayFrom, same] at * <;> exact away
  | _ => exact away

theorem callInSection_locks {op : Op ω} {th : Thread ω}
    (called : callInSection cfg s u th op = some e) {q : TryLockPc} (hpc : e.1.pc = .tryLock q) :
    q = .header op.pointer := by
  cases op with
  | readerLock | checkpoint | finish => cases called
  | readerUnlock | abort =>
    obtain rfl := Option.some.inj called
    unfold rluUnregisterThread at hpc
    split_ifs at hpc <;> cases hpc
  | deref p | tryWriterLock l =>
    simp only [callInSection, ← apply_ite some, Option.some.injEq] at called
    subst called
    split_ifs at hpc <;> cases hpc
  | tryLock p | lock p =>
    simp only [callInSection, ← apply_ite some, Option.some.injEq] at called
    subst called
    split_ifs at hpc <;> cases hpc
    rfl
  | store c w x =>
    simp only [callInSection] at called
    split_ifs at called
    obtain rfl := Option.some.inj called
    cases hpc
  | free p =>
    obtain rfl := Option.some.inj called
    unfold rluFree at hpc
    split at hpc
    · cases hpc
    · dsimp only [Thread.go, Thread.fail] at hpc
      split_ifs at hpc
    · cases hpc

theorem actEffect_away [Inhabited ω] (wf : WellFormed cfg s) (owners : Owners s)
    (lending : Lending s) (gone : s.Gone x) (ne : u ≠ x) (passes : PassesHeld s a)
    (act : ActEffect cfg s a u e) (away : AwayFrom s x u (s.thread u).pc) :
    AwayFrom (s.apply u e.1 e.2) x u e.1.pc := by
  have flow := actEffect_flow act
  have named (c : CopyAddr) (name : (s.wsObj c).threadId = c.owner) :
      ((s.apply u e.1 e.2).wsObj c).threadId = c.owner := by
    rcases ((actEffect_hdr act).wsObj c).1 with mine | same
    · exact mine
    · exact same.trans name
  cases hpc : e.1.pc with
  | deref q' =>
    rw [hpc] at flow
    rcases Pc.deref_of_nexts flow with inside | ⟨q, before⟩
    · rcases actEffect_starts act passes inside with ⟨-, starts⟩ | ⟨p, -, effect⟩
      · obtain ⟨p, -, rfl⟩ := starts q' hpc
        trivial
      · rw [effect] at hpc
        cases hpc
    · have stepped := (act.lib (by rw [before]; rfl)).2
      rw [before] at stepped away
      obtain rfl := Option.some.inj stepped
      exact (derefStep_away gone owners away hpc).mono named nofun
  | tryLock q' =>
    rw [hpc] at flow
    rcases Pc.tryLock_of_nexts flow with inside | ⟨q, before⟩
    · have control := (wf.threads u).control
      rw [inside] at control
      rcases act with ⟨op, rfl, called⟩ | ⟨-, stepped⟩
      · rw [inside] at called
        rw [callInSection_locks called hpc]
        exact lending.avoids gone control.1 ne passes
      · rw [inside] at stepped
        cases stepped
    · have stepped := (act.lib (by rw [before]; rfl)).2
      rw [before] at stepped away
      obtain rfl := Option.some.inj stepped
      exact (tryLockStep_away gone owners away hpc).mono named nofun
  | sync k' q' =>
    rcases actEffect_start act hpc with rfl | ⟨k, q, before⟩
    · trivial
    · obtain rfl := act.sync before
      rw [← hpc]
      rw [before] at away
      exact syncStep_away gone away (by rw [State.apply_thread, Function.update_self])
  | _ => trivial

theorem step_away [Inhabited ω] (wf : WellFormed cfg s) (fresh : s.Fresh) (owners : Owners s)
    (lending : Lending s) (gone : s.Gone x) (ne : u ≠ x) (passes : PassesHeld s a)
    (hs : step cfg s a = some s') (away : AwayFrom s x u (s.thread u).pc) :
    AwayFrom s' x u (s'.thread u).pc := by
  rcases step_cases hs with ⟨-, rfl⟩ | ⟨t, e, -, act, rfl⟩
  · rw [fresh.threadInit]
    exact away.mono (fun _ => id) fun _ _ _ => rfl
  · by_cases own : u = t
    · subst own
      rw [State.apply_thread, Function.update_self]
      exact actEffect_away wf owners lending gone ne passes act away
    · have same : (s.apply t e.1 e.2).thread u = s.thread u := by
        rw [State.apply_thread, Function.update_of_ne own]
      rw [same]
      refine away.mono (fun c name => ?_) fun _ _ _ => by rw [same]
      rcases ((actEffect_hdr act).wsObj c).1 with mine | kept
      · exact mine
      · exact kept.trans name

end Gone

/-! ### The life cycle -/

section Run
variable [Inhabited ω] {cfg : Config} {s s' : State ω} {x u : Nat}

/-- Aborts find their write sets, and calls get pointers that the section was given. -/
def Disciplined (s : State ω) (a : Act ω) : Prop := RightSlot s a ∧ PassesHeld s a

instance (s : State ω) (a : Act ω) : Decidable (Disciplined s a) :=
  inferInstanceAs (Decidable (_ ∧ _))

def Act.isThreadInit : Act ω → Bool
  | .threadInit => true
  | _ => false

theorem run_gCurThreads {as : List (Act ω)} (run : System.run (step cfg) s as = some s') :
    s'.gCurThreads = s.gCurThreads + as.countP Act.isThreadInit := by
  induction as generalizing s with
  | nil =>
    cases run
    rfl
  | cons a as ih =>
    obtain ⟨s₁, hs, rest⟩ := Option.bind_eq_some_iff.mp run
    rw [ih rest, List.countP_cons]
    rcases step_cases hs with ⟨rfl, rfl⟩ | ⟨t, e, -, act, rfl⟩
    · show s.gCurThreads + 1 + _ = _ + (_ + 1)
      omega
    · rw [State.apply_gCurThreads, if_neg]
      · rfl
      · rcases act with ⟨op, rfl, -⟩ | ⟨rfl, -⟩ <;> nofun

theorem reachable_gone (h : System.Reachable Init (step cfg) Disciplined s)
    (finished : (s.thread x).pc = .finished) : s.Gone x :=
  .of_finished (reachable_wellFormed (fun _ _ ok => ok.1) h) (reachable_fresh h)
    (reachable_locksOf (fun _ _ ok _ => ok.1) h) (reachable_drains (fun _ _ ok _ => ok.1) h) finished

/-- A later call of another thread looks at a thread that has finished for its `run_counter` only,
and depends on nothing else of it. -/
theorem finished_untouched (h : System.Reachable Init (step cfg) Disciplined s)
    (finished : (s.thread x).pc = .finished) (ne : u ≠ x) (between : (s.thread u).pc.betweenCalls)
    (run : System.Through (step cfg) Disciplined (fun _ => True) s s') :
    AwayFrom s' x u (s'.thread u).pc ∧ (s'.thread x).pc = .finished := by
  refine run.invariant h (fun s => AwayFrom s x u (s.thread u).pc ∧ (s.thread x).pc = .finished)
    ⟨?_, finished⟩ fun s a s' reached _ _ allowed hs ⟨away, finished⟩ => ?_
  · cases hpc : (s.thread u).pc with
    | init | idle | inSection | mustAbort | finished => trivial
    | _ =>
      rw [hpc] at between
      exact between.elim
  · have wf := reachable_wellFormed (fun _ _ ok => ok.1) reached
    have fresh := reachable_fresh reached
    exact ⟨step_away wf fresh (reachable_owners reached) (reachable_lending (fun _ _ ok => ok) reached)
      (reachable_gone reached finished) ne allowed.2 hs away, step_finished fresh finished hs⟩

/-- `uniq_id`s count the calls of `rlu_thread_init`, so the first `RLU_MAX_THREADS` of them are valid
indices; and a call that begins after the end of a thread looks at the structure of that thread only
for its `run_counter`, in `rlu_init_quiescence`, and does the same whatever else stands there. -/
theorem thread_life_cycle (cfg : Config) :
    (∀ (obj : Nat → Nat → ω) as s, System.run (step cfg) (State.init obj) as = some s →
      Act.thread s .threadInit = as.countP Act.isThreadInit) ∧
    ∀ (s s' : State ω) (x u : Nat), System.Reachable Init (step cfg) Disciplined s →
      (s.thread x).pc = .finished → u ≠ x → (s.thread u).pc.betweenCalls →
      System.Through (step cfg) Disciplined (fun _ => True) s s' →
      (∀ f, (x, f) ∈ s'.accesses u →
        f = .runCounter ∧ ∃ k, (s'.thread u).pc = .sync k (.initCounter x)) ∧
      ∀ th n, th.runCounter = (s'.thread x).runCounter →
        libStep cfg (s'.withOther x th n) u (s'.thread u) (s'.thread u).pc =
          libStep cfg s' u (s'.thread u) (s'.thread u).pc := by
  refine ⟨fun obj as s run => (run_gCurThreads run).trans (Nat.zero_add _),
    fun s s' x u h finished ne between run => ?_⟩
  have reached := run.reachable h
  obtain ⟨away, finished'⟩ := finished_untouched h finished ne between run
  have only {f : Field} (mem : (x, f) ∈ s'.accesses u) :=
    away.accesses (reachable_wellFormed (fun _ _ ok => ok.1) reached)
      (reachable_lending (fun _ _ ok => ok) reached) (reachable_gone reached finished') ne mem
  refine ⟨fun f mem => only mem, fun th n same => ?_⟩
  by_cases scan : ∃ k, (s'.thread u).pc = .sync k (.initCounter x)
  · obtain ⟨k, hpc⟩ := scan
    have other : (s'.withOther x th n).thread x = th := Function.update_self _ _ _
    rw [hpc]
    simp only [libStep, syncStep, other, same]
  · exact libStep_frame ne fun f mem => scan (only mem).2

end Run

def departRun : List (Act Nat) :=
  [.threadInit, .threadInit, .lib 0, .lib 1, .call 1 .finish, .lib 1, .lib 1]

def scanRun : List (Act Nat) :=
  [.call 0 .readerLock] ++ List.replicate 5 (.lib 0) ++ [.call 0 (.tryLock (.actual 0))] ++
  List.replicate 9 (.lib 0) ++ [.call 0 .readerUnlock] ++ List.replicate 8 (.lib 0)

theorem exists_scan : ∃ s s' : State Nat,
    System.Reachable Init (step oneWriteSet) Disciplined s ∧ (s.thread 1).pc = .finished ∧
    (s.thread 0).pc.betweenCalls ∧
    System.Through (step oneWriteSet) Disciplined (fun _ => True) s s' ∧
    (1, .runCounter) ∈ s'.accesses 0 := by
  have reached : ((System.run (System.guarded (step oneWriteSet) Disciplined)
      (State.init fun _ _ => 0) departRun).any fun s =>
        decide ((s.thread 1).pc.kind = .finished ∧ (s.thread 0).pc.kind = .idle) &&
        (System.run (System.guarded (step oneWriteSet) Disciplined) s scanRun).any fun s' =>
          decide ((1, .runCounter) ∈ s'.accesses 0)) = true := by
    decide +kernel
  simp only [Option.any_eq_true, Bool.and_eq_true, decide_eq_true_eq] at reached
  obtain ⟨s, ran, ⟨finished, idle⟩, s', ran', mem⟩ := reached
  have start : Init (State.init fun _ _ => (0 : Nat)) := ⟨_, rfl⟩
  refine ⟨s, s', System.Reachable.run (.start start) ran, Pc.eq_finished_of_kind finished, ?_,
    System.Through.run (.start trivial) ran', mem⟩
  rw [Pc.eq_idle_of_kind idle]
  trivial

theorem thread_life_cycle_scan : ∃ s s' : State Nat, (1, .runCounter) ∈ s'.accesses 0 ∧
    (∀ f, (1, f) ∈ s'.accesses 0 → f = .runCounter) ∧ (s.thread 1).pc = .finished := by
  obtain ⟨s, s', h, finished, between, run, mem⟩ := exists_scan
  exact ⟨s, s', mem, fun f mem =>
    (((thread_life_cycle oneWriteSet).2 s s' 1 0 h finished (by decide) between run).1 f mem).1,
    finished⟩

/-- Neither half of the property holds as it stands: the 129th `uniq_id` is out of range, and a sync
reads the `run_counter` of a thread that has finished. -/
theorem thread_life_cycle_reads :
    (¬ ∀ as (s : State Nat), System.run (step oneWriteSet) (State.init fun _ _ => 0) as = some s →
      Act.thread s .threadInit < rluMaxThreads) ∧
    ¬ ∀ (s s' : State Nat) (x u : Nat), System.Reachable Init (step oneWriteSet) Disciplined s →
      (s.thread x).pc = .finished → u ≠ x → (s.thread u).pc.betweenCalls →
      System.Through (step oneWriteSet) Disciplined (fun _ => True) s s' →
      ∀ f, (x, f) ∉ s'.accesses u := by
  constructor
  · intro claim
    have reached : ((System.run (step oneWriteSet) (State.init fun _ _ => 0)
        (List.replicate 128 .threadInit)).any fun s =>
          decide (¬ Act.thread s .threadInit < rluMaxThreads)) = true := by
      decide +kernel
    simp only [Option.any_eq_true, decide_eq_true_eq] at reached
    obtain ⟨s, ran, beyond⟩ := reached
    exact beyond (claim _ s ran)
  · intro claim
    obtain ⟨s, s', h, finished, between, run, mem⟩ := exists_scan
    exact claim s s' 1 0 h finished (by decide) between run _ mem

end ReadLogUpdate
