import ReadLogUpdate.Rlu.Drain
import ReadLogUpdate.Rlu.Overflow

/-!
# Sync requests

A thread that finds an object locked asks the owner for a sync. The request stays until the
owner's sync has written the entry back: the flag is cleared after the write-back only.
-/

namespace ReadLogUpdate

variable {ω : Type}

/-- Inside a sync for `k`, or stuck in it. -/
def Pc.within (k : Caller) (pc : Pc) : Prop := pc.kind = .sync k ∨ pc.stuck = true

section Record
variable {cfg : Config} {s : State ω} {t : Nat} {th : Thread ω} {a : Act ω} {e : Effect ω}

/-- Between its write-back and its next section, a thread has no entry installed. -/
theorem LockInv.no_entry [Inhabited ω] (locks : LockInv s) (wf : WellFormed cfg s) {o : Nat}
    {c : CopyAddr} (held : s.hdr o = .copy c) {k : Caller} {q : SyncPc}
    (hpc : (s.thread c.owner).pc = .sync k q)
    (drained : (s.thread c.owner).wsWbCounter = (s.thread c.owner).wsTailCounter) : False := by
  obtain ⟨ctr, live, -⟩ := locks.logged o c held
  have ge := (wf.threads c.owner).live_ge live
  rcases live.2 with ⟨lt, -⟩ | ⟨-, -, active⟩
  · omega
  · rw [hpc] at active
    exact active trivial

theorem Pc.within_of_kind {k : Caller} {pc : Pc} (kind : pc.kind = .sync k ∨ pc.kind = .fault ∨
    ∃ line, pc.kind = .failed line) : pc.within k := by
  rcases kind with same | stopped
  · exact .inl same
  · refine .inr ?_
    cases pc with
    | failed | fault => rfl
    | _ => simp [Pc.kind] at stopped

/-- A thread with a write set pending stays in its sync. -/
theorem syncStep_within {k : Caller} {q : SyncPc} (h : ThreadOk cfg t th)
    (pending : th.wsWbCounter ≠ th.wsTailCounter)
    (drained : (Pc.sync k q).writtenBack = true → th.wsWbCounter = th.wsTailCounter) :
    (syncStep cfg s t th k q).1.pc.within k := by
  have flow : (syncStep cfg s t th k q).1.pc.kind ∈ (Pc.sync k q).nexts := syncStep_flow k q
  cases q with
  | start =>
    have apart : th.wsTailCounter ≠ th.wsHeadCounter := fun e =>
      pending (Nat.le_antisymm h.wb_le_tail (e ▸ h.head_le_wb))
    simp only [syncStep, if_neg apart]
    split_ifs
    · exact .inl rfl
    · exact .inr rfl
  | freeCheck i => exact absurd (drained rfl) pending
  | _ =>
    refine Pc.within_of_kind ?_
    simp only [Pc.nexts, List.mem_cons, List.not_mem_nil, or_false] at flow
    grind

end Record

/-! ### The request -/

def Write.clears : Write ω → Bool
  | .isSync _ 0 => true
  | _ => false

theorem ActEffect.clears {cfg : Config} {s : State ω} {t : Nat} {a : Act ω} {e : Effect ω}
    (act : ActEffect cfg s a t e) (clears : e.2.clears = true) :
    ∃ k, (s.thread t).pc = .sync k .storeSync := by
  have special : e.2.special = true := by
    unfold Write.clears at clears
    split at clears
    · rename_i write
      rw [write]
      rfl
    · cases clears
  rcases act.special special with hpc | hpc | ⟨k, ctr, i, w, hpc⟩
  · rcases act with ⟨op, -, called⟩ | ⟨-, stepped⟩
    · rw [call_write called] at special
      cases special
    · rw [hpc] at stepped
      obtain rfl := Option.some.inj stepped
      simp only [readerUnlockStep, afterSync] at clears
      split_ifs at clears <;> cases clears
  · exact hpc
  · rw [act.sync hpc] at clears
    simp only [syncStep] at clears
    split_ifs at clears <;> cases clears

section State
variable [Inhabited ω] {cfg : Config} {s s' : State ω} {o : Nat} {c : CopyAddr}

omit [Inhabited ω] in
theorem State.apply_isSync {u : Nat} (s : State ω) (t : Nat) (th : Thread ω) (w : Write ω) :
    (s.apply t th w).isSync u = s.isSync u ∨ ∃ n, w = .isSync u n ∧ (s.apply t th w).isSync u = n := by
  cases w with
  | isSync v n =>
    by_cases eq : u = v
    · subst eq
      exact .inr ⟨n, rfl, Function.update_self _ _ _⟩
    · exact .inl (Function.update_of_ne eq _ _)
  | _ => exact .inl rfl

/-- The owner of an installed entry does not clear its flag. -/
theorem step_isSync {a : Act ω} (wf : WellFormed cfg s) (locks : LockInv s)
    (drained : (s.thread c.owner).pc.writtenBack = true →
      (s.thread c.owner).wsWbCounter = (s.thread c.owner).wsTailCounter)
    (held : s.hdr o = .copy c) (hs : step cfg s a = some s') (asked : s.isSync c.owner ≠ 0) :
    s'.isSync c.owner ≠ 0 := by
  rcases step_cases hs with ⟨-, rfl⟩ | ⟨t, e, -, act, rfl⟩
  · exact asked
  rcases s.apply_isSync t e.1 e.2 with same | ⟨n, write, value⟩
  · rw [same]
    exact asked
  rw [value]
  rintro rfl
  obtain ⟨k, hpc⟩ := act.clears (by rw [write]; rfl)
  obtain rfl : t = c.owner := by
    have := act.sync hpc
    rw [this] at write
    exact (Write.isSync.inj write).1
  exact locks.no_entry wf held hpc (drained (by rw [hpc]; rfl))

/-- The states in which the header of `o` points at the entry at `c`. -/
def State.Installed (o : Nat) (c : CopyAddr) (s : State ω) : Prop := s.hdr o = .copy c

theorem reachable_writtenBack (h : System.Reachable Init (step cfg) RightSlot s) (t : Nat) :
    (s.thread t).pc.writtenBack = true → (s.thread t).wsWbCounter = (s.thread t).wsTailCounter :=
  (reachable_drains (t := t) (fun _ _ right _ => right) h).back

theorem installed_isSync {s₁ s₂ : State ω} (h : System.Reachable Init (step cfg) RightSlot s₁)
    (asked : s₁.isSync c.owner ≠ 0)
    (still : System.Through (step cfg) RightSlot (State.Installed o c) s₁ s₂) :
    s₂.isSync c.owner ≠ 0 :=
  still.invariant h (fun s => s.isSync c.owner ≠ 0) asked fun _ _ _ reached held _ _ hs asked =>
    step_isSync (reachable_wellFormed (fun _ _ => id) reached)
      (reachable_lockInv (fun _ _ => id) reached)
      (reachable_writtenBack reached c.owner) held hs asked

/-- In its sync, the owner of an installed entry stays there. -/
theorem installed_within {s₁ s₂ : State ω} {k : Caller}
    (h : System.Reachable Init (step cfg) RightSlot s₁) (inside : (s₁.thread c.owner).pc.within k)
    (still : System.Through (step cfg) RightSlot (State.Installed o c) s₁ s₂) :
    (s₂.thread c.owner).pc.within k := by
  refine still.invariant h (fun s => (s.thread c.owner).pc.within k) inside
    fun s _ _ reached held _ _ hs inside => ?_
  have wf := reachable_wellFormed (fun _ _ => id) reached
  have locks := reachable_lockInv (fun _ _ => id) reached
  rcases step_cases hs with ⟨-, rfl⟩ | ⟨t, e, -, act, rfl⟩
  · rw [wf.threadInit]
    exact inside
  rw [State.apply_thread]
  by_cases own : c.owner = t
  · subst own
    rw [Function.update_self]
    rcases inside with sync | stuck
    · obtain ⟨q, hpc⟩ : ∃ q, (s.thread c.owner).pc = .sync k q := by
        cases pc : (s.thread c.owner).pc with
        | sync k' q =>
          rw [pc] at sync
          cases sync
          exact ⟨q, rfl⟩
        | _ =>
          rw [pc] at sync
          cases sync
      have drained := reachable_writtenBack reached c.owner
      rw [hpc] at drained
      rw [act.sync hpc]
      exact syncStep_within (wf.threads _) (fun e => locks.no_entry wf held hpc e) drained
    · have flow := actEffect_flow act
      rw [Pc.nexts_of_stuck stuck] at flow
      cases flow
  · rw [Function.update_of_ne own]
    exact inside

/-- No sync request is lost. From where a thread has made its request to `W`, `is_sync` of `W` is
not zero as long as an entry of `W` stays installed, and a `rlu_reader_lock` of `W` that reads
the flag there does not register while the entry is installed. -/
theorem sync_request_kept (cfg : Config) (s s₁ s₂ : State ω)
    (h : System.Reachable Init (step cfg) RightSlot s) (T W v : Nat)
    (requests : (s.thread T).pc = .tryLock (.sendStore W v)) (requested : step cfg s (.lib T) = some s₁)
    (o : Nat) (c : CopyAddr) (owner : c.owner = W)
    (still : System.Through (step cfg) RightSlot (State.Installed o c) s₁ s₂) :
    s₂.isSync W ≠ 0 ∧
    ((s₂.thread W).pc = .syncCheckpoint .readerLock → ∀ s₃ s₄, step cfg s₂ (.lib W) = some s₃ →
      System.Through (step cfg) RightSlot (State.Installed o c) s₃ s₄ →
      (s₄.thread W).pc ≠ .readerLock .register) := by
  subst owner
  have right : RightSlot s (.lib T) := by
    intro start
    rw [requests] at start
    cases start
  have reached := h.step right requested
  have asked : s₁.isSync c.owner ≠ 0 := by
    rcases step_cases requested with ⟨e, -⟩ | ⟨t, e, -, act, rfl⟩
    · cases e
    rcases act with ⟨op, e, -⟩ | ⟨e, stepped⟩
    · cases e
    · cases e
      rw [requests] at stepped
      obtain rfl := Option.some.inj stepped
      show Function.update s.isSync c.owner (v + 1) c.owner ≠ 0
      rw [Function.update_self]
      exact Nat.succ_ne_zero v
  have kept := installed_isSync reached asked still
  refine ⟨kept, fun reads s₃ s₄ hs still' registers => ?_⟩
  have calm : RightSlot s₂ (.lib c.owner) := by
    intro start
    rw [reads] at start
    cases start
  have inside : (s₃.thread c.owner).pc.within .readerLock := by
    rcases step_cases hs with ⟨e, -⟩ | ⟨t, e, -, act, rfl⟩
    · cases e
    rcases act with ⟨op, e, -⟩ | ⟨e, stepped⟩
    · cases e
    · cases e
      rw [reads] at stepped
      simp only [libStep, if_neg kept, Option.some.injEq] at stepped
      subst stepped
      rw [State.apply_thread, Function.update_self]
      exact .inl rfl
  have within := installed_within ((still.reachable reached).step calm hs) inside still'
  rw [registers] at within
  rcases within with e | e <;> cases e

end State

def threeWriteSets : Config := ⟨.fineGrained, 3, 1, by decide, by decide, by intro h; cases h⟩

/-- Thread 1 asks for object 0, which is in a deferred write set of thread 0. -/
def requestRun : List (Act Nat) :=
  [.threadInit, .threadInit, .lib 0, .lib 1, .call 0 .readerLock] ++ List.replicate 5 (.lib 0) ++
  [.call 0 (.tryLock (.actual 0))] ++ List.replicate 9 (.lib 0) ++ [.call 0 .readerUnlock] ++
  List.replicate 3 (.lib 0) ++ [.call 1 .readerLock] ++ List.replicate 5 (.lib 1) ++
  [.call 1 (.tryLock (.actual 0))] ++ List.replicate 3 (.lib 1)

def Pc.sending : Pc → Option (Nat × Nat)
  | .tryLock (.sendStore thId v) => some (thId, v)
  | _ => none

theorem Pc.eq_of_sending {pc : Pc} {thId v : Nat} (h : pc.sending = some (thId, v)) :
    pc = .tryLock (.sendStore thId v) := by
  unfold Pc.sending at h
  split at h
  · cases h
    rfl
  · cases h

theorem Pc.eq_syncCheckpoint_of_kind {pc : Pc} {k : Caller} (h : pc.kind = .syncCheckpoint k) :
    pc = .syncCheckpoint k := by
  cases pc with
  | syncCheckpoint k' =>
    cases h
    rfl
  | _ => cases h

instance (o : Nat) (c : CopyAddr) (s : State ω) : Decidable (State.Installed o c s) :=
  inferInstanceAs (Decidable (s.hdr o = .copy c))

/-- The next section of thread 0 finds the request, and starts with a sync. -/
theorem sync_request_kept_running : ∃ s s₁ s₂ s₃ s₄ : State Nat,
    System.Reachable Init (step threeWriteSets) RightSlot s ∧ step threeWriteSets s (.lib 1) = some s₁ ∧
    (s₂.thread 0).pc = .syncCheckpoint .readerLock ∧ s₂.isSync 0 ≠ 0 ∧
    step threeWriteSets s₂ (.lib 0) = some s₃ ∧ (s₄.thread 0).pc.kind = .sync .readerLock ∧
    (s₄.thread 0).pc ≠ .readerLock .register := by
  have reached : ((System.run (System.guarded (step threeWriteSets) RightSlot)
      (State.init fun _ _ => 0) requestRun).any fun s =>
        decide ((s.thread 1).pc.sending = some (0, 0)) && (step threeWriteSets s (.lib 1)).any fun s₁ =>
        decide (State.Installed 0 ⟨0, 0, 0⟩ s₁) &&
        (System.run (System.keeping (System.guarded (step threeWriteSets) RightSlot)
          (State.Installed 0 ⟨0, 0, 0⟩)) s₁ [.call 0 .readerLock]).any fun s₂ =>
        decide ((s₂.thread 0).pc.kind = .syncCheckpoint .readerLock) &&
        (step threeWriteSets s₂ (.lib 0)).any fun s₃ => decide (State.Installed 0 ⟨0, 0, 0⟩ s₃) &&
        (System.run (System.keeping (System.guarded (step threeWriteSets) RightSlot)
          (State.Installed 0 ⟨0, 0, 0⟩)) s₃ (List.replicate 6 (.lib 0))).any fun s₄ =>
        decide ((s₄.thread 0).pc.kind = .sync .readerLock)) = true := by
    decide +kernel
  simp only [Option.any_eq_true, Bool.and_eq_true, decide_eq_true_eq] at reached
  obtain ⟨s, ran, sending, s₁, requested, held, s₂, ran', reads, s₃, hs, held', s₄, ran'', syncs⟩ :=
    reached
  have start : Init (State.init fun _ _ => (0 : Nat)) := ⟨_, rfl⟩
  have h : System.Reachable Init (step threeWriteSets) RightSlot s := System.Reachable.run (.start start) ran
  have still := System.Through.run_keeping (.start held) ran'
  have still' := System.Through.run_keeping (.start held') ran''
  have reads := Pc.eq_syncCheckpoint_of_kind reads
  obtain ⟨kept, apart⟩ := sync_request_kept threeWriteSets s s₁ s₂ h 1 0 0 (Pc.eq_of_sending sending)
    requested 0 ⟨0, 0, 0⟩ rfl still
  exact ⟨s, s₁, s₂, s₃, s₄, h, requested, reads, kept, hs, syncs, apart reads s₃ s₄ hs still'⟩

/-! ### The flag of a thread whose abort missed its lock -/

section Pair
variable {g : State ω} {th th₀ th₁ : Thread ω} {w : Write ω}

def State.pair (g : State ω) (th₀ th₁ : Thread ω) : State ω :=
  (g.withThread 0 th₀).withThread 1 th₁

theorem State.pair_comm : g.pair th₀ th₁ = (g.withThread 1 th₁).withThread 0 th₀ := by
  unfold State.pair State.withThread
  congr 1
  exact Function.update_comm (by decide) _ _ _

@[simp] theorem State.pair_thread_zero : (g.pair th₀ th₁).thread 0 = th₀ := by
  rw [State.pair_comm, State.withThread_thread]

@[simp] theorem State.pair_thread_one : (g.pair th₀ th₁).thread 1 = th₁ := by
  rw [State.pair, State.withThread_thread]

theorem State.write_comm {t u : Nat} : (g.withThread u th₀).write t th w =
    (g.write t th w).withThread u th₀ := by
  cases w <;> rfl

/-- A run of two threads, while the header of object 0 stays at `c`. -/
structure Meets [Inhabited ω] (c : CopyAddr) (s₁ : State ω) (g : State ω) (th₀ th₁ : Thread ω) :
    Prop where
  run : System.Through (step oneWriteSet) (fun _ _ => True) (State.Installed 0 c) s₁ (g.pair th₀ th₁)
  two : g.gCurThreads = 2

theorem State.write_two (two : g.gCurThreads = 2) (t : Nat) (th : Thread ω) (w : Write ω) :
    (g.write t th w).gCurThreads = 2 := by
  rw [State.write_gCurThreads, two]

variable [Inhabited ω] {c : CopyAddr} {s₁ : State ω}

theorem Meets.lib_zero (h : Meets c s₁ g th₀ th₁) (th : Thread ω) (w : Write ω)
    (stepped : libStep oneWriteSet (g.pair th₀ th₁) 0 th₀ th₀.pc = some (th, w))
    (held : (g.write 0 th w).hdr 0 = .copy c) : Meets c s₁ (g.write 0 th w) th th₁ := by
  refine ⟨h.run.step (a := .lib 0) trivial ?_ held, State.write_two h.two ..⟩
  have lt : 0 < (g.pair th₀ th₁).gCurThreads := by
    show 0 < g.gCurThreads
    rw [h.two]
    decide
  simp only [step, if_pos lt, State.pair_thread_zero, stepped, Option.map_some]
  rw [State.pair_comm, State.write_withThread, State.write_comm, ← State.pair_comm]

theorem step_pair_one (two : g.gCurThreads = 2)
    (stepped : libStep oneWriteSet (g.pair th₀ th₁) 1 th₁ th₁.pc = some (th, w)) :
    step oneWriteSet (g.pair th₀ th₁) (.lib 1) = some ((g.write 1 th w).pair th₀ th) := by
  have lt : 1 < (g.pair th₀ th₁).gCurThreads := by
    show 1 < g.gCurThreads
    rw [two]
    decide
  simp only [step, if_pos lt, State.pair_thread_one, stepped, Option.map_some]
  rw [State.pair, State.write_withThread, State.write_comm]
  rfl

theorem Meets.lib_one (h : Meets c s₁ g th₀ th₁) (th : Thread ω) (w : Write ω)
    (stepped : libStep oneWriteSet (g.pair th₀ th₁) 1 th₁ th₁.pc = some (th, w))
    (held : (g.write 1 th w).hdr 0 = .copy c) : Meets c s₁ (g.write 1 th w) th₀ th :=
  ⟨h.run.step (a := .lib 1) trivial (step_pair_one h.two stepped) held, State.write_two h.two ..⟩

theorem Meets.call_zero (h : Meets c s₁ g th₀ th₁) (op : Op ω) (th : Thread ω)
    (called : call oneWriteSet (g.pair th₀ th₁) 0 th₀ op th₀.pc = some (th, .none)) :
    Meets c s₁ g th th₁ := by
  refine ⟨h.run.step (a := .call 0 op) trivial ?_ h.run.last, h.two⟩
  have lt : 0 < (g.pair th₀ th₁).gCurThreads := by
    show 0 < g.gCurThreads
    rw [h.two]
    decide
  simp only [step, if_pos lt, State.pair_thread_zero, called, Option.map_some]
  rw [State.pair_comm, State.write_withThread, State.write_comm, ← State.pair_comm]
  rfl

theorem Meets.call_one (h : Meets c s₁ g th₀ th₁) (op : Op ω) (th : Thread ω)
    (called : call oneWriteSet (g.pair th₀ th₁) 1 th₁ op th₁.pc = some (th, .none)) :
    Meets c s₁ g th₀ th := by
  refine ⟨h.run.step (a := .call 1 op) trivial ?_ h.run.last, h.two⟩
  have lt : 1 < (g.pair th₀ th₁).gCurThreads := by
    show 1 < g.gCurThreads
    rw [h.two]
    decide
  simp only [step, if_pos lt, State.pair_thread_one, called, Option.map_some]
  rw [State.pair, State.write_withThread, State.write_comm]
  rfl

theorem Missed.meets {init : Nat → Nat → ω} (missed : Missed init g th) :
    Meets ⟨0, 96, 0⟩ (g.withThread 0 th) { g with gCurThreads := 2 } th Thread.init := by
  have one : g.gCurThreads = 1 := missed.lone.one
  have start : System.Through (step oneWriteSet) (fun _ _ => True)
      (State.Installed 0 ⟨0, 96, 0⟩) (g.withThread 0 th) (g.withThread 0 th) := .start missed.held
  refine ⟨start.step (a := .threadInit) trivial ?_ missed.held, rfl⟩
  simp only [step, State.withThread_gCurThreads, one]
  rfl

def visitor (g : State ω) (pc : Pc) : Thread ω :=
  { (Thread.init : Thread ω) with
    isSteal := g.gWriterVersion != g.gCommitVersion
    isCheckLocks := !(g.gWriterVersion == g.gCommitVersion && true)
    runCounter := 1
    localVersion := g.gWriterVersion
    localCommitVersion := g.gCommitVersion
    pc := pc }

theorem Meets.visit (h : Meets c s₁ g th₀ Thread.init) (held : g.hdr 0 = .copy c) :
    Meets c s₁ { g with gThreads := Function.update g.gThreads 1 true } th₀
      (visitor g .inSection) := by
  have idle := h.lib_one (Thread.init.atPc .idle) .register rfl held
  have checks := idle.call_one .readerLock (Thread.init.atPc (.syncCheckpoint .readerLock)) rfl
  have locking : Meets c s₁ { g with gThreads := Function.update g.gThreads 1 true } th₀
      ({ (Thread.init : Thread ω) with isSteal := true, isCheckLocks := true }.atPc
        (.readerLock .register)) := by
    by_cases asked : g.isSync 1 = 0
    · exact checks.lib_one _ .none (if_pos asked) held
    · have syncs := checks.lib_one (Thread.init.atPc (.sync .readerLock .start)) .none
        (if_neg asked) held
      exact syncs.lib_one _ .none rfl held
  have loads := locking.lib_one _ .none rfl held
  have stores := loads.lib_one _ .none rfl held
  have commits := stores.lib_one _ .none rfl held
  exact commits.lib_one (visitor g .inSection) .none rfl held

omit [Inhabited ω] in
theorem tryLockStep_owner {cfg : Config} {s : State ω} {t o thId : Nat}
    (id : (s.wsObj c).threadId = thId) (ne : thId ≠ t) :
    tryLockStep cfg s t th (.owner o c) = th.go (.tryLock (.sendLoad thId)) := by
  simp only [tryLockStep, id, if_neg ne]

omit [Inhabited ω] in
theorem tryLockStep_held {cfg : Config} {s : State ω} {t o : Nat} {c : CopyAddr}
    (held : s.hdr o = .copy c) :
    tryLockStep cfg s t th (.header (.actual o)) = th.go (.tryLock (.owner o c)) := by
  simp only [tryLockStep, held]

/-- It finds object 0 locked by thread 0 and is about to ask for a sync. -/
theorem Meets.finds {pc : Pc} (h : Meets c s₁ g th₀ (visitor g pc)) (inside : pc = .inSection)
    (held : g.hdr 0 = .copy c) (owner : c.owner = 0)
    (id : ((th₀.objWriteSet c.slot).buffer c.idx).threadId = 0) :
    Meets c s₁ g th₀ (visitor g (.tryLock (.sendStore 0 (g.isSync 0)))) := by
  subst inside
  have entry : ((g.pair th₀ (visitor g (.tryLock (.owner 0 c)))).wsObj c).threadId = 0 := by
    rw [State.wsObj, owner, State.pair_thread_zero]
    exact id
  have tries := h.call_one (.tryLock (.actual 0)) (visitor g (.tryLock (.header (.actual 0)))) rfl
  have finds := tries.lib_one (visitor g (.tryLock (.owner 0 c))) .none
    (congrArg some (tryLockStep_held held)) held
  have asks := finds.lib_one (visitor g (.tryLock (.sendLoad 0))) .none
    (congrArg some (tryLockStep_owner entry (by decide))) held
  exact asks.lib_one _ .none rfl held

theorem Meets.leaves {g' : State ω} (h : Meets c s₁ g th₀ (visitor g' (.tryLock .syncLoad)))
    (held : g.hdr 0 = .copy c) :
    Meets c s₁ { g with isSync := Function.update g.isSync 1 (g.isSync 1 + 1) } th₀
      { visitor g' (.abort .start) with runCounter := 2 } := by
  have loads := h.lib_one (visitor g' (.tryLock (.syncStore (g.isSync 1)))) .none rfl held
  have fails := loads.lib_one (visitor g' .mustAbort) (.isSync 1 (g.isSync 1 + 1)) rfl held
  exact fails.call_one .abort _ rfl

/-- The record of a thread in its sync, with version `v` drawn. -/
def Thread.syncing (th : Thread ω) (v : Nat) (q : Nat → WaitEntry) (pc : SyncPc) : Thread ω :=
  { th with
    wsNum := th.wsTailCounter - th.wsWbCounter
    writerVersion := some v
    flight := some v
    qThreads := q
    pc := .sync .checkpoint pc }

theorem Meets.draws (h : Meets c s₁ g th₀ th₁) (held : g.hdr 0 = .copy c) (idle : th₀.pc = .idle)
    (even : th₀.runCounter % 2 = 0) (head : th₀.wsTailCounter ≠ th₀.wsHeadCounter)
    (asked : g.isSync 0 ≠ 0) : ∃ g' v, Meets c s₁ g' (th₀.syncing v th₀.qThreads (.initLoop 0)) th₁ ∧
      g'.hdr = g.hdr ∧ g'.gThreads = g.gThreads ∧ g'.isSync = g.isSync := by
  have checks := h.call_zero .checkpoint (th₀.atPc (.syncCheckpoint .checkpoint)) (by
    rw [idle]
    rfl)
  have starts := checks.lib_zero (th₀.atPc (.sync .checkpoint .start)) .none (if_neg asked) held
  have counts := starts.lib_zero
    ({ th₀ with wsNum := th₀.wsTailCounter - th₀.wsWbCounter }.atPc (.sync .checkpoint .loadVersion))
    .none (by
      show some (if th₀.runCounter % 2 = 0 then (if th₀.wsTailCounter = th₀.wsHeadCounter then _
        else _) else _) = _
      rw [if_pos even, if_neg head]
      rfl) held
  have loads := counts.lib_zero _ .none rfl held
  have announces := loads.lib_zero _ .none rfl held
  exact ⟨_, _, announces.lib_zero (th₀.syncing (g.gWriterVersion + 1) th₀.qThreads (.initLoop 0))
    .addWriterVersion rfl held, rfl, rfl, rfl⟩

/-- The wait of a sync in which no thread is waited for. -/
theorem Meets.waited {v : Nat} {q : Nat → WaitEntry}
    (h : Meets c s₁ g (th₀.syncing v q (.initLoop 2)) th₁) (held : g.hdr 0 = .copy c)
    (first : (q 0).isWait = false) (second : (q 1).isWait = false) :
    Meets c s₁ g (th₀.syncing v q .reset) th₁ := by
  have two := h.two
  have ends := h.lib_zero (th₀.syncing v q .waitStart) .none (by
    show some (if 2 < g.gCurThreads then _ else _) = _
    rw [two]
    rfl) held
  have loops := ends.lib_zero (th₀.syncing v q (.waitLoop 2 0)) .none (by
    show some (Thread.go _ (.sync .checkpoint (.waitLoop g.gCurThreads 0))) = _
    rw [two]
    rfl) held
  have skips := loops.lib_zero (th₀.syncing v q (.waitLoop 2 1)) .none (by
    show some (if (q 0).isWait then _ else _) = _
    rw [first]
    rfl) held
  have ends := skips.lib_zero (th₀.syncing v q (.waitLoop 2 2)) .none (by
    show some (if (q 1).isWait then _ else _) = _
    rw [second]
    rfl) held
  exact ends.lib_zero _ .none rfl held

/-- It waits for no one, with the second thread outside its section. -/
theorem Meets.waits {v : Nat} {q : Nat → WaitEntry}
    (h : Meets c s₁ g (th₀.syncing v q (.initLoop 0)) th₁) (held : g.hdr 0 = .copy c)
    (registered : g.gThreads 1 = true) (outside : th₁.runCounter % 2 = 0) :
    ∃ q', Meets c s₁ g (th₀.syncing v q' .reset) th₁ := by
  have two := h.two
  have own := h.lib_zero (th₀.syncing v (Function.update q 0 { q 0 with isWait := false }) (.initLoop 1))
    .none (by
      show some (if 0 < g.gCurThreads then _ else _) = _
      rw [two]
      rfl) held
  have first : (Function.update q 0 { q 0 with isWait := false } 0).isWait = false := by
    rw [Function.update_self]
  generalize Function.update q 0 { q 0 with isWait := false } = q₁ at own first
  have other := own.lib_zero (th₀.syncing v (Function.update q₁ 1 { q₁ 1 with isWait := false })
    (.initThread 1)) .none (by
      show some (if 1 < g.gCurThreads then _ else _) = _
      rw [two]
      rfl) held
  have first : (Function.update q₁ 1 { q₁ 1 with isWait := false } 0).isWait = false := by
    rw [Function.update_of_ne (by decide), first]
  generalize Function.update q₁ 1 { q₁ 1 with isWait := false } = q₂ at other first
  have counts := other.lib_zero (th₀.syncing v q₂ (.initCounter 1)) .none (by
    show some (if g.gThreads 1 then _ else _) = _
    rw [if_pos registered]
    rfl) held
  have notes := counts.lib_zero (th₀.syncing v (Function.update q₂ 1 ⟨false, th₁.runCounter⟩)
    (.initLoop 2)) .none (by
      simp only [Thread.syncing, libStep, syncStep, State.pair_thread_one, outside]
      rfl) held
  refine ⟨_, notes.waited held ?_ ?_⟩
  · rw [Function.update_of_ne (by decide), first]
  · rw [Function.update_self]

/-- The end of a sync after the write-back, up to the store into the flag. -/
theorem Meets.unflags (h : Meets c s₁ g (th₀.atPc (.sync .checkpoint .storeMax)) th₁)
    (held : g.hdr 0 = .copy c) (asked : g.isSync 0 ≠ 0) :
    ∃ g' th, Meets c s₁ g' th th₁ ∧ g'.isSync 0 = 0 := by
  have hides := h.lib_zero ({ th₀ with writerVersion := none }.atPc (.sync .checkpoint .commitAdd))
    .none rfl held
  have commits := hides.lib_zero
    ({ th₀ with writerVersion := none, flight := none }.atPc (.sync .checkpoint .loadSync))
    .addCommitVersion rfl held
  have loads := commits.lib_zero
    ({ th₀ with writerVersion := none, flight := none }.atPc (.sync .checkpoint .storeSync)) .none (by
      show some (if g.isSync 0 = 0 then _ else _) = _
      rw [if_neg asked]
      rfl) held
  refine ⟨_, _, loads.lib_zero _ (.isSync 0 0) rfl held, ?_⟩
  show Function.update g.isSync 0 0 0 = 0
  exact Function.update_self _ _ _

theorem Meets.clears {v : Nat} {q : Nat → WaitEntry}
    (h : Meets c s₁ g (th₀.syncing v q .reset) th₁) (held : g.hdr 0 = .copy c)
    (drained : th₀.wsTailCounter = th₀.wsWbCounter) (asked : g.isSync 0 ≠ 0) :
    ∃ g' th, Meets c s₁ g' th th₁ ∧ g'.isSync 0 = 0 := by
  obtain ⟨log, reset, -⟩ := rluResetWriteSets_eq (th₀.syncing v q .reset) th₀.wsHeadCounter
    (th₀.wsWbCounter - th₀.wsHeadCounter)
  have walks := h.lib_zero ({ th₀.syncing v q (.entry th₀.wsWbCounter 0) with
    objWriteSet := log
    wsHeadCounter := th₀.wsWbCounter }) .none (by
      show some (Thread.go { Thread.rluResetWriteSets (th₀.syncing v q .reset) th₀.wsHeadCounter
        (th₀.wsWbCounter - th₀.wsHeadCounter) with wsHeadCounter := th₀.wsWbCounter } _) = _
      rw [reset]
      rfl) held
  have ends := walks.lib_zero ({ th₀.syncing v q .storeMax with
    objWriteSet := log
    wsHeadCounter := th₀.wsWbCounter
    wsWbCounter := th₀.wsTailCounter }.atPc (.sync .checkpoint .storeMax)) .none (by
      show some (if th₀.wsWbCounter < th₀.wsTailCounter then _ else
        if th₀.wsTailCounter - th₀.wsWbCounter = th₀.wsWbCounter - th₀.wsWbCounter then _ else _) = _
      rw [drained, if_neg (Nat.lt_irrefl _), if_pos rfl, ← drained]
      rfl) held
  exact ends.unflags held asked

end Pair

/-- Thread 0 clears its flag in a sync that writes nothing back, while the entry that its abort
missed stays installed. -/
theorem sync_request_lost : ¬ ∀ s s₁ s₂ : State Nat,
    System.Reachable Init (step oneWriteSet) (fun _ _ => True) s → ∀ T W v : Nat,
    (s.thread T).pc = .tryLock (.sendStore W v) → step oneWriteSet s (.lib T) = some s₁ →
    ∀ (o : Nat) (c : CopyAddr), c.owner = W →
    System.Through (step oneWriteSet) (fun _ _ => True) (State.Installed o c) s₁ s₂ →
    s₂.isSync W ≠ 0 ∧
    ((s₂.thread W).pc = .syncCheckpoint .readerLock → ∀ s₃ s₄,
      step oneWriteSet s₂ (.lib W) = some s₃ →
      System.Through (step oneWriteSet) (fun _ _ => True) (State.Installed o c) s₃ s₄ →
      (s₄.thread W).pc ≠ .readerLock .register) := by
  intro claim
  obtain ⟨g, th, missed⟩ := exists_missed (ω := Nat) fun _ _ => 0
  have id := missed.id
  rw [Thread.cur, missed.curId] at id
  have held := missed.held
  have visits : Meets _ _ _ th (visitor _ .inSection) := missed.meets.visit held
  have finds := visits.finds rfl held rfl id
  generalize same : ({ g with
    gCurThreads := 2
    gThreads := Function.update g.gThreads 1 true } : State Nat) = g₂ at finds
  have held : g₂.hdr 0 = .copy ⟨0, 96, 0⟩ := by
    rw [← same]
    exact missed.held
  have registered : g₂.gThreads 1 = true := by
    rw [← same]
    exact Function.update_self 1 true g.gThreads
  have reached := finds.run.reachable (missed.lone.reach.reachable.mono fun _ _ _ => trivial)
  have requested : step oneWriteSet
      (g₂.pair th (visitor g₂ (.tryLock (.sendStore 0 (g₂.isSync 0))))) (.lib 1) =
      some ((g₂.write 1 (visitor g₂ (.tryLock .syncLoad)) (.isSync 0 (g₂.isSync 0 + 1))).pair th
        (visitor g₂ (.tryLock .syncLoad))) := step_pair_one finds.two rfl
  have asked : Meets ⟨0, 96, 0⟩ _
      (g₂.write 1 (visitor g₂ (.tryLock .syncLoad)) (.isSync 0 (g₂.isSync 0 + 1))) th
      (visitor g₂ (.tryLock .syncLoad)) := ⟨.start held, finds.two⟩
  have leaves := asked.leaves held
  have flag : Function.update (Function.update g₂.isSync 0 (g₂.isSync 0 + 1)) 1
      (Function.update g₂.isSync 0 (g₂.isSync 0 + 1) 1 + 1) 0 ≠ 0 := by
    rw [Function.update_of_ne (by decide), Function.update_self]
    exact Nat.succ_ne_zero _
  obtain ⟨g₃, v, draws, hdr, threads, flags⟩ :=
    leaves.draws held missed.idle missed.even missed.head flag
  have held : g₃.hdr 0 = .copy ⟨0, 96, 0⟩ := (congrFun hdr 0).trans held
  obtain ⟨q, waits⟩ := draws.waits held ((congrFun threads 1).trans registered) (Nat.mod_self 2)
  obtain ⟨g₄, th', clears, cleared⟩ := waits.clears held missed.drained fun e =>
    flag ((congrFun flags 0).symm.trans e)
  exact (claim _ _ _ reached 1 0 _ (by rw [State.pair_thread_one]; rfl) requested 0 ⟨0, 96, 0⟩ rfl
    clears.run).1 cleared

end ReadLogUpdate
