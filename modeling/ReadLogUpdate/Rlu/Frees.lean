import ReadLogUpdate.Rlu.Flow
import ReadLogUpdate.Rlu.Ownership

/-!
# The free list

`rlu_free` appends to the list of its thread, and `rlu_process_free` at the end of a sync
releases all of it. An abort leaves the list alone.
-/

namespace ReadLogUpdate

variable {ω : Type}

def Pc.stuck : Pc → Bool
  | .failed _ _ | .fault _ => true
  | _ => false

/-- From the return of `rlu_reader_lock` to `rlu_unregister_thread`. -/
def PcKind.inside : PcKind → Bool
  | .inSection | .deref | .tryLock | .writerLock | .mustAbort => true
  | _ => false

/-- `rlu_abort` up to its final checkpoint. -/
def PcKind.aborting : PcKind → Bool
  | .abort | .release .abortWrite | .release .abortClean | .syncCheckpoint .abort => true
  | _ => false

inductive FreeStep (a : Act ω) (t : Nat) (th : Thread ω) (e : Effect ω) : Prop
  | keep (nodes : e.1.freeNodes = th.freeNodes) (run : e.1.runCounter = th.runCounter)
      (write : ∀ n, e.2 ≠ .free n) (locking : e.1.pc.kind = .readerLock →
        e.1.pc = .readerLock .register ∨ ∃ q, th.pc = .readerLock q ∧ q ≠ .register)
      (inside : th.pc.kind.inside = true → e.1.pc.kind.inside = true ∨ e.1.pc.stuck = true)
      (silent : ∀ p, a = .call t (.free p) → p = .null ∨ e.1.pc.stuck = true)
  | register (pc : th.pc = .readerLock .register) (nodes : e.1.freeNodes = th.freeNodes)
      (run : e.1.runCounter = th.runCounter + 1) (write : ∀ n, e.2 ≠ .free n)
      (act : a = .lib t)
  | leave (pc : th.pc = .inSection ∨ th.pc = .mustAbort)
      (next : e.1.pc = .readerUnlock ∨ e.1.pc = .abort .start)
      (nodes : e.1.freeNodes = th.freeNodes) (run : e.1.runCounter = th.runCounter + 1)
      (write : ∀ n, e.2 ≠ .free n) (silent : ∀ p, a ≠ .call t (.free p))
  | free (p : Ptr) (o : Nat) (act : a = .call t (.free p)) (some : p ≠ .null)
      (pc : th.pc = .inSection) (next : e.1.pc = .inSection ∨ e.1.pc.stuck = true)
      (nodes : e.1.freeNodes = th.freeNodes ++ [⟨o, th.runCounter⟩])
      (run : e.1.runCounter = th.runCounter) (write : ∀ n, e.2 ≠ .free n)
  | release (k : Caller) (i : Nat) (n : FreeNode) (act : a = .lib t)
      (pc : th.pc = .sync k (.free i)) (mem : n ∈ th.freeNodes)
      (nodes : e.1.freeNodes = th.freeNodes) (run : e.1.runCounter = th.runCounter)
      (write : e.2 = .free n) (next : e.1.pc.kind ≠ .readerLock)
  | clear (k : Caller) (i : Nat) (act : a = .lib t) (pc : th.pc = .sync k (.freeCheck i))
      (nodes : e.1.freeNodes = []) (run : e.1.runCounter = th.runCounter)
      (write : ∀ n, e.2 ≠ .free n)
      (locking : e.1.pc.kind = .readerLock → e.1.pc = .readerLock .register)

structure Thread.SameFrees (th : Thread ω) (e : Effect ω) : Prop where
  nodes : e.1.freeNodes = th.freeNodes
  run : e.1.runCounter = th.runCounter
  write : ∀ n, e.2 ≠ .free n

section Family
variable {cfg : Config} {t : Nat} {s : State ω} {th : Thread ω}

theorem derefStep_frees (pc : DerefPc) : th.SameFrees (derefStep s t th pc) := by
  cases pc <;> simp only [derefStep, derefReturn] <;> (repeat' split) <;> exact ⟨rfl, rfl, by rintro _ ⟨⟩⟩

theorem tryLockStep_frees (pc : TryLockPc) : th.SameFrees (tryLockStep cfg s t th pc) := by
  cases pc with
  | header p =>
    cases p <;> simp only [tryLockStep, tryLockFree] <;> (repeat' split) <;>
      exact ⟨rfl, rfl, by rintro _ ⟨⟩⟩
  | owner | runCounter | syncStore | storeActual | cas | copy | check =>
    simp only [tryLockStep, tryLockFail, tryLockReturn]
    (repeat' split) <;> exact ⟨rfl, rfl, by rintro _ ⟨⟩⟩
  | _ => exact ⟨rfl, rfl, by rintro _ ⟨⟩⟩

theorem writerLockStep_frees (pc : WriterLockPc) : th.SameFrees (writerLockStep s t th pc) := by
  cases pc <;> simp only [writerLockStep] <;> split_ifs <;> exact ⟨rfl, rfl, by rintro _ ⟨⟩⟩

theorem releaseStep_frees (r : Releaser) (pc : ReleasePc) :
    th.SameFrees (releaseStep s t th r pc) := by
  cases pc <;> simp only [releaseStep] <;> (repeat' split) <;> cases r <;>
    exact ⟨rfl, rfl, by rintro _ ⟨⟩⟩

theorem afterSync_frees (k : Caller) : th.SameFrees (afterSync th k) := by
  cases k with
  | commit =>
    simp only [afterSync]
    split_ifs <;> exact ⟨rfl, rfl, by rintro _ ⟨⟩⟩
  | _ => exact ⟨rfl, rfl, by rintro _ ⟨⟩⟩

theorem readerUnlockStep_frees : th.SameFrees (readerUnlockStep cfg th) := by
  simp only [readerUnlockStep, afterSync]
  (repeat' split) <;> exact ⟨rfl, rfl, by rintro _ ⟨⟩⟩

theorem abortStep_frees (pc : AbortPc) : th.SameFrees (abortStep s t th pc) := by
  cases pc <;> simp only [abortStep] <;> (repeat' split) <;> exact ⟨rfl, rfl, by rintro _ ⟨⟩⟩

theorem afterSync_locking (k : Caller) (kind : (afterSync th k).1.pc.kind = .readerLock) :
    (afterSync th k).1.pc = .readerLock .register := by
  cases k with
  | readerLock => rfl
  | commit =>
    simp only [afterSync] at kind
    split_ifs at kind <;> cases kind
  | _ => cases kind

theorem FreeStep.of_same {a : Act ω} {e : Effect ω} (same : th.SameFrees e)
    (locking : e.1.pc.kind = .readerLock →
      e.1.pc = .readerLock .register ∨ ∃ q, th.pc = .readerLock q ∧ q ≠ .register)
    (inside : th.pc.kind.inside = true → e.1.pc.kind.inside = true ∨ e.1.pc.stuck = true)
    (silent : ∀ p, a ≠ .call t (.free p)) : FreeStep a t th e :=
  .keep same.nodes same.run same.write locking inside fun p e => absurd e (silent p)

theorem syncStep_frees {k : Caller} {pc : SyncPc} (hpc : th.pc = .sync k pc) :
    FreeStep (.lib t) t th (syncStep cfg s t th k pc) := by
  have outside {p : Prop} (inside : th.pc.kind.inside = true) : p := by
    rw [hpc] at inside
    cases inside
  have same {e : Effect ω} (same : th.SameFrees e) (kind : e.1.pc.kind ≠ .readerLock) :
      FreeStep (.lib t) t th e := .of_same same (fun e => absurd e kind) outside (by rintro _ ⟨⟩)
  cases pc with
  | start =>
    simp only [syncStep]
    split_ifs
    · exact .of_same (afterSync_frees k) (fun kind => .inl (afterSync_locking k kind)) outside (by rintro _ ⟨⟩)
    · exact same ⟨rfl, rfl, by rintro _ ⟨⟩⟩ (by rintro ⟨⟩)
    · exact same ⟨rfl, rfl, by rintro _ ⟨⟩⟩ (by rintro ⟨⟩)
  | reset =>
    simp only [syncStep, Thread.go]
    rw [rluResetWriteSets_rest]
    exact same ⟨rfl, rfl, by rintro _ ⟨⟩⟩ (by rintro ⟨⟩)
  | freeCheck i =>
    simp only [syncStep]
    split
    · split_ifs
      · exact same ⟨rfl, rfl, by rintro _ ⟨⟩⟩ (by rintro ⟨⟩)
      · exact same ⟨rfl, rfl, by rintro _ ⟨⟩⟩ (by rintro ⟨⟩)
    · have same : Thread.SameFrees { th with freeNodes := [] } _ := afterSync_frees k
      exact .clear k i rfl hpc same.nodes same.run same.write (afterSync_locking k)
  | free i =>
    simp only [syncStep]
    split
    · rename_i n found
      exact .release k i n rfl hpc (List.mem_of_getElem? found) rfl rfl rfl (by rintro ⟨⟩)
    · exact same ⟨rfl, rfl, by rintro _ ⟨⟩⟩ (by rintro ⟨⟩)
  | _ =>
    simp only [syncStep]
    (repeat' split) <;> exact same ⟨rfl, rfl, by rintro _ ⟨⟩⟩ (by rintro ⟨⟩)

theorem readerLockStep_frees {pc : ReaderLockPc} (hpc : th.pc = .readerLock pc) :
    FreeStep (.lib t) t th (readerLockStep s th pc) := by
  have outside {p : Prop} (inside : th.pc.kind.inside = true) : p := by
    rw [hpc] at inside
    cases inside
  cases pc with
  | register =>
    simp only [readerLockStep]
    split_ifs
    · exact .register hpc rfl rfl (by rintro _ ⟨⟩) rfl
    · exact .keep rfl rfl (by rintro _ ⟨⟩) (by rintro ⟨⟩) outside (by rintro _ ⟨⟩)
  | loadVersion | storeVersion | loadCommit =>
    exact .keep rfl rfl (by rintro _ ⟨⟩) (fun _ => .inr ⟨_, hpc, by rintro ⟨⟩⟩) outside (by rintro _ ⟨⟩)

theorem rluUnregisterThread_frees {a : Act ω} {pc : Pc}
    (hpc : th.pc = .inSection ∨ th.pc = .mustAbort) (next : pc = .readerUnlock ∨ pc = .abort .start)
    (silent : ∀ p, a ≠ .call t (.free p)) : FreeStep a t th (rluUnregisterThread th pc) := by
  unfold rluUnregisterThread
  split_ifs
  · exact .leave hpc next rfl rfl nofun silent
  · exact .of_same ⟨rfl, rfl, nofun⟩ nofun (fun _ => .inr rfl) silent

theorem callInSection_frees {op : Op ω} {e : Effect ω} (hpc : th.pc = .inSection)
    (called : callInSection cfg s t th op = some e) : FreeStep (.call t op) t th e := by
  have same {op : Op ω} {e : Effect ω} (same : th.SameFrees e)
      (inside : e.1.pc.kind.inside = true ∨ e.1.pc.stuck = true) (silent : ∀ p, op ≠ .free p) :
      FreeStep (.call t op) t th e := by
    refine .of_same same (fun kind => ?_) (fun _ => inside)
      fun p e => silent p (Act.call.inj e).2
    cases hpc' : e.1.pc <;> rw [hpc'] at kind inside <;> cases kind
    simp [Pc.kind, PcKind.inside, Pc.stuck] at inside
  cases op with
  | readerLock | checkpoint | finish => cases called
  | readerUnlock =>
    obtain rfl := Option.some.inj called
    exact rluUnregisterThread_frees (.inl hpc) (.inl rfl) (by rintro _ ⟨⟩)
  | abort =>
    obtain rfl := Option.some.inj called
    exact rluUnregisterThread_frees (.inl hpc) (.inr rfl) (by rintro _ ⟨⟩)
  | deref p | tryLock p | lock p | tryWriterLock l =>
    simp only [callInSection, ← apply_ite some, Option.some.injEq] at called
    subst called
    split_ifs <;> first
      | exact same ⟨rfl, rfl, by rintro _ ⟨⟩⟩ (.inl rfl) (by rintro _ ⟨⟩)
      | exact same ⟨rfl, rfl, by rintro _ ⟨⟩⟩ (.inr rfl) (by rintro _ ⟨⟩)
  | store c w x =>
    simp only [callInSection] at called
    split_ifs at called
    obtain rfl := Option.some.inj called
    exact same ⟨rfl, rfl, by rintro _ ⟨⟩⟩ (.inl rfl) (by rintro _ ⟨⟩)
  | free p =>
    obtain rfl := Option.some.inj called
    have stuck {e : Effect ω} (same : th.SameFrees e) (stuck : e.1.pc.stuck = true)
        (kind : e.1.pc.kind ≠ .readerLock) : FreeStep (.call t (.free p)) t th e :=
      .keep same.nodes same.run same.write (fun e => absurd e kind) (fun _ => .inr stuck)
        fun _ _ => .inr stuck
    have argument {q : Ptr} (forced : s.forceActual p = q) (some : q ≠ .null) : p ≠ .null := by
      rintro rfl
      exact some forced.symm
    unfold rluFree
    split
    · rename_i none
      refine .keep rfl rfl (by rintro _ ⟨⟩) (by rintro ⟨⟩) (fun _ => .inl rfl) fun q e => .inl ?_
      obtain ⟨rfl⟩ : p = q := by simpa using e
      cases p with
      | null => rfl
      | actual o => cases none
      | copy c =>
        simp only [State.forceActual] at none
        split_ifs at none
    · rename_i o forced
      split_ifs with odd room
      · exact .free p o rfl (argument forced (by rintro ⟨⟩)) hpc (.inl rfl) rfl rfl (by rintro _ ⟨⟩)
      · exact .free p o rfl (argument forced (by rintro ⟨⟩)) hpc (.inr rfl) rfl rfl (by rintro _ ⟨⟩)
      · exact stuck ⟨rfl, rfl, by rintro _ ⟨⟩⟩ rfl (by rintro ⟨⟩)
    · exact stuck ⟨rfl, rfl, by rintro _ ⟨⟩⟩ rfl (by rintro ⟨⟩)

end Family

theorem actEffect_frees {cfg : Config} {s : State ω} {a : Act ω} {t : Nat} {e : Effect ω}
    (act : ActEffect cfg s a t e) : FreeStep a t (s.thread t) e := by
  have flow := actEffect_flow act
  rcases act with ⟨op, rfl, called⟩ | ⟨rfl, stepped⟩
  · cases hpc : (s.thread t).pc with
    | idle =>
      rw [hpc] at called
      cases op with
      | readerLock | checkpoint | finish =>
        obtain rfl := Option.some.inj called
        exact .of_same ⟨rfl, rfl, by rintro _ ⟨⟩⟩ (by rintro ⟨⟩) (by rw [hpc]; rintro ⟨⟩) (by rintro _ ⟨⟩)
      | _ => cases called
    | inSection =>
      rw [hpc] at called
      exact callInSection_frees hpc called
    | mustAbort =>
      rw [hpc] at called
      cases op with
      | abort =>
        obtain rfl := Option.some.inj called
        exact rluUnregisterThread_frees (.inr hpc) (.inr rfl) (by rintro _ ⟨⟩)
      | _ => cases called
    | _ =>
      rw [hpc] at called
      cases called
  · have same (same : (s.thread t).SameFrees e) (kind : PcKind.readerLock ∉ (s.thread t).pc.nexts)
        (inside : (s.thread t).pc.kind.inside = true → ∀ k ∈ (s.thread t).pc.nexts,
          k.inside = true ∨ k = .fault ∨ ∃ line, k = .failed line) :
        FreeStep (.lib t) t (s.thread t) e := by
      refine .of_same same (fun e => absurd (e ▸ flow) kind) (fun i => ?_) (by rintro _ ⟨⟩)
      rcases inside i _ flow with inside | fault | ⟨line, failed⟩
      · exact .inl inside
      · cases hpc : e.1.pc <;> rw [hpc] at fault <;> cases fault
        exact .inr rfl
      · cases hpc : e.1.pc <;> rw [hpc] at failed <;> cases failed
        exact .inr rfl
    cases hpc : (s.thread t).pc with
    | idle | inSection | mustAbort | finished | failed | fault =>
      rw [hpc] at stepped
      cases stepped
    | init =>
      rw [hpc] at stepped same
      rcases libStep_init stepped with ⟨-, rfl⟩ | rfl <;>
        exact same ⟨rfl, rfl, by rintro _ ⟨⟩⟩ (by simp [Pc.nexts]) (by rintro ⟨⟩)
    | syncCheckpoint k =>
      rw [hpc] at stepped
      simp only [libStep, ← apply_ite some, Option.some.injEq] at stepped
      subst stepped
      split_ifs
      · exact .of_same (afterSync_frees k) (fun kind => .inl (afterSync_locking k kind))
          (by rw [hpc]; rintro ⟨⟩) (by rintro _ ⟨⟩)
      · exact .of_same ⟨rfl, rfl, by rintro _ ⟨⟩⟩ (by rintro ⟨⟩) (by rw [hpc]; rintro ⟨⟩) (by rintro _ ⟨⟩)
    | readerLock pc =>
      rw [hpc] at stepped
      obtain rfl := Option.some.inj stepped
      exact readerLockStep_frees hpc
    | deref pc =>
      rw [hpc] at stepped same
      obtain rfl := Option.some.inj stepped
      exact same (derefStep_frees pc) (by simp [Pc.nexts]) (by simp [Pc.nexts, PcKind.inside])
    | tryLock pc =>
      rw [hpc] at stepped same
      obtain rfl := Option.some.inj stepped
      exact same (tryLockStep_frees pc) (by cases pc <;> simp [Pc.nexts])
        (by cases pc <;> simp [Pc.nexts, PcKind.inside])
    | writerLock pc =>
      rw [hpc] at stepped same
      obtain rfl := Option.some.inj stepped
      exact same (writerLockStep_frees pc) (by simp [Pc.nexts]) (by simp [Pc.nexts, PcKind.inside])
    | readerUnlock =>
      rw [hpc] at stepped same
      obtain rfl := Option.some.inj stepped
      exact same readerUnlockStep_frees (by simp [Pc.nexts, Caller.nexts]) (by rintro ⟨⟩)
    | abort pc =>
      rw [hpc] at stepped same
      obtain rfl := Option.some.inj stepped
      exact same (abortStep_frees pc) (by cases pc <;> simp [Pc.nexts]) (by rintro ⟨⟩)
    | release r pc =>
      rw [hpc] at stepped same
      obtain rfl := Option.some.inj stepped
      exact same (releaseStep_frees r pc) (by cases r <;> simp [Pc.nexts]) (by rintro ⟨⟩)
    | sync k pc =>
      rw [hpc] at stepped
      obtain rfl := Option.some.inj stepped
      exact syncStep_frees hpc

/-! ### One section -/

/-- From the increment of `run_counter` in `rlu_reader_lock` to its return. -/
def Pc.opening : Pc → Bool
  | .readerLock .register => false
  | .readerLock _ => true
  | _ => false

/-- The thread runs or aborts the section with the odd counter `k`. -/
def Thread.Running (th : Thread ω) (k : Nat) : Prop :=
  th.runCounter = k ∧ th.pc.kind.inside = true ∨
  th.runCounter = k + 1 ∧ th.pc.kind.aborting = true

/-- The section with the odd counter `k` is over, or its thread cannot go on. -/
def Thread.Past (th : Thread ω) (k : Nat) : Prop :=
  th.pc.stuck = true ∨ k + 1 ≤ th.runCounter ∧ (th.runCounter = k + 1 →
    th.pc.kind.inside = false ∧ th.pc.kind.aborting = false ∧ th.pc.opening = false)

theorem Pc.nexts_of_stuck {pc : Pc} (stuck : pc.stuck = true) : pc.nexts = [] := by
  cases pc with
  | failed | fault => rfl
  | _ => cases stuck

theorem Pc.opening_of_kind {pc : Pc} (kind : pc.kind ≠ .readerLock) : pc.opening = false := by
  cases pc with
  | readerLock q => exact absurd rfl kind
  | _ => rfl

theorem Pc.kind_of_stuck {pc : Pc} (stuck : pc.stuck = true) :
    pc.kind.inside = false ∧ pc.kind.aborting = false := by
  cases pc with
  | failed | fault => exact ⟨rfl, rfl⟩
  | _ => cases stuck

theorem Pc.opening_of_stuck {pc : Pc} (stuck : pc.stuck = true) : pc.opening = false := by
  cases pc with
  | failed | fault => rfl
  | _ => cases stuck

theorem Pc.nexts_outside {pc : Pc} (inside : pc.kind.inside = false)
    (aborting : pc.kind.aborting = false) (opening : pc.opening = false) {k : PcKind}
    (mem : k ∈ pc.nexts) : k.inside = false ∧ k.aborting = false := by
  revert k
  cases pc with
  | syncCheckpoint c => cases c <;> simp_all [Pc.nexts, Caller.nexts, Pc.kind, PcKind.inside, PcKind.aborting]
  | readerLock q => cases q <;> simp_all [Pc.nexts, PcKind.inside, PcKind.aborting, Pc.opening]
  | abort q => cases aborting
  | release r q => cases r <;> simp_all [Pc.nexts, Pc.kind, PcKind.inside, PcKind.aborting]
  | sync c q =>
    cases q <;> cases c <;> simp [Pc.nexts, Caller.nexts, PcKind.inside, PcKind.aborting]
  | inSection | deref | tryLock | writerLock | mustAbort => cases inside
  | _ => simp [Pc.nexts, Caller.nexts, PcKind.inside, PcKind.aborting]

theorem Pc.nexts_aborting {pc : Pc} (aborting : pc.kind.aborting = true) {k : PcKind}
    (mem : k ∈ pc.nexts) : k.inside = false ∧ k ≠ .readerLock := by
  revert k
  cases pc with
  | abort q => cases q <;> simp [Pc.nexts, PcKind.inside]
  | release r q => cases r <;> simp_all [Pc.nexts, Pc.kind, PcKind.inside, PcKind.aborting]
  | syncCheckpoint c =>
    cases c <;> simp_all [Pc.nexts, Caller.nexts, Pc.kind, PcKind.inside, PcKind.aborting]
  | _ => cases aborting

theorem Thread.Past.not_running {th : Thread ω} {k : Nat} (past : th.Past k) : ¬ th.Running k := by
  rintro (⟨run, inside⟩ | ⟨run, aborting⟩)
  · rcases past with stuck | ⟨le, -⟩
    · rw [(Pc.kind_of_stuck stuck).1] at inside
      cases inside
    · omega
  · rcases past with stuck | ⟨-, beyond⟩
    · rw [(Pc.kind_of_stuck stuck).2] at aborting
      cases aborting
    · rw [(beyond run).2.1] at aborting
      cases aborting

section Section
variable {cfg : Config} {t k : Nat} {s : State ω} {a : Act ω} {e : Effect ω}

theorem actEffect_past (act : ActEffect cfg s a t e) (past : (s.thread t).Past k) :
    e.1.Past k := by
  have flow := actEffect_flow act
  rcases past with stuck | ⟨le, beyond⟩
  · rw [Pc.nexts_of_stuck stuck] at flow
    cases flow
  have done (run : e.1.runCounter = (s.thread t).runCounter)
      (opening : (s.thread t).pc.opening = false → e.1.pc.opening = false) : e.1.Past k := by
    refine .inr ⟨run ▸ le, fun eq => ?_⟩
    obtain ⟨inside, aborting, closed⟩ := beyond (run ▸ eq)
    have outside := Pc.nexts_outside inside aborting closed flow
    exact ⟨outside.1, outside.2, opening closed⟩
  have later (run : e.1.runCounter = (s.thread t).runCounter + 1) : e.1.Past k :=
    .inr ⟨by omega, by omega⟩
  cases actEffect_frees act with
  | keep nodes run write locking inside silent =>
    refine done run fun closed => ?_
    by_cases kind : e.1.pc.kind = .readerLock
    · rcases locking kind with register | ⟨q, pc, ne⟩
      · rw [register]
        rfl
      · rw [pc] at closed
        cases q with
        | register => exact absurd rfl ne
        | _ => cases closed
    · exact Pc.opening_of_kind kind
  | register pc nodes run => exact later run
  | leave pc next nodes run => exact later run
  | free p o act some pc next nodes run =>
    refine done run fun _ => ?_
    rcases next with next | stuck
    · rw [next]
      rfl
    · exact Pc.opening_of_stuck stuck
  | release c i n act pc mem nodes run write next => exact done run fun _ => Pc.opening_of_kind next
  | clear c i act pc nodes run write locking =>
    refine done run fun _ => ?_
    by_cases kind : e.1.pc.kind = .readerLock
    · rw [locking kind]
      rfl
    · exact Pc.opening_of_kind kind

/-- Inside a section and its abort, the free list grows by what the section frees. -/
theorem actEffect_running (act : ActEffect cfg s a t e) (running : (s.thread t).Running k) :
    e.1.Past k ∨ e.1.Running k ∧ ∃ new, e.1.freeNodes = (s.thread t).freeNodes ++ new ∧
      (new = [] ↔ ∀ p, a = .call t (.free p) → p = .null) := by
  have flow := actEffect_flow act
  have kept (nodes : e.1.freeNodes = (s.thread t).freeNodes)
      (silent : ∀ p, a = .call t (.free p) → p = .null) :
      ∃ new, e.1.freeNodes = (s.thread t).freeNodes ++ new ∧
        (new = [] ↔ ∀ p, a = .call t (.free p) → p = .null) :=
    ⟨[], by rw [nodes, List.append_nil], fun _ => silent, fun _ => rfl⟩
  rcases running with ⟨run₀, inside₀⟩ | ⟨run₀, aborting₀⟩
  · cases actEffect_frees act with
    | keep nodes run write locking inside silent =>
      rcases inside inside₀ with inside' | stuck
      · refine .inr ⟨.inl ⟨run.trans run₀, inside'⟩, kept nodes fun p called => ?_⟩
        rcases silent p called with null | stuck
        · exact null
        · rw [(Pc.kind_of_stuck stuck).1] at inside'
          cases inside'
      · exact .inl (.inl stuck)
    | register pc => rw [pc] at inside₀; cases inside₀
    | leave pc next nodes run write silent =>
      rcases next with next | next
      · refine .inl (.inr ⟨by omega, fun _ => ?_⟩)
        rw [next]
        exact ⟨rfl, rfl, rfl⟩
      · exact .inr ⟨.inr ⟨by omega, by rw [next]; rfl⟩, kept nodes fun p e => absurd e (silent p)⟩
    | free p o called some pc next nodes run =>
      rcases next with next | stuck
      · refine .inr ⟨.inl ⟨run.trans run₀, by rw [next]; rfl⟩, _, nodes, ?_⟩
        exact ⟨fun e => absurd e (List.cons_ne_nil _ _), fun null => absurd (null p called) some⟩
      · exact .inl (.inl stuck)
    | release c i n act pc => rw [pc] at inside₀; cases inside₀
    | clear c i act pc => rw [pc] at inside₀; cases inside₀
  · have next := Pc.nexts_aborting aborting₀ flow
    have settle (run : e.1.runCounter = (s.thread t).runCounter)
        (nodes : e.1.freeNodes = (s.thread t).freeNodes)
        (silent : ∀ p, a = .call t (.free p) → p = .null) :
        e.1.Past k ∨ e.1.Running k ∧ ∃ new, e.1.freeNodes = (s.thread t).freeNodes ++ new ∧
          (new = [] ↔ ∀ p, a = .call t (.free p) → p = .null) := by
      cases aborting : e.1.pc.kind.aborting with
      | true => exact .inr ⟨.inr ⟨run.trans run₀, aborting⟩, kept nodes silent⟩
      | false => exact .inl (.inr ⟨by omega, fun _ => ⟨next.1, aborting, Pc.opening_of_kind next.2⟩⟩)
    cases actEffect_frees act with
    | keep nodes run write locking inside silent =>
      by_cases stuck : e.1.pc.stuck = true
      · exact .inl (.inl stuck)
      · exact settle run nodes fun p called => (silent p called).resolve_right stuck
    | register pc => rw [pc] at aborting₀; cases aborting₀
    | leave pc => rcases pc with pc | pc <;> rw [pc] at aborting₀ <;> cases aborting₀
    | free p o act some pc => rw [pc] at aborting₀; cases aborting₀
    | release c i n act pc => rw [pc] at aborting₀; cases aborting₀
    | clear c i act pc => rw [pc] at aborting₀; cases aborting₀

end Section

section Run
variable [Inhabited ω] {cfg : Config} {t k : Nat} {s s' : State ω}

theorem step_past {a : Act ω} (lt : t < s.gCurThreads) (past : (s.thread t).Past k)
    (hs : step cfg s a = some s') : t < s'.gCurThreads ∧ (s'.thread t).Past k := by
  rcases step_cases hs with ⟨rfl, rfl⟩ | ⟨u, e, -, act, rfl⟩
  · refine ⟨Nat.lt_succ_of_lt lt, ?_⟩
    show (Function.update s.thread s.gCurThreads Thread.init t).Past k
    rwa [Function.update_of_ne (Nat.ne_of_lt lt)]
  · rw [State.apply_gCurThreads, State.apply_thread]
    refine ⟨lt, ?_⟩
    by_cases eq : t = u
    · subst eq
      rw [Function.update_self]
      exact actEffect_past act past
    · rwa [Function.update_of_ne eq]

theorem run_past {as : List (Act ω)} (lt : t < s.gCurThreads) (past : (s.thread t).Past k)
    (ran : System.run (step cfg) s as = some s') : (s'.thread t).Past k := by
  induction as generalizing s with
  | nil => exact Option.some.inj ran ▸ past
  | cons a as ih =>
    obtain ⟨s₁, hs, ran⟩ := Option.bind_eq_some_iff.mp ran
    obtain ⟨lt', past'⟩ := step_past lt past hs
    exact ih lt' past' ran

/-- Between two moments of one section, the free list grows by what is freed between them. -/
theorem run_running {as : List (Act ω)} (lt : t < s.gCurThreads) (running : (s.thread t).Running k)
    (ran : System.run (step cfg) s as = some s') (running' : (s'.thread t).Running k) :
    ∃ new, (s'.thread t).freeNodes = (s.thread t).freeNodes ++ new ∧
      (new = [] ↔ ∀ p, .call t (.free p) ∈ as → p = .null) := by
  induction as generalizing s with
  | nil =>
    obtain rfl := Option.some.inj ran
    exact ⟨[], (List.append_nil _).symm, fun _ _ mem => (List.not_mem_nil mem).elim, fun _ => rfl⟩
  | cons a as ih =>
    obtain ⟨s₁, hs, ran⟩ := Option.bind_eq_some_iff.mp ran
    -- a step of another thread, or of none
    have foreign (lt : t < s₁.gCurThreads) (same : s₁.thread t = s.thread t)
        (silent : ∀ p, .call t (.free p) ≠ a) :
        ∃ new, (s'.thread t).freeNodes = (s.thread t).freeNodes ++ new ∧
          (new = [] ↔ ∀ p, .call t (.free p) ∈ a :: as → p = .null) := by
      obtain ⟨new, nodes, none⟩ := ih lt (same ▸ running) ran
      refine ⟨new, same ▸ nodes, none.trans (forall_congr' fun p => ?_)⟩
      rw [List.mem_cons, or_iff_right (silent p)]
    rcases step_cases hs with ⟨rfl, rfl⟩ | ⟨u, e, -, act, rfl⟩
    · exact foreign (Nat.lt_succ_of_lt lt) (Function.update_of_ne (Nat.ne_of_lt lt) _ _) nofun
    · have lt' : t < (s.apply u e.1 e.2).gCurThreads := by rwa [State.apply_gCurThreads]
      by_cases eq : t = u
      · subst eq
        have own : (s.apply t e.1 e.2).thread t = e.1 := by
          rw [State.apply_thread, Function.update_self]
        rcases actEffect_running act running with past | ⟨running₁, new₁, nodes₁, none₁⟩
        · exact absurd running' (run_past lt' (by rwa [own]) ran).not_running
        · obtain ⟨new₂, nodes₂, none₂⟩ := ih lt' (by rwa [own]) ran
          refine ⟨new₁ ++ new₂, by rw [nodes₂, own, nodes₁, List.append_assoc], ?_⟩
          rw [List.append_eq_nil_iff, none₁, none₂]
          simp only [List.mem_cons, eq_comm (a := a)]
          exact ⟨fun h p mem => mem.elim (h.1 p) (h.2 p),
            fun h => ⟨fun p e => h p (.inl e), fun p mem => h p (.inr mem)⟩⟩
      · refine foreign lt' (by rw [State.apply_thread, Function.update_of_ne eq]) fun p e' => ?_
        rcases act with ⟨op, rfl, -⟩ | ⟨rfl, -⟩
        · exact eq (Act.call.inj e').1
        · cases e'

/-! ### What is released -/

/-- `n` is on the free list of thread `t` or was released from it. -/
def State.Freed (s : State ω) (t : Nat) (n : FreeNode) : Prop :=
  n ∈ (s.thread t).freeNodes ∨ (t, n) ∈ s.released

structure FreesOk (s : State ω) : Prop where
  fresh : ∀ t, s.gCurThreads ≤ t → (s.thread t).freeNodes = []
  begun : ∀ t n, s.Freed t n → n.run ≤ (s.thread t).runCounter ∧
    ((s.thread t).pc.opening = true → n.run < (s.thread t).runCounter)
  known : ∀ t n, (t, n) ∈ s.released → t < s.gCurThreads

omit [Inhabited ω] in
theorem State.apply_released (s : State ω) (t : Nat) (th : Thread ω) {w : Write ω}
    (write : ∀ n, w ≠ .free n) : (s.apply t th w).released = s.released := by
  cases w with
  | free n => exact absurd rfl (write n)
  | _ => rfl

omit [Inhabited ω] in
/-- A step frees objects of its own section only, and releases what is on its list. -/
theorem actEffect_freed {a : Act ω} {e : Effect ω} {u : Nat} {n : FreeNode}
    (act : ActEffect cfg s a t e) (freed : (s.apply t e.1 e.2).Freed u n) :
    s.Freed u n ∨ u = t ∧ n.run = (s.thread t).runCounter ∧ (s.thread t).pc = .inSection ∧
      (∃ p, p ≠ .null ∧ a = .call t (.free p)) ∧ e.1.pc.opening = false := by
  have old (write : ∀ n, e.2 ≠ .free n) (nodes : n ∈ e.1.freeNodes → n ∈ (s.thread t).freeNodes) :
      s.Freed u n := by
    unfold State.Freed at freed ⊢
    rw [State.apply_released _ _ _ write, State.apply_thread] at freed
    by_cases eq : u = t
    · subst eq
      rw [Function.update_self] at freed
      exact freed.imp_left nodes
    · rwa [Function.update_of_ne eq] at freed
  cases actEffect_frees act with
  | keep nodes run write => exact .inl (old write fun h => nodes ▸ h)
  | register pc nodes run write => exact .inl (old write fun h => nodes ▸ h)
  | leave pc next nodes run write => exact .inl (old write fun h => nodes ▸ h)
  | clear c i act pc nodes run write => exact .inl (old write fun h => by rw [nodes] at h; cases h)
  | free p o called some pc next nodes run write =>
    have opening : e.1.pc.opening = false := by
      rcases next with next | stuck
      · rw [next]
        rfl
      · exact Pc.opening_of_stuck stuck
    unfold State.Freed at freed ⊢
    rw [State.apply_released _ _ _ write, State.apply_thread] at freed
    by_cases eq : u = t
    · subst eq
      rw [Function.update_self, nodes, List.mem_append, List.mem_singleton] at freed
      rcases freed with (mem | rfl) | rel
      · exact .inl (.inl mem)
      · exact .inr ⟨rfl, rfl, pc, ⟨p, some, called⟩, opening⟩
      · exact .inl (.inr rel)
    · rw [Function.update_of_ne eq] at freed
      exact .inl freed
  | release c i m act pc mem nodes run write next =>
    left
    unfold State.Freed at freed ⊢
    rw [State.apply_thread, write] at freed
    have released : (s.apply t e.1 (.free m)).released = (t, m) :: s.released := rfl
    rw [released, List.mem_cons] at freed
    by_cases eq : u = t
    · subst eq
      rw [Function.update_self, nodes] at freed
      rcases freed with listed | eq | rel
      · exact .inl listed
      · obtain rfl := (Prod.mk.inj eq).2
        exact .inl mem
      · exact .inr rel
    · rw [Function.update_of_ne eq] at freed
      rcases freed with listed | e | rel
      · exact .inl listed
      · exact absurd (Prod.mk.inj e).1 eq
      · exact .inr rel

omit [Inhabited ω] in
theorem actEffect_runCounter_le {a : Act ω} {e : Effect ω} (act : ActEffect cfg s a t e) :
    (s.thread t).runCounter ≤ e.1.runCounter := by
  cases actEffect_frees act with
  | keep nodes run => omega
  | register pc nodes run => omega
  | leave pc next nodes run => omega
  | free p o called some pc next nodes run => omega
  | release c i m act pc mem nodes run => omega
  | clear c i act pc nodes run => omega

omit [Inhabited ω] in
theorem actEffect_opening {a : Act ω} {e : Effect ω} (act : ActEffect cfg s a t e)
    (opening : e.1.pc.opening = true) :
    (s.thread t).pc.opening = true ∧ e.1.runCounter = (s.thread t).runCounter ∨
    e.1.runCounter = (s.thread t).runCounter + 1 := by
  have kind : e.1.pc.kind = .readerLock := by
    by_contra other
    rw [Pc.opening_of_kind other] at opening
    cases opening
  cases actEffect_frees act with
  | keep nodes run write locking =>
    rcases locking kind with register | ⟨q, pc, ne⟩
    · rw [register] at opening
      cases opening
    · refine .inl ⟨?_, run⟩
      rw [pc]
      cases q with
      | register => exact absurd rfl ne
      | _ => rfl
  | register pc nodes run => exact .inr run
  | leave pc next => rcases next with next | next <;> rw [next] at opening <;> cases opening
  | free p o called some pc next =>
    rcases next with next | stuck
    · rw [next] at opening
      cases opening
    · rw [Pc.opening_of_stuck stuck] at opening
      cases opening
  | release c i m act pc mem nodes run write next => exact absurd kind next
  | clear c i act pc nodes run write locking =>
    rw [locking kind] at opening
    cases opening

theorem init_freesOk (start : Init s) : FreesOk s := by
  obtain ⟨obj, rfl⟩ := start
  refine ⟨fun _ _ => rfl, fun t n freed => ?_, fun t n mem => ?_⟩
  · rcases freed with mem | mem <;> cases mem
  · cases mem

theorem step_freesOk {a : Act ω} (ok : FreesOk s) (hs : step cfg s a = some s') : FreesOk s' := by
  rcases step_cases hs with ⟨rfl, rfl⟩ | ⟨u, e, lt, act, rfl⟩
  · have new (t : Nat) (le : s.gCurThreads ≤ t) :
        (Function.update s.thread s.gCurThreads Thread.init t).freeNodes = [] := by
      by_cases eq : t = s.gCurThreads
      · rw [eq, Function.update_self]
        rfl
      · rw [Function.update_of_ne eq]
        exact ok.fresh t le
    refine ⟨fun t le => new t (Nat.le_of_succ_le le), fun t n freed => ?_,
      fun t n mem => Nat.lt_succ_of_lt (ok.known t n mem)⟩
    have old : t < s.gCurThreads := by
      rcases freed with listed | mem
      · by_contra ge
        rw [new t (Nat.le_of_not_lt ge)] at listed
        cases listed
      · exact ok.known t n mem
    have same : Function.update s.thread s.gCurThreads Thread.init t = s.thread t :=
      Function.update_of_ne (Nat.ne_of_lt old) _ _
    unfold State.Freed at freed
    dsimp only at freed ⊢
    rw [same] at freed ⊢
    exact ok.begun t n freed
  · refine ⟨fun t le => ?_, fun t n freed => ?_, fun t n mem => ?_⟩
    · rw [State.apply_gCurThreads] at le
      rw [State.apply_thread, Function.update_of_ne (by omega)]
      exact ok.fresh t le
    · rw [State.apply_thread]
      rcases actEffect_freed act freed with old | ⟨rfl, run, -, -, closed⟩
      · by_cases eq : t = u
        · subst eq
          rw [Function.update_self]
          obtain ⟨le, strict⟩ := ok.begun t n old
          have mono := actEffect_runCounter_le act
          refine ⟨Nat.le_trans le mono, fun opening => ?_⟩
          rcases actEffect_opening act opening with ⟨opened, same⟩ | next
          · have := strict opened
            omega
          · omega
        · rw [Function.update_of_ne eq]
          exact ok.begun t n old
      · rw [Function.update_self, run, closed]
        exact ⟨actEffect_runCounter_le act, nofun⟩
    · rw [State.apply_gCurThreads]
      by_cases write : ∀ m, e.2 ≠ .free m
      · rw [State.apply_released _ _ _ write] at mem
        exact ok.known t n mem
      · obtain ⟨m, write⟩ := not_forall.mp write
        rw [not_not] at write
        rw [write] at mem
        rcases List.mem_cons.mp mem with eq | mem
        · rw [(Prod.mk.inj eq).1]
          exact lt
        · exact ok.known t n mem

theorem reachable_freesOk {ok : State ω → Act ω → Prop}
    (h : System.Reachable Init (step cfg) ok s) : FreesOk s :=
  System.Reachable.invariant FreesOk (fun _ => init_freesOk)
    (fun _ _ _ inv _ hs => step_freesOk inv hs) h

/-- Nothing that thread `t` freed in its section `k` is released or will be. -/
def Unfreed (t k : Nat) (s : State ω) : Prop := ∀ n, s.Freed t n → n.run ≠ k

theorem step_unfreed {a : Act ω} (lt : t < s.gCurThreads) (none : Unfreed t k s)
    (silent : (s.thread t).runCounter ≠ k ∨ ∀ p, a = .call t (.free p) → p = .null)
    (hs : step cfg s a = some s') : Unfreed t k s' := by
  intro n freed
  rcases step_cases hs with ⟨rfl, rfl⟩ | ⟨u, e, -, act, rfl⟩
  · refine none n ?_
    unfold State.Freed at freed ⊢
    dsimp only at freed
    rwa [Function.update_of_ne (Nat.ne_of_lt lt)] at freed
  · rcases actEffect_freed act freed with old | ⟨rfl, run, -, ⟨p, some, called⟩, -⟩
    · exact none n old
    · rcases silent with other | null
      · rwa [run]
      · exact absurd (null p called) some

theorem step_gCurThreads_le {a : Act ω} (hs : step cfg s a = some s') :
    s.gCurThreads ≤ s'.gCurThreads := by
  rcases step_cases hs with ⟨rfl, rfl⟩ | ⟨u, e, -, act, rfl⟩
  · exact Nat.le_succ _
  · exact Nat.le_of_eq (State.apply_gCurThreads _ _ _ _).symm

theorem step_runCounter_le {a : Act ω} (lt : t < s.gCurThreads) (hs : step cfg s a = some s') :
    (s.thread t).runCounter ≤ (s'.thread t).runCounter := by
  rcases step_cases hs with ⟨rfl, rfl⟩ | ⟨u, e, -, act, rfl⟩
  · show _ ≤ (Function.update s.thread s.gCurThreads Thread.init t).runCounter
    exact Nat.le_of_eq (by rw [Function.update_of_ne (Nat.ne_of_lt lt)])
  · rw [State.apply_thread]
    by_cases eq : t = u
    · subst eq
      rw [Function.update_self]
      exact actEffect_runCounter_le act
    · exact Nat.le_of_eq (by rw [Function.update_of_ne eq])

theorem run_unfreed {as : List (Act ω)} (lt : t < s.gCurThreads) (none : Unfreed t k s)
    (silent : k < (s.thread t).runCounter ∨ ∀ p, .call t (.free p) ∈ as → p = .null)
    (ran : System.run (step cfg) s as = some s') : Unfreed t k s' ∧ t < s'.gCurThreads := by
  induction as generalizing s with
  | nil => exact Option.some.inj ran ▸ ⟨none, lt⟩
  | cons a as ih =>
    obtain ⟨s₁, hs, ran⟩ := Option.bind_eq_some_iff.mp ran
    have none₁ := step_unfreed lt none (silent.imp (fun lt => by omega)
      fun null p e => null p (List.mem_cons.mpr (.inl e.symm))) hs
    have lt₁ := Nat.lt_of_lt_of_le lt (step_gCurThreads_le hs)
    have mono := step_runCounter_le lt hs
    exact ih lt₁ none₁ (silent.imp (fun lt => by omega)
      fun null p mem => null p (List.mem_cons_of_mem _ mem)) ran

/-- The section of thread `t` whose `rlu_reader_lock` returns in `s₁` ends in an abort that is at
its final checkpoint in `s₂`. -/
structure AbortedSection (cfg : Config) (t : Nat) (s₁ : State ω) (as : List (Act ω))
    (s₂ : State ω) : Prop where
  entered : ∃ s₀, System.Reachable Init (step cfg) (fun _ _ => True) s₀ ∧
    (s₀.thread t).pc = .readerLock .loadCommit ∧ step cfg s₀ (.lib t) = some s₁
  ran : System.run (step cfg) s₁ as = some s₂
  same : (s₂.thread t).runCounter = (s₁.thread t).runCounter + 1
  aborted : (s₂.thread t).pc = .syncCheckpoint .abort

/-- An abort leaves the free list as the section found it, and nothing is ever released for
the section, exactly when the section freed nothing. -/
theorem abort_cancels_frees (cfg : Config) (t : Nat) (s₁ s₂ : State ω) (as : List (Act ω))
    (h : AbortedSection cfg t s₁ as s₂) :
    ((s₂.thread t).freeNodes = (s₁.thread t).freeNodes ∧
      ∀ bs s₃, System.run (step cfg) s₂ bs = some s₃ →
        ∀ n, (t, n) ∈ s₃.released → n.run ≠ (s₁.thread t).runCounter) ↔
    ∀ p, .call t (.free p) ∈ as → p = .null := by
  obtain ⟨s₀, reach, locking, locked⟩ := h.entered
  have frees := reachable_freesOk reach
  have lt₀ : t < s₀.gCurThreads := by
    simp only [step] at locked
    split_ifs at locked with lt
    exact lt
  have entered : s₁ = s₀.apply t (readerLockStep s₀ (s₀.thread t) .loadCommit).1 .none := by
    simp only [step, if_pos lt₀, locking] at locked
    exact (Option.some.inj locked).symm
  have own : s₁.thread t = (readerLockStep s₀ (s₀.thread t) .loadCommit).1 := by
    rw [entered, State.apply_thread, Function.update_self]
  have lt₁ : t < s₁.gCurThreads := by rwa [entered, State.apply_gCurThreads]
  have run₁ : (s₁.thread t).runCounter = (s₀.thread t).runCounter := by rw [own]; rfl
  have running₁ : (s₁.thread t).Running (s₁.thread t).runCounter :=
    .inl ⟨rfl, by rw [own]; rfl⟩
  have running₂ : (s₂.thread t).Running (s₁.thread t).runCounter :=
    .inr ⟨h.same, by rw [h.aborted]; rfl⟩
  obtain ⟨new, nodes, none⟩ := run_running lt₁ running₁ h.ran running₂
  rw [← none]
  constructor
  · rintro ⟨same, -⟩
    rw [same] at nodes
    exact List.self_eq_append_right.mp nodes
  · intro nothing
    refine ⟨by rw [nodes, nothing, List.append_nil], fun bs s₃ ran n mem => ?_⟩
    have unfreed₁ : Unfreed t (s₁.thread t).runCounter s₁ := by
      intro n freed
      have before : s₀.Freed t n := by
        unfold State.Freed at freed ⊢
        rw [own, entered] at freed
        exact freed
      have := (frees.begun t n before).2 (by rw [locking]; rfl)
      omega
    obtain ⟨unfreed₂, lt₂⟩ := run_unfreed lt₁ unfreed₁ (.inr (none.mp nothing)) h.ran
    exact (run_unfreed lt₂ unfreed₂ (.inl (by rw [h.same]; omega)) ran).1 n (.inr mem)

end Run

def Pc.isLocking : Pc → Bool
  | .readerLock .loadCommit => true
  | _ => false

def Pc.isAborted : Pc → Bool
  | .syncCheckpoint .abort => true
  | _ => false

theorem exists_abortedSection [Inhabited ω] (cfg : Config) (t : Nat) (before as : List (Act ω))
    (good : State ω → State ω → Bool) {s : State ω} (start : Init s)
    (h : ((System.run (step cfg) s before).any fun s₀ =>
      (s₀.thread t).pc.isLocking && (step cfg s₀ (.lib t)).any fun s₁ =>
        (System.run (step cfg) s₁ as).any fun s₂ => (s₂.thread t).pc.isAborted &&
          decide ((s₂.thread t).runCounter = (s₁.thread t).runCounter + 1) && good s₁ s₂) = true) :
    ∃ s₁ s₂, AbortedSection cfg t s₁ as s₂ ∧ good s₁ s₂ = true := by
  simp only [Option.any_eq_true_iff_get, Bool.and_eq_true, decide_eq_true_eq] at h
  obtain ⟨some₀, locking, some₁, some₂, ⟨aborted, same⟩, found⟩ := h
  refine ⟨_, _, ⟨⟨_, ?_, ?_, (Option.some_get some₁).symm⟩, (Option.some_get some₂).symm, same, ?_⟩,
    found⟩
  · exact System.Reachable.follows (.start start)
      (System.follows_true_iff.mpr (Option.some_get some₀).symm)
  · unfold Pc.isLocking at locking
    split at locking
    · assumption
    · cases locking
  · unfold Pc.isAborted at aborted
    split at aborted
    · assumption
    · cases aborted

/-- Thread 0 up to the last step of its first `rlu_reader_lock`. -/
def lockingRun : List (Act Nat) :=
  [.threadInit, .lib 0, .call 0 .readerLock] ++ List.replicate 4 (.lib 0)

def lockAndAbort : List (Act Nat) :=
  [.call 0 (.tryLock (.actual 0))] ++ List.replicate 9 (.lib 0) ++ [.call 0 .abort] ++
  List.replicate 5 (.lib 0)

theorem abort_cancels_frees_locked : ∃ s₁ s₂ : State Nat,
    AbortedSection oneWriteSet 0 s₁ lockAndAbort s₂ ∧
    (s₂.thread 0).freeNodes = (s₁.thread 0).freeNodes := by
  have start : Init (State.init fun _ _ => (0 : Nat)) := ⟨_, rfl⟩
  obtain ⟨s₁, s₂, h, -⟩ := exists_abortedSection oneWriteSet 0 lockingRun lockAndAbort
    (fun _ _ => true) start (by decide +kernel)
  refine ⟨s₁, s₂, h, ((abort_cancels_frees oneWriteSet 0 s₁ s₂ lockAndAbort h).mpr ?_).1⟩
  intro p mem
  simp [lockAndAbort] at mem

/-- A section that frees object 0, locks it and aborts leaves it on the free list. -/
theorem abort_leaves_frees : ¬ ∀ (s₁ s₂ : State Nat) (as : List (Act Nat)),
    AbortedSection oneWriteSet 0 s₁ as s₂ →
    (s₂.thread 0).freeNodes = (s₁.thread 0).freeNodes ∧
      ∀ bs s₃, System.run (step oneWriteSet) s₂ bs = some s₃ →
        ∀ n, (0, n) ∈ s₃.released → n.run ≠ (s₁.thread 0).runCounter := by
  intro claim
  have start : Init (State.init fun _ _ => (0 : Nat)) := ⟨_, rfl⟩
  obtain ⟨s₁, s₂, h, found⟩ := exists_abortedSection oneWriteSet 0 lockingRun
    (.call 0 (.free (.actual 0)) :: lockAndAbort)
    (fun s₁ s₂ => decide ((s₁.thread 0).freeNodes = [] ∧ (s₂.thread 0).freeNodes = [⟨0, 1⟩]))
    start (by decide +kernel)
  obtain ⟨none, left⟩ := of_decide_eq_true found
  have same := (claim s₁ s₂ _ h).1
  rw [none, left] at same
  cases same

end ReadLogUpdate
