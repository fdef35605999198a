import ReadLogUpdate.Rlu.Reading

/-!
# The shortcuts of `rlu_reader_lock`

With `is_check_locks` clear, `RLU_DEREF` returns its argument without a look at the header; with
`is_steal` clear, `rlu_deref_slow_path` does not look at the version of the owner. Neither
changes the result.
-/

namespace ReadLogUpdate

variable {ω : Type}

/-- While a thread is between its load of `g_rlu_writer_version` and its increment, no other
thread steps. -/
def VersionAtomic (s : State ω) (a : Act ω) : Prop :=
  ∀ u < s.gCurThreads, u ≠ a.thread s → (s.thread u).pc.acquiring = false

instance (s : State ω) (a : Act ω) : Decidable (VersionAtomic s a) :=
  inferInstanceAs (Decidable (∀ _, _))

theorem VersionAtomic.noOvertake {s : State ω} {a : Act ω} (h : VersionAtomic s a) :
    NoOvertake s a := by
  cases a with
  | lib t => exact fun _ u lt ne => h u lt ne
  | _ => trivial

section Record
variable {cfg : Config} {t : Nat} {th : Thread ω}

/-- A version is announced before it is drawn at one control point only. -/
theorem Control.fetching {pc : Pc} (h : Control cfg t th pc) (idle : th.flight = none) {v : Nat}
    (shown : th.writerVersion = some v) : ∃ k, pc = .sync k .fetchAdd := by
  have hidden {p : Prop} (none : th.writerVersion = none) : p := by
    rw [none] at shown
    cases shown
  have busy {p : Prop} {u : Nat} (flight : th.flight = some (u + 1)) : p := by
    rw [idle] at flight
    cases flight
  induction pc with
  | failed line pc ih =>
    obtain ⟨k, rfl⟩ := ih h.2.2
    cases h.2.1
  | fault pc ih =>
    obtain ⟨k, rfl⟩ := ih h.2
    cases h.1
  | sync k pc =>
    cases pc with
    | fetchAdd => exact ⟨k, rfl⟩
    | start => exact hidden h.2.2.1
    | loadVersion | storeVersion => exact hidden h.2.2
    | initLoop | initThread | initCounter | waitStart | waitLoop | waitCounter | waitVersion
    | reset => exact busy h.2.1.choose_spec
    | entry => exact busy h.1.2.2.2.2.2.2.1.choose_spec
    | copy | check | unlock => exact busy h.1.2.2.2.2.2.2.1.choose_spec
    | storeMax | commitAdd => exact busy h.2.2.1.choose_spec
    | loadSync | storeSync | freeCheck | free => exact hidden h.1.2.2.2
  | init | idle | finished => exact hidden h.2.2.2
  | inSection | mustAbort | deref | writerLock => exact hidden h.2.2.2.1
  | syncCheckpoint => exact hidden h.1.2.2.2
  | tryLock => exact hidden h.1.2.2.2.1
  | readerLock q =>
    cases q with
    | register => exact hidden h.1.2.2.2
    | _ => exact hidden h.1.2.2.2.1
  | readerUnlock => exact hidden h.1.2.2.2
  | abort q =>
    cases q with
    | start => exact hidden h.1.2.2.2
    | _ => exact hidden h.1.2.2.2
  | release r q =>
    cases r with
    | abortWrite => exact hidden h.2.2.2
    | _ => exact hidden h.1.2.2.2

theorem Control.inside {pc : Pc} (h : Control cfg t th pc) (odd : th.runCounter % 2 = 1) :
    th.Inside cfg ∧ (pc.wbPos = fun wb => (wb, 0)) ∧
    (0 < pc.extra → th.isWriteDetected = true) := by
  have out {p : Prop} (even : th.runCounter % 2 = 0) : p := by omega
  induction pc with
  | failed line pc ih => exact ih h.2.2
  | fault pc ih => exact ih h.2
  | sync k pc =>
    cases pc with
    | start | storeMax | commitAdd => exact out h.1
    | _ => exact out h.1.1
  | init | idle | finished => exact out h.1
  | inSection | mustAbort | deref | writerLock => exact ⟨h, rfl, nofun⟩
  | syncCheckpoint => exact out h.1.1
  | tryLock q =>
    refine ⟨h.1, rfl, fun extra => ?_⟩
    cases q with
    | copy o w => exact h.2.1
    | _ => cases extra
  | readerLock q =>
    cases q with
    | register => exact out h.1.1
    | _ => exact ⟨h.1, rfl, nofun⟩
  | readerUnlock => exact out h.1.1
  | abort q => cases q <;> exact out h.1.1
  | release r q =>
    cases r with
    | abortWrite => exact out h.1
    | _ => exact out h.1.1

/-- With `is_check_locks` clear, a section holds no lock, of its own or of earlier sections. -/
theorem ThreadOk.not_live_of_unchecked (h : ThreadOk cfg t th) (odd : th.runCounter % 2 = 1)
    (unchecked : th.isCheckLocks = false) (ctr i : Nat) : ¬ th.Live ctr i := by
  obtain ⟨⟨-, -, -, -, num, check⟩, -, extra⟩ := h.control.inside odd
  obtain ⟨write, drained⟩ := check unchecked
  intro live
  have ge := h.live_ge live
  obtain ⟨-, ⟨lt, -⟩ | ⟨rfl, lt, -⟩⟩ := live
  · omega
  · have none := num write
    rw [Thread.cur, h.curId] at none
    have zero : th.pc.extra = 0 := by
      by_contra pos
      have := extra (Nat.pos_of_ne_zero pos)
      rw [write] at this
      cases this
    omega

end Record

section State
variable [Inhabited ω] {cfg : Config} {s : State ω} {t : Nat}

/-- Where no older write set is in flight, the owner of a lock shows no version up to `l`. -/
theorem Sound.lt_of_shown (sound : Sound cfg s) {l o v : Nat} {c : CopyAddr} (none : NoOlder s l)
    (le : l ≤ s.gWriterVersion) (held : s.hdr o = .copy c)
    (shown : (s.thread c.owner).writerVersion = some v) : l < v := by
  have h := sound.wf.threads c.owner
  obtain ⟨ctr, live, -⟩ := sound.locks.logged o c held
  cases flight : (s.thread c.owner).flight with
  | some v' =>
    obtain rfl := Option.some.inj ((h.writerVersion_of_live flight live).symm.trans shown)
    exact none c.owner v' flight
  | none =>
    obtain ⟨k, hpc⟩ := h.control.fetching flight shown
    have acquires := sound.grace.acquires c.owner
    unfold Thread.Acquires at acquires
    rw [hpc] at acquires
    obtain rfl := Option.some.inj (acquires.symm.trans shown)
    exact Nat.lt_succ_of_le le

/-- The copy of `o` if thread `t` has it locked, else `o` itself. -/
def State.ownOrActual (s : State ω) (t o : Nat) : Ptr :=
  match s.hdr o with
  | .copy c => if c.owner = t then .copy c else .actual o
  | _ => .actual o

/-- Where no older write set is in flight, there is nothing to steal. -/
theorem Sound.slowPath_actual (sound : Sound cfg s) {l o : Nat} (none : NoOlder s l)
    (version : (s.thread t).localVersion = l) (le : l ≤ s.gWriterVersion) (isSteal : Bool) :
    rluDerefSlowPath s t isSteal (.actual o) = s.ownOrActual t o := by
  simp only [rluDerefSlowPath, State.getCopy, State.ownOrActual]
  cases held : s.hdr o with
  | null | ptrIdObjCopy => rfl
  | copy c =>
    have id := (sound.locks.copy_of_held sound.wf held).1
    dsimp only
    rw [id]
    refine ite_congr rfl (fun _ => rfl) fun other => ?_
    cases isSteal with
    | false => rfl
    | true =>
      rw [if_pos rfl]
      cases shown : (s.thread c.owner).writerVersion with
      | none => rfl
      | some v =>
        have := sound.lt_of_shown none le held shown
        exact if_neg (by omega)

/-- The two flags of a section are pure optimisations: with `is_check_locks` clear the slow path
would return every actual object as the fast path does, and with `is_steal` clear it returns
what it would with `is_steal` set. -/
theorem shortcuts_pure (cfg : Config) (s : State ω)
    (h : System.Reachable Init (step cfg) (fun s a => VersionAtomic s a ∧ RightSlot s a) s)
    (t : Nat) (inside : (s.thread t).runCounter % 2 = 1)
    (returned : (s.thread t).pc.kind ≠ .readerLock) :
    ((s.thread t).isCheckLocks = false →
      ∀ o, rluDerefSlowPath s t true (.actual o) = .actual o) ∧
    ((s.thread t).isSteal = false →
      ∀ p, rluDerefSlowPath s t false p = rluDerefSlowPath s t true p) := by
  have orderly (s : State ω) (a : Act ω) (ok : VersionAtomic s a ∧ RightSlot s a) : Orderly s a :=
    ⟨ok.2, ok.1.noOvertake⟩
  have sound := reachable_sound orderly h
  have reading := reachable_reading orderly h
  have version : (s.thread t).sectionVersion = some (s.thread t).localVersion := by
    rw [Thread.sectionVersion_of_kind returned, if_pos inside]
  have le := (sound.grace.section_le t _ version).2
  have flags := reading.flags t _ version returned
  refine ⟨fun unchecked o => ?_, fun noSteal p => ?_⟩
  · rw [sound.slowPath_actual (flags (.inr unchecked)) rfl le true]
    unfold State.ownOrActual
    split
    · rename_i c held
      refine if_neg ?_
      rintro rfl
      obtain ⟨ctr, live, -⟩ := sound.locks.logged o c held
      exact (sound.wf.threads c.owner).not_live_of_unchecked inside unchecked ctr c.idx live
    · rfl
  · cases p with
    | null => rfl
    | actual o =>
      rw [sound.slowPath_actual (flags (.inl noSteal)) rfl le,
        sound.slowPath_actual (flags (.inl noSteal)) rfl le]
    | copy c =>
      simp only [rluDerefSlowPath, State.getCopy]
      cases copy : (s.wsObj c).pObjCopy with
      | null | ptrIdObjCopy => rfl
      | copy c' => exact absurd copy (reachable_unchained (fun s a ok => (orderly s a ok).1) h c c')

end State

/-- A thread alone in a section takes both shortcuts. -/
theorem shortcuts_pure_alone : ∃ s : State Nat,
    System.Reachable Init (step oneWriteSet) (fun s a => VersionAtomic s a ∧ RightSlot s a) s ∧
    (∀ o, rluDerefSlowPath s 0 true (.actual o) = .actual o) ∧
    ∀ p, rluDerefSlowPath s 0 false p = rluDerefSlowPath s 0 true p := by
  have reached : ((System.run (System.guarded (step oneWriteSet)
      fun s a => VersionAtomic s a ∧ RightSlot s a) (State.init fun _ _ => 0)
      ([.threadInit, .lib 0, .call 0 .readerLock] ++ List.replicate 5 (.lib 0))).any fun s =>
        decide ((s.thread 0).runCounter % 2 = 1) && decide ((s.thread 0).pc.kind ≠ .readerLock) &&
        !(s.thread 0).isCheckLocks && !(s.thread 0).isSteal) = true := by
    decide +kernel
  have start : Init (State.init fun _ _ => (0 : Nat)) := ⟨_, rfl⟩
  obtain ⟨s, h, facts⟩ := System.exists_reachable start reached
  simp only [Bool.and_eq_true, decide_eq_true_eq, Bool.not_eq_true'] at facts
  obtain ⟨⟨⟨inside, returned⟩, unchecked⟩, noSteal⟩ := facts
  obtain ⟨fast, same⟩ := shortcuts_pure oneWriteSet s h 0 inside returned
  exact ⟨s, h, fast unchecked, same noSteal⟩

end ReadLogUpdate
