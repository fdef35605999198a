import Mathlib.Data.Finset.Range
import ReadLogUpdate.VersionClock
import ReadLogUpdate.Rlu.LogStep
import ReadLogUpdate.Rlu.Section

/-!
# Versions and grace periods

The two global counters are a version clock. A sync waits until every section with a smaller
version has ended, so past its wait no such section runs, and none starts.
-/

namespace ReadLogUpdate

open VersionClock

variable {ω : Type}

def Thread.sectionVersion (th : Thread ω) : Option Nat :=
  match th.pc with
  | .readerLock .loadVersion => none
  | .readerLock (.storeVersion v) => some v
  | _ => if th.runCounter % 2 = 1 then some th.localVersion else none

def State.clock (s : State ω) : Clock Nat :=
  ⟨s.gWriterVersion, s.gCommitVersion, fun t => (s.thread t).flight⟩

/-! ### The acquisition of a version -/

def Pc.isFetchAdd : Pc → Bool
  | .sync _ .fetchAdd => true
  | _ => false

/-- No increment of `g_rlu_writer_version` falls between another thread's load and its
increment. -/
def NoOvertake (s : State ω) : Act ω → Prop
  | .lib t => (s.thread t).pc.isFetchAdd = true →
      ∀ u < s.gCurThreads, u ≠ t → (s.thread u).pc.acquiring = false
  | _ => True

instance (s : State ω) (a : Act ω) : Decidable (NoOvertake s a) :=
  match a with
  | .lib _ => inferInstanceAs (Decidable (_ → _))
  | .call _ _ | .threadInit => inferInstanceAs (Decidable True)

def Thread.Acquires (th : Thread ω) (g : Nat) : Prop :=
  match th.pc with
  | .sync _ (.storeVersion v) => v = g
  | .sync _ .fetchAdd => th.writerVersion = some (g + 1)
  | _ => True

theorem Thread.acquires_of_not {th : Thread ω} {n : Nat} (idle : th.pc.acquiring = false) :
    th.Acquires n := by
  unfold Thread.Acquires
  split
  · rename_i hpc
    rw [hpc] at idle
    cases idle
  · rename_i hpc
    rw [hpc] at idle
    cases idle
  · trivial

/-! ### The wait -/

/-- The entry makes the sync wait for the section at `run`. -/
def WaitEntry.Marks (q : WaitEntry) (run : Nat) : Prop := q.isWait = true ∧ q.runCounter = run

/-- What the sync of a thread knows of thread `r`, whose older section is at `run`. -/
def Pc.Guards (pc : Pc) (r : Nat) (q : WaitEntry) (run : Nat) : Prop :=
  match pc with
  | .sync _ (.initLoop u) | .sync _ (.initThread u) | .sync _ (.initCounter u) =>
    r < u → q.Marks run
  | .sync _ .waitStart => q.Marks run
  | .sync _ (.waitLoop n u) | .sync _ (.waitCounter n u) | .sync _ (.waitVersion n u) =>
    u ≤ r ∧ r < n ∧ q.Marks run
  | .fault pc => pc.Guards r q run
  | _ => False

/-- The sync of `w`, if its version is above that of the section `r` is in, still waits. -/
def Guarded (w : Thread ω) (r : Nat) (th : Thread ω) : Prop :=
  ∀ v l, w.flight = some v → th.sectionVersion = some l → l < v →
    w.pc.Guards r (w.qThreads r) th.runCounter

structure Grace (s : State ω) : Prop where
  clock : s.clock.Ok (Finset.range s.gCurThreads)
  acquires : ∀ t, (s.thread t).Acquires s.gWriterVersion
  registered : ∀ t, (s.thread t).pc.under.kind ≠ .init → s.gThreads t = true
  local_le : ∀ r, (s.thread r).localVersion ≤ s.gWriterVersion
  section_le : ∀ r l, (s.thread r).sectionVersion = some l →
    (s.thread r).localVersion ≤ l ∧ l ≤ s.gWriterVersion
  counts : ∀ r l, (s.thread r).sectionVersion = some l →
    s.clock.Counts (Finset.range s.gCurThreads) l
  guarded : ∀ w r, r ≠ w → Guarded (s.thread w) r (s.thread r)

section Record
variable {cfg : Config} {t : Nat} {s : State ω} {th : Thread ω}

theorem Thread.sectionVersion_of_kind (kind : th.pc.kind ≠ .readerLock) :
    th.sectionVersion = if th.runCounter % 2 = 1 then some th.localVersion else none := by
  unfold Thread.sectionVersion
  cases hpc : th.pc with
  | readerLock q =>
    rw [hpc] at kind
    exact absurd rfl kind
  | _ => rfl

theorem ThreadOk.odd_of_version (h : ThreadOk cfg t th) {l : Nat}
    (version : th.sectionVersion = some l) : th.runCounter % 2 = 1 := by
  have control := h.control
  unfold Thread.sectionVersion at version
  split at version
  · cases version
  · rename_i v hpc
    rw [hpc] at control
    exact control.1.1
  · split_ifs at version with odd
    exact odd

/-- A step keeps the version of its thread's section, loads it, or ends the section. -/
theorem SectionStep.version {e : Effect ω} (h : ThreadOk cfg t th) (step : SectionStep s t th e) :
    e.1.sectionVersion = none ∧ e.1.localVersion = th.localVersion ∨
    e.1.sectionVersion = some s.gWriterVersion ∧ e.1.localVersion = th.localVersion ∧
      th.pc = .readerLock .loadVersion ∨
    e.1.sectionVersion = th.sectionVersion ∧ e.1.runCounter = th.runCounter ∧
      (e.1.localVersion = th.localVersion ∨ e.1.sectionVersion = some e.1.localVersion) := by
  cases step with
  | same run version steal check derefs notLocking notLocking' =>
    refine .inr (.inr ⟨?_, run, .inl version⟩)
    rw [Thread.sectionVersion_of_kind notLocking, Thread.sectionVersion_of_kind notLocking', run,
      version]
  | outside even run version locking =>
    refine .inl ⟨?_, version⟩
    have even' : ¬ e.1.runCounter % 2 = 1 := by omega
    by_cases kind : e.1.pc.kind = .readerLock
    · unfold Thread.sectionVersion
      rw [locking kind]
      exact if_neg even'
    · rw [Thread.sectionVersion_of_kind kind, if_neg even']
  | register pc effect =>
    subst effect
    exact .inl ⟨rfl, rfl⟩
  | loadVersion pc effect =>
    subst effect
    exact .inr (.inl ⟨rfl, rfl, pc⟩)
  | storeVersion v pc effect =>
    subst effect
    have odd : th.runCounter % 2 = 1 := by
      have control := h.control
      rw [pc] at control
      exact control.1.1
    have now : Thread.sectionVersion { th with localVersion := v, pc := .readerLock .loadCommit } =
        some v := if_pos odd
    refine .inr (.inr ⟨now.trans ?_, rfl, .inr now⟩)
    unfold Thread.sectionVersion
    rw [pc]
  | loadCommit pc effect =>
    subst effect
    refine .inr (.inr ⟨?_, rfl, .inl rfl⟩)
    unfold Thread.sectionVersion
    rw [pc]
    rfl
  | deref p r effect source =>
    subst effect
    refine .inr (.inr ⟨?_, rfl, .inl rfl⟩)
    have kind : th.pc.kind ≠ .readerLock := by
      rcases source with ⟨pc, -⟩ | ⟨q, pc, -⟩ <;> rw [pc] <;> nofun
    have kind' : (derefReturn th p r).1.pc.kind ≠ .readerLock := nofun
    rw [Thread.sectionVersion_of_kind kind, Thread.sectionVersion_of_kind kind']
    rfl
  | leave odd run version pc =>
    refine .inl ⟨?_, version⟩
    rw [Thread.sectionVersion_of_kind pc, if_neg (by omega)]

/-- What a step does to the clock: the two `FETCH_AND_ADD`s of a sync. -/
theorem LogStep.clock {s' : State ω} {th' : Thread ω} (acquires : th.Acquires s.gWriterVersion)
    (hth : s.thread t = th) (thread : s'.thread = Function.update s.thread t th')
    (step : LogStep cfg t s s' th th') :
    s'.clock = s.clock ∧ th'.flight = th.flight ∨
    (∃ k, th.pc = .sync k .fetchAdd) ∧ s'.clock = s.clock.draw t ∧
      th'.pc.kind ≠ .readerLock ∧ th'.pc.acquiring = false ∨
    (∃ k, th.pc = .sync k .commitAdd) ∧ s'.clock = s.clock.report t := by
  have flights (same : th'.flight = th.flight) :
      (fun u => (s'.thread u).flight) = fun u => (s.thread u).flight := by
    funext u
    rw [thread]
    by_cases e : u = t
    · subst e
      rw [Function.update_self, same, hth]
    · rw [Function.update_of_ne e]
  have unchanged (same : th'.flight = th.flight) (writer : s'.gWriterVersion = s.gWriterVersion)
      (commit : s'.gCommitVersion = s.gCommitVersion) :
      s'.clock = s.clock ∧ th'.flight = th.flight :=
    ⟨by unfold State.clock; rw [flights same, writer, commit], same⟩
  have updated (v : Option Nat) (here : th'.flight = v) :
      (fun u => (s'.thread u).flight) = Function.update (fun u => (s.thread u).flight) t v := by
    funext u
    rw [thread]
    by_cases e : u = t
    · subst e
      rw [Function.update_self, Function.update_self, here]
    · rw [Function.update_of_ne e, Function.update_of_ne e]
  cases step with
  | quiet objects log flight => exact .inl (unchanged flight objects.writerVersion objects.commitVersion)
  | write ws objects window log live actual owned strict flight flight' =>
    exact .inl (unchanged (flight'.trans flight.symm) objects.writerVersion objects.commitVersion)
  | lock o pc free record state =>
    subst record state
    exact .inl (unchanged rfl rfl rfl)
  | commit pc' pc detected next record state =>
    subst record state
    exact .inl (unchanged rfl rfl rfl)
  | abortUnlock i pc record state =>
    subst record state
    exact .inl (unchanged rfl rfl rfl)
  | publish k pc record state =>
    refine .inr (.inl ⟨⟨k, pc⟩, ?_, by rw [record]; nofun, by rw [record]; rfl⟩)
    unfold Thread.Acquires at acquires
    rw [pc] at acquires
    have here : th'.flight = some (s.gWriterVersion + 1) := by rw [record]; exact acquires
    subst state
    show Clock.mk _ _ (fun u => ((s.apply t th' .addWriterVersion).thread u).flight) = _
    rw [updated _ here]
    rfl
  | recycle k pc record state =>
    subst record state
    exact .inl (unchanged rfl rfl rfl)
  | writeWord k ctr i w pc bound record state =>
    subst record state
    exact .inl (unchanged rfl rfl rfl)
  | unlock k ctr i pc record state =>
    subst record state
    exact .inl (unchanged rfl rfl rfl)
  | finishWb k pc record state =>
    subst record state
    exact .inl (unchanged rfl rfl rfl)
  | commitVersion k pc record state =>
    refine .inr (.inr ⟨⟨k, pc⟩, ?_⟩)
    have here : th'.flight = none := by rw [record]
    subst state
    show Clock.mk _ _ (fun u => ((s.apply t th' .addCommitVersion).thread u).flight) = _
    rw [updated _ here]
    rfl

theorem syncStep_acquires {k : Caller} {pc : SyncPc} (hpc : th.pc = .sync k pc)
    (acquires : th.Acquires s.gWriterVersion) :
    (syncStep cfg s t th k pc).1.Acquires s.gWriterVersion := by
  unfold Thread.Acquires at acquires
  rw [hpc] at acquires
  cases pc with
  | loadVersion => exact rfl
  | storeVersion v =>
    obtain rfl : v = s.gWriterVersion := acquires
    exact rfl
  | start =>
    simp only [syncStep]
    split_ifs
    · unfold Thread.Acquires
      split
      · rename_i e
        cases afterSync_start k e
      · rename_i e
        cases afterSync_start k e
      · trivial
    · trivial
    · trivial
  | freeCheck i =>
    simp only [syncStep]
    repeat' split
    · trivial
    · trivial
    · unfold Thread.Acquires
      split
      · rename_i e
        cases afterSync_start k e
      · rename_i e
        cases afterSync_start k e
      · trivial
  | _ =>
    simp only [syncStep]
    (repeat' split) <;> trivial

theorem actEffect_acquires {a : Act ω} {e : Effect ω} (act : ActEffect cfg s a t e)
    (acquires : (s.thread t).Acquires s.gWriterVersion) : e.1.Acquires s.gWriterVersion := by
  have from_sync {k : Caller} {q : SyncPc} (hpc : (s.thread t).pc = .sync k q) :
      e.1.Acquires s.gWriterVersion := by
    rcases act with ⟨op, -, called⟩ | ⟨-, stepped⟩
    · rw [hpc] at called
      cases called
    · rw [hpc] at stepped
      obtain rfl := Option.some.inj stepped
      exact syncStep_acquires hpc acquires
  cases hpc : e.1.pc with
  | sync k q =>
    rcases actEffect_start act hpc with rfl | ⟨k', q', from_⟩
    · unfold Thread.Acquires
      rw [hpc]
      trivial
    · exact from_sync from_
  | _ =>
    unfold Thread.Acquires
    rw [hpc]
    trivial

/-- The scan and the wait do not lose a thread whose section is older than the sync. -/
theorem syncStep_guards {k : Caller} {pc : SyncPc} (h : ThreadOk cfg t th)
    (hpc : th.pc = .sync k pc) {r v : Nat} (ne : r ≠ t) (lt : r < s.gCurThreads)
    (registered : s.gThreads r = true) (odd : (s.thread r).runCounter % 2 = 1)
    (flight : th.flight = some v) (older : (s.thread r).localVersion < v)
    (guards : (Pc.sync k pc).Guards r (th.qThreads r) (s.thread r).runCounter) :
    (syncStep cfg s t th k pc).1.pc.Guards r ((syncStep cfg s t th k pc).1.qThreads r)
      (s.thread r).runCounter := by
  have control := h.control
  rw [hpc] at control
  have other {u : Nat} (q : WaitEntry) (e : r ≠ u) :
      Function.update th.qThreads u q r = th.qThreads r := Function.update_of_ne e _ _
  cases pc with
  | start => exact guards.elim
  | loadVersion | storeVersion | fetchAdd => exact guards.elim
  | initLoop u =>
    simp only [syncStep]
    split_ifs with more valid own
    · intro lt'
      have e : r ≠ u := by omega
      show WaitEntry.Marks (Function.update th.qThreads u _ r) _
      rw [other _ e]
      exact guards (by omega)
    · intro lt'
      show WaitEntry.Marks (Function.update th.qThreads u _ r) _
      rw [other _ (Nat.ne_of_lt lt')]
      exact guards lt'
    · show th.pc.Guards r (th.qThreads r) _
      rwa [hpc]
    · exact guards (by omega)
  | initThread u =>
    simp only [syncStep]
    split_ifs with set
    · exact guards
    · intro lt'
      have e : r ≠ u := by
        rintro rfl
        exact set registered
      exact guards (by omega)
  | initCounter u =>
    intro lt'
    show WaitEntry.Marks (Function.update th.qThreads u _ r) _
    by_cases e : r = u
    · subst e
      rw [Function.update_self]
      exact ⟨by simpa using odd, rfl⟩
    · rw [other _ e]
      exact guards (by omega)
  | waitStart => exact ⟨Nat.zero_le r, lt, guards⟩
  | waitLoop n u =>
    obtain ⟨ge, lt', wait, run⟩ := guards
    simp only [syncStep]
    split_ifs with more valid waits
    · exact ⟨ge, lt', wait, run⟩
    · have e : r ≠ u := by
        rintro rfl
        exact waits wait
      exact ⟨by omega, lt', wait, run⟩
    · show th.pc.Guards r (th.qThreads r) _
      rw [hpc]
      exact ⟨ge, lt', wait, run⟩
    · omega
  | waitCounter n u =>
    obtain ⟨ge, lt', wait, run⟩ := guards
    simp only [syncStep]
    split_ifs with moved
    · have e : r ≠ u := by
        rintro rfl
        exact moved run
      show u + 1 ≤ r ∧ r < n ∧ WaitEntry.Marks (Function.update th.qThreads u _ r) _
      rw [other _ e]
      exact ⟨by omega, lt', wait, run⟩
    · exact ⟨ge, lt', wait, run⟩
  | waitVersion n u =>
    obtain ⟨ge, lt', wait, run⟩ := guards
    have writer : th.writerVersion = some v := by rw [control.2.2, flight]
    simp only [syncStep, writer]
    split_ifs with passed
    · have e : r ≠ u := by
        rintro rfl
        omega
      show u + 1 ≤ r ∧ r < n ∧ WaitEntry.Marks (Function.update th.qThreads u _ r) _
      rw [other _ e]
      exact ⟨by omega, lt', wait, run⟩
    · exact ⟨ge, lt', wait, run⟩
  | _ => exact guards.elim

end Record

/-! ### The invariant over runs -/

/-- Past its wait, a sync has no older section beside it. -/
theorem Grace.le_of_waited {s : State ω} (g : Grace s) {w r v l : Nat} (ne : r ≠ w)
    (flight : (s.thread w).flight = some v) (version : (s.thread r).sectionVersion = some l)
    (waited : ¬ (s.thread w).pc.Guards r ((s.thread w).qThreads r) (s.thread r).runCounter) :
    v ≤ l := by
  by_contra lt
  exact waited (g.guarded w r ne v l flight version (Nat.lt_of_not_le lt))

theorem State.apply_gWriterVersion (s : State ω) (t : Nat) (th : Thread ω) (w : Write ω) :
    s.gWriterVersion ≤ (s.apply t th w).gWriterVersion := by
  cases w with
  | addWriterVersion => exact Nat.le_succ _
  | _ => exact Nat.le_refl _

theorem State.apply_gThreads (s : State ω) (t : Nat) (th : Thread ω) (w : Write ω) {u : Nat}
    (set : s.gThreads u = true) : (s.apply t th w).gThreads u = true := by
  cases w with
  | register =>
    show Function.update s.gThreads t true u = true
    by_cases e : u = t
    · rw [e, Function.update_self]
    · rwa [Function.update_of_ne e]
  | _ => exact set

section Preserve
variable [Inhabited ω] {cfg : Config} {s : State ω}

theorem init_grace (h : Init s) : Grace s := by
  obtain ⟨obj, rfl⟩ := h
  have none (r : Nat) {l : Nat} : (Thread.init : Thread ω).sectionVersion ≠ some l := by
    unfold Thread.sectionVersion
    nofun
  exact {
    clock := ⟨fun _ _ e => (by cases e), rfl⟩
    acquires := fun _ => trivial
    registered := fun _ e => absurd rfl e
    local_le := fun _ => Nat.le_refl _
    section_le := fun r _ e => absurd e (none r)
    counts := fun r _ e => absurd e (none r)
    guarded := fun _ _ _ _ _ e => (by cases e) }

theorem threadInit_grace (wf : WellFormed cfg s) (g : Grace s) :
    Grace { s with
      gCurThreads := s.gCurThreads + 1
      thread := Function.update s.thread s.gCurThreads Thread.init } := by
  rw [wf.threadInit]
  have idle : s.clock.flight s.gCurThreads = none := by
    show (s.thread s.gCurThreads).flight = none
    rw [wf.fresh _ (Nat.le_refl _)]
    rfl
  refine ⟨?_, g.acquires, g.registered, g.local_le, g.section_le, fun r l e => ?_, g.guarded⟩
  · show s.clock.Ok (Finset.range (s.gCurThreads + 1))
    rw [Finset.range_add_one]
    exact g.clock.widen idle
  · show s.clock.Counts (Finset.range (s.gCurThreads + 1)) l
    rw [Finset.range_add_one]
    exact (g.counts r l e).widen idle

theorem WellFormed.lt_of_version (wf : WellFormed cfg s) {r l : Nat}
    (version : (s.thread r).sectionVersion = some l) : r < s.gCurThreads := by
  by_contra ge
  rw [wf.fresh r (Nat.le_of_not_lt ge)] at version
  cases version

omit [Inhabited ω] in
theorem Control.even_of_init {t : Nat} {th : Thread ω} {pc : Pc} (control : Control cfg t th pc)
    (kind : pc.under.kind = .init) : th.runCounter % 2 = 0 := by
  induction pc with
  | init => exact control.1
  | failed line pc ih => exact ih control.2.2 kind
  | fault pc ih => exact ih control.2 kind
  | _ => cases kind

theorem WellFormed.kind_of_version (wf : WellFormed cfg s) {r l : Nat}
    (version : (s.thread r).sectionVersion = some l) : (s.thread r).pc.under.kind ≠ .init := by
  intro kind
  have odd := (wf.threads r).odd_of_version version
  have even := (wf.threads r).control.even_of_init kind
  omega

section Effect
variable {a : Act ω} {t : Nat} {e : Effect ω}

theorem actEffect_clock (wf : WellFormed cfg s) (g : Grace s) (right : RightSlot s a)
    (act : ActEffect cfg s a t e) :
    (s.apply t e.1 e.2).clock = s.clock ∧ e.1.flight = (s.thread t).flight ∨
    (∃ k, (s.thread t).pc = .sync k .fetchAdd) ∧ (s.apply t e.1 e.2).clock = s.clock.draw t ∧
      e.1.pc.kind ≠ .readerLock ∧ e.1.pc.acquiring = false ∨
    (∃ k, (s.thread t).pc = .sync k .commitAdd) ∧
      (s.apply t e.1 e.2).clock = s.clock.report t :=
  (actEffect_log (wf.threads t) right act).clock (g.acquires t) rfl (State.apply_thread s t e.1 e.2)

/-- The sync's two updates of the clock find their thread outside a section. -/
theorem not_version_of_sync (wf : WellFormed cfg s) (right : RightSlot s a)
    (act : ActEffect cfg s a t e) {k : Caller} {q : SyncPc} {l : Nat}
    (hpc : (s.thread t).pc = .sync k q) : e.1.sectionVersion ≠ some l := by
  intro here
  have h := wf.threads t
  have even := h.even_of_sync hpc
  have odd := (actEffect_ok h right act).odd_of_version here
  rcases (actEffect_section h act).version h with ⟨none, -⟩ | ⟨-, -, pc⟩ | ⟨-, run, -⟩
  · rw [none] at here
    cases here
  · rw [pc] at hpc
    cases hpc
  · omega

theorem actEffect_clockOk (wf : WellFormed cfg s) (g : Grace s) (right : RightSlot s a)
    (lt : t < s.gCurThreads) (act : ActEffect cfg s a t e) :
    (s.apply t e.1 e.2).clock.Ok (Finset.range (s.apply t e.1 e.2).gCurThreads) := by
  have control := (wf.threads t).control
  have mem : t ∈ Finset.range s.gCurThreads := Finset.mem_range.mpr lt
  rw [State.apply_gCurThreads]
  rcases actEffect_clock wf g right act with ⟨same, -⟩ | ⟨⟨k, pc⟩, drawn, -⟩ | ⟨⟨k, pc⟩, reported⟩
  · rw [same]
    exact g.clock
  · rw [drawn]
    rw [pc] at control
    exact g.clock.draw mem control.2.1
  · rw [reported]
    rw [pc] at control
    obtain ⟨-, -, ⟨v, flight⟩, -⟩ := control
    exact g.clock.report mem flight

theorem actEffect_acquiring (wf : WellFormed cfg s) (g : Grace s) (right : RightSlot s a)
    (alone : NoOvertake s a) (act : ActEffect cfg s a t e) (u : Nat) :
    ((s.apply t e.1 e.2).thread u).Acquires (s.apply t e.1 e.2).gWriterVersion := by
  have kept (writer : (s.apply t e.1 e.2).gWriterVersion = s.gWriterVersion) :
      ((s.apply t e.1 e.2).thread u).Acquires (s.apply t e.1 e.2).gWriterVersion := by
    rw [writer, State.apply_thread]
    by_cases eq : u = t
    · subst eq
      rw [Function.update_self]
      exact actEffect_acquires act (g.acquires u)
    · rw [Function.update_of_ne eq]
      exact g.acquires u
  rcases actEffect_clock wf g right act with ⟨same, -⟩ | ⟨⟨k, pc⟩, -, -, idle⟩ | ⟨-, reported⟩
  · exact kept (congrArg Clock.begun same)
  · -- nobody else is between the load and the increment
    apply Thread.acquires_of_not
    rw [State.apply_thread]
    by_cases eq : u = t
    · subst eq
      rw [Function.update_self]
      exact idle
    · rw [Function.update_of_ne eq]
      by_cases lt : u < s.gCurThreads
      · rcases act with ⟨op, -, called⟩ | ⟨rfl, -⟩
        · rw [pc] at called
          cases called
        · exact alone (by rw [pc]; rfl) u lt eq
      · rw [wf.fresh u (Nat.le_of_not_lt lt)]
        rfl
  · exact kept (congrArg Clock.begun reported)

omit [Inhabited ω] in
theorem actEffect_registers
    (registered : ∀ u, (s.thread u).pc.under.kind ≠ .init → s.gThreads u = true)
    (act : ActEffect cfg s a t e) {u : Nat}
    (kind : ((s.apply t e.1 e.2).thread u).pc.under.kind ≠ .init) :
    (s.apply t e.1 e.2).gThreads u = true := by
  by_cases eq : u = t
  · subst eq
    by_cases initial : (s.thread u).pc.under.kind = .init
    · rw [State.apply_thread, Function.update_self] at kind
      rcases act with ⟨op, -, called⟩ | ⟨rfl, stepped⟩
      · cases hpc : (s.thread u).pc <;> rw [hpc] at called initial <;>
          first | cases called | cases initial
      · cases hpc : (s.thread u).pc with
        | init =>
          rw [hpc] at stepped
          rcases libStep_init stepped with ⟨-, rfl⟩ | rfl
          · exact Function.update_self _ _ _
          · exact absurd initial kind
        | failed | fault =>
          rw [hpc] at stepped
          cases stepped
        | _ =>
          rw [hpc] at initial
          cases initial
    · exact s.apply_gThreads u e.1 e.2 (registered u initial)
  · rw [State.apply_thread, Function.update_of_ne eq] at kind
    exact s.apply_gThreads t e.1 e.2 (registered u kind)

omit [Inhabited ω] in
theorem actEffect_registered (g : Grace s) (act : ActEffect cfg s a t e) {u : Nat}
    (kind : ((s.apply t e.1 e.2).thread u).pc.under.kind ≠ .init) :
    (s.apply t e.1 e.2).gThreads u = true := actEffect_registers g.registered act kind

theorem actEffect_local_le (wf : WellFormed cfg s) (g : Grace s) (act : ActEffect cfg s a t e)
    (u : Nat) : ((s.apply t e.1 e.2).thread u).localVersion ≤ (s.apply t e.1 e.2).gWriterVersion := by
  refine Nat.le_trans ?_ (s.apply_gWriterVersion t e.1 e.2)
  rw [State.apply_thread]
  by_cases eq : u = t
  · subst eq
    rw [Function.update_self]
    rcases (actEffect_section (wf.threads u) act).version (wf.threads u) with
      ⟨-, same⟩ | ⟨-, same, -⟩ | ⟨kept, -, same | stored⟩
    · exact same ▸ g.local_le u
    · exact same ▸ g.local_le u
    · exact same ▸ g.local_le u
    · exact (g.section_le u _ (kept.symm.trans stored)).2
  · rw [Function.update_of_ne eq]
    exact g.local_le u

theorem actEffect_version_le (wf : WellFormed cfg s) (g : Grace s) (act : ActEffect cfg s a t e)
    {u l : Nat} (here : ((s.apply t e.1 e.2).thread u).sectionVersion = some l) :
    l ≤ s.gWriterVersion := by
  rw [State.apply_thread] at here
  by_cases eq : u = t
  · subst eq
    rw [Function.update_self] at here
    rcases (actEffect_section (wf.threads u) act).version (wf.threads u) with
      ⟨none, -⟩ | ⟨loaded, -, -⟩ | ⟨kept, -, -⟩
    · rw [none] at here
      cases here
    · exact Nat.le_of_eq (Option.some.inj (here.symm.trans loaded))
    · exact (g.section_le u l (kept.symm.trans here)).2
  · rw [Function.update_of_ne eq] at here
    exact (g.section_le u l here).2

theorem actEffect_section_le (wf : WellFormed cfg s) (g : Grace s) (act : ActEffect cfg s a t e)
    {u l : Nat} (here : ((s.apply t e.1 e.2).thread u).sectionVersion = some l) :
    ((s.apply t e.1 e.2).thread u).localVersion ≤ l ∧ l ≤ (s.apply t e.1 e.2).gWriterVersion := by
  have le := actEffect_version_le wf g act here
  refine ⟨?_, Nat.le_trans le (s.apply_gWriterVersion t e.1 e.2)⟩
  rw [State.apply_thread] at here ⊢
  by_cases eq : u = t
  · subst eq
    rw [Function.update_self] at here ⊢
    rcases (actEffect_section (wf.threads u) act).version (wf.threads u) with
      ⟨none, -⟩ | ⟨loaded, same, -⟩ | ⟨kept, -, same | stored⟩
    · rw [none] at here
      cases here
    · obtain rfl := Option.some.inj (loaded.symm.trans here)
      exact same ▸ g.local_le u
    · exact same ▸ (g.section_le u l (kept.symm.trans here)).1
    · exact Nat.le_of_eq (Option.some.inj (stored.symm.trans here))
  · rw [Function.update_of_ne eq] at here ⊢
    exact (g.section_le u l here).1

theorem actEffect_counts (wf : WellFormed cfg s) (g : Grace s) (right : RightSlot s a)
    (lt : t < s.gCurThreads) (act : ActEffect cfg s a t e) {u l : Nat}
    (here : ((s.apply t e.1 e.2).thread u).sectionVersion = some l) :
    (s.apply t e.1 e.2).clock.Counts (Finset.range (s.apply t e.1 e.2).gCurThreads) l := by
  have control := (wf.threads t).control
  have mem : t ∈ Finset.range s.gCurThreads := Finset.mem_range.mpr lt
  rw [State.apply_gCurThreads]
  rw [State.apply_thread] at here
  have outside {k : Caller} {q : SyncPc} (pc : (s.thread t).pc = .sync k q) :
      u ≠ t ∧ (s.thread u).sectionVersion = some l := by
    by_cases eq : u = t
    · subst eq
      rw [Function.update_self] at here
      exact absurd here (not_version_of_sync wf right act pc)
    · rw [Function.update_of_ne eq] at here
      exact ⟨eq, here⟩
  rcases actEffect_clock wf g right act with ⟨same, -⟩ | ⟨⟨k, pc⟩, drawn, -⟩ | ⟨⟨k, pc⟩, reported⟩
  · rw [same]
    by_cases eq : u = t
    · subst eq
      rw [Function.update_self] at here
      rcases (actEffect_section (wf.threads u) act).version (wf.threads u) with
        ⟨none, -⟩ | ⟨loaded, -, -⟩ | ⟨kept, -, -⟩
      · rw [none] at here
        cases here
      · obtain rfl := Option.some.inj (loaded.symm.trans here)
        exact g.clock.counts
      · exact g.counts u l (kept.symm.trans here)
    · rw [Function.update_of_ne eq] at here
      exact g.counts u l here
  · obtain ⟨ne, version⟩ := outside pc
    rw [drawn]
    rw [pc] at control
    exact (g.counts u l version).draw control.2.1 (g.section_le u l version).2
  · obtain ⟨ne, version⟩ := outside pc
    rw [reported]
    rw [pc] at control
    obtain ⟨-, -, ⟨v, flight⟩, -⟩ := control
    exact (g.counts u l version).report mem flight
      (g.le_of_waited ne flight version (by rw [pc]; exact id))

theorem actEffect_guarded (wf : WellFormed cfg s) (g : Grace s) (right : RightSlot s a)
    (act : ActEffect cfg s a t e) {w r : Nat} (ne : r ≠ w) :
    Guarded ((s.apply t e.1 e.2).thread w) r ((s.apply t e.1 e.2).thread r) := by
  intro v l flight here older
  rw [State.apply_thread] at flight here ⊢
  by_cases eqw : w = t
  · -- the thread that syncs takes the step
    subst eqw
    rw [Function.update_self] at flight ⊢
    rw [Function.update_of_ne ne] at here ⊢
    rcases actEffect_clock wf g right act with ⟨-, same⟩ | ⟨⟨k, pc⟩, -⟩ | ⟨⟨k, pc⟩, reported⟩
    · rw [same] at flight
      have guards := g.guarded w r ne v l flight here older
      rcases act with ⟨op, -, called⟩ | ⟨-, stepped⟩
      · cases hpc : (s.thread w).pc <;> rw [hpc] at called guards <;>
          first | cases called | exact guards.elim
      · cases hpc : (s.thread w).pc with
        | sync k pc =>
          rw [hpc] at stepped guards
          obtain rfl := Option.some.inj stepped
          exact syncStep_guards (wf.threads w) hpc ne (wf.lt_of_version here)
            (g.registered r (wf.kind_of_version here)) ((wf.threads r).odd_of_version here) flight
            (Nat.lt_of_le_of_lt (g.section_le r l here).1 older) guards
        | fault =>
          rw [hpc] at stepped
          cases stepped
        | _ =>
          rw [hpc] at guards
          exact guards.elim
    · rcases act with ⟨op, -, called⟩ | ⟨-, stepped⟩
      · rw [pc] at called
        cases called
      · rw [pc] at stepped
        obtain rfl := Option.some.inj stepped
        exact fun lt => absurd lt (Nat.not_lt_zero r)
    · rcases act with ⟨op, -, called⟩ | ⟨-, stepped⟩
      · rw [pc] at called
        cases called
      · rw [pc] at stepped
        obtain rfl := Option.some.inj stepped
        cases flight
  · rw [Function.update_of_ne eqw] at flight ⊢
    by_cases eqr : r = t
    · subst eqr
      rw [Function.update_self] at here ⊢
      rcases (actEffect_section (wf.threads r) act).version (wf.threads r) with
        ⟨none, -⟩ | ⟨loaded, -, -⟩ | ⟨kept, run, -⟩
      · rw [none] at here
        cases here
      · -- a section that starts now has every version drawn so far
        obtain rfl := Option.some.inj (loaded.symm.trans here)
        have := g.clock.flight_le w v flight
        exact absurd older (Nat.not_lt.mpr this)
      · rw [run]
        exact g.guarded w r ne v l flight (kept.symm.trans here) older
    · rw [Function.update_of_ne eqr] at here ⊢
      exact g.guarded w r ne v l flight here older

end Effect

theorem step_grace {s' : State ω} {a : Act ω} (wf : WellFormed cfg s) (g : Grace s)
    (right : RightSlot s a) (alone : NoOvertake s a) (hs : step cfg s a = some s') : Grace s' := by
  rcases step_cases hs with ⟨rfl, rfl⟩ | ⟨t, e, lt, act, rfl⟩
  · exact threadInit_grace wf g
  · exact {
      clock := actEffect_clockOk wf g right lt act
      acquires := actEffect_acquiring wf g right alone act
      registered := fun _ => actEffect_registered g act
      local_le := actEffect_local_le wf g act
      section_le := fun _ _ => actEffect_section_le wf g act
      counts := fun _ _ => actEffect_counts wf g right lt act
      guarded := fun _ _ => actEffect_guarded wf g right act }

end Preserve

/-- Versions are acquired one thread at a time, and aborts find their write set. -/
def Orderly (s : State ω) (a : Act ω) : Prop := RightSlot s a ∧ NoOvertake s a

instance (s : State ω) (a : Act ω) : Decidable (Orderly s a) := inferInstanceAs (Decidable (_ ∧ _))

theorem reachable_grace [Inhabited ω] {cfg : Config} {ok : State ω → Act ω → Prop}
    (orderly : ∀ s a, ok s a → Orderly s a) {s : State ω}
    (h : System.Reachable Init (step cfg) ok s) : Grace s :=
  System.Reachable.invariant_of Grace
    (fun _ => reachable_wellFormed fun s a hok => (orderly s a hok).1) (fun _ => init_grace)
    (fun s a _ wf _ g hok hs => step_grace wf g (orderly s a hok).1 (orderly s a hok).2 hs) h

end ReadLogUpdate
