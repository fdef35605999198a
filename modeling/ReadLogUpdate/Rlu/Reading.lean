import ReadLogUpdate.Rlu.Grace
import ReadLogUpdate.Rlu.Ownership

/-!
# What a section reads

A section with version `l` must not use an object in place when a write set published at or
before `l` has it locked. No such lock appears during the section, and `RLU_DEREF` returns the
actual object only when there is none.
-/

namespace ReadLogUpdate

variable {ω : Type}

/-! ### Entries -/

/-- Ids in a log only become the owner's, and entries never point at a copy. -/
theorem LogStep.owned {cfg : Config} {t : Nat} {s s' : State ω} {th th' : Thread ω}
    (step : LogStep cfg t s s' th th') (slot : Nat) :
    (th'.objWriteSet slot).Owned t (th.objWriteSet slot) := by
  have same (log : th'.objWriteSet = th.objWriteSet) :
      (th'.objWriteSet slot).Owned t (th.objWriteSet slot) := by
    rw [log]
    exact .refl _ t
  cases step with
  | quiet objects log => exact same log.log
  | write ws objects window log live actual owned =>
    rw [log]
    by_cases e : slot = th.wsCurId
    · subst e
      rw [Function.update_self]
      exact owned
    · rw [Function.update_of_ne e]
      exact .refl _ t
  | recycle k pc record state =>
    subst record
    obtain ⟨log, eq, spec⟩ := rluResetWriteSets_eq th th.wsHeadCounter
      (th.wsWbCounter - th.wsHeadCounter)
    dsimp only
    rw [eq]
    rcases spec slot with ⟨-, e⟩ | ⟨-, e⟩
    · dsimp only
      rw [e]
      exact .refl (th.objWriteSet slot) t
    · dsimp only
      rw [e]
      exact .refl _ t
  | lock o pc free record => exact same (by rw [record])
  | commit pc' pc detected next record => exact same (by rw [record])
  | abortUnlock i pc record => exact same (by rw [record])
  | publish k pc record => exact same (by rw [record])
  | writeWord k ctr i w pc bound record => exact same (by rw [record])
  | unlock k ctr i pc record => exact same (by rw [record])
  | finishWb k pc record => exact same (by rw [record])
  | commitVersion k pc record => exact same (by rw [record])

/-- A version in flight is shown until the write-back is over, and the current write set is
closed. -/
theorem Control.inFlight {cfg : Config} {t : Nat} {th : Thread ω} {pc : Pc}
    (h : Control cfg t th pc) {v : Nat} (flight : th.flight = some v) :
    (∀ i, pc.dropped i) ∧ (th.writerVersion = some v ∨
      th.writerVersion = none ∧ th.wsWbCounter = th.wsTailCounter ∧
      pc.wbPos = fun wb => (wb, 0)) := by
  have idle {p : Prop} (none : th.flight = .none) : p := by
    rw [none] at flight
    cases flight
  induction pc with
  | failed line pc ih => exact ih h.2.2
  | fault pc ih => exact ih h.2
  | sync k pc =>
    refine ⟨fun _ => trivial, ?_⟩
    cases pc with
    | start => exact idle h.2.1
    | loadVersion | storeVersion | fetchAdd => exact idle h.2.1
    | initLoop | initThread | initCounter | waitStart | waitLoop | waitCounter | waitVersion
    | reset => exact .inl (h.2.2.trans flight)
    | entry => exact .inl (h.1.2.2.2.2.2.2.2.trans flight)
    | copy | check | unlock => exact .inl (h.1.2.2.2.2.2.2.2.trans flight)
    | storeMax => exact .inl (h.2.2.2.1.trans flight)
    | commitAdd => exact .inr ⟨h.2.2.2.1, h.2.1, rfl⟩
    | loadSync | storeSync | freeCheck | free => exact idle h.1.2.2.1
  | init | idle | finished => exact idle h.2.2.1
  | inSection | mustAbort | deref | writerLock => exact idle h.2.2.1
  | syncCheckpoint | tryLock => exact idle h.1.2.2.1
  | readerLock q => cases q <;> exact idle h.1.2.2.1
  | readerUnlock => exact idle h.1.2.2.1
  | abort q => cases q <;> exact idle h.1.2.2.1
  | release r q =>
    cases r with
    | abortWrite => exact idle h.2.2.1
    | commit | readOnly | abortClean => exact idle h.1.2.2.1

theorem ThreadOk.writerVersion_of_live {cfg : Config} {t : Nat} {th : Thread ω}
    (h : ThreadOk cfg t th) {v ctr i : Nat} (flight : th.flight = some v) (live : th.Live ctr i) :
    th.writerVersion = some v := by
  rcases (h.control.inFlight flight).2 with shown | ⟨-, drained, pos⟩
  · exact shown
  · obtain ⟨ge, ⟨lt, -⟩ | ⟨-, -, active⟩⟩ := (Thread.live_iff pos ctr i).mp live
    · omega
    · exact absurd ((h.control.inFlight flight).1 i) active

def Unchained (s : State ω) : Prop := ∀ c c', (s.wsObj c).pObjCopy ≠ .copy c'

theorem step_wsObj_owned [Inhabited ω] {cfg : Config} {s s' : State ω} {a : Act ω}
    (wf : WellFormed cfg s) (right : RightSlot s a) (hs : step cfg s a = some s') (c : CopyAddr) :
    ((s'.wsObj c).threadId = c.owner ∨ (s'.wsObj c).threadId = (s.wsObj c).threadId) ∧
    ∀ c', (s'.wsObj c).pObjCopy = .copy c' → (s.wsObj c).pObjCopy = .copy c' := by
  obtain ⟨t, th', thread, logStep⟩ := step_logStep wf right hs
  unfold State.wsObj
  rw [thread]
  by_cases e : c.owner = t
  · subst e
    rw [Function.update_self]
    exact logStep.owned c.slot c.idx
  · rw [Function.update_of_ne e]
    exact ⟨.inr rfl, fun _ same => same⟩

theorem reachable_unchained [Inhabited ω] {cfg : Config} {ok : State ω → Act ω → Prop}
    (right : ∀ s a, ok s a → RightSlot s a) {s : State ω}
    (h : System.Reachable Init (step cfg) ok s) : Unchained s :=
  System.Reachable.invariant_of Unchained (fun _ => reachable_wellFormed right)
    (by rintro _ ⟨obj, rfl⟩ c c' e; cases e)
    (fun s a s' wf _ unchained hok hs c c' e =>
      unchained c c' ((step_wsObj_owned wf (right s a hok) hs c).2 c' e)) h

/-! ### Old locks -/

/-- A write set published at or before `l` has `o` locked, with its copy at `c`. -/
def OldLock (s : State ω) (l o : Nat) (c : CopyAddr) : Prop :=
  s.hdr o = .copy c ∧ ∃ v, (s.thread c.owner).flight = some v ∧ v ≤ l

/-- No write set published at or before `l` is in flight. -/
def NoOlder (s : State ω) (l : Nat) : Prop := ∀ w v, (s.thread w).flight = some v → l < v

theorem NoOlder.not_oldLock {s : State ω} {l : Nat} (h : NoOlder s l) (o : Nat) (c : CopyAddr) :
    ¬ OldLock s l o c := by
  rintro ⟨-, v, flight, le⟩
  exact absurd (h c.owner v flight) (Nat.not_lt.mpr le)

section Step
variable [Inhabited ω] {cfg : Config} {s : State ω} {a : Act ω} {t : Nat} {e : Effect ω}

/-- A version that shows up in flight is above all drawn before. -/
theorem actEffect_flight (wf : WellFormed cfg s) (g : Grace s) (right : RightSlot s a)
    (act : ActEffect cfg s a t e) {w v : Nat}
    (flight : ((s.apply t e.1 e.2).thread w).flight = some v) :
    (s.thread w).flight = some v ∨ s.gWriterVersion < v := by
  have here : (s.apply t e.1 e.2).clock.flight w = some v := flight
  rcases actEffect_clock wf g right act with ⟨same, -⟩ | ⟨-, drawn, -⟩ | ⟨-, reported⟩
  · rw [same] at here
    exact .inl here
  · rw [drawn] at here
    by_cases eq : w = t
    · subst eq
      simp only [VersionClock.Clock.draw, Function.update_self, Option.some.injEq] at here
      exact .inr (here ▸ Nat.lt_succ_self _)
    · simp only [VersionClock.Clock.draw, Function.update_of_ne eq] at here
      exact .inl here
  · rw [reported] at here
    by_cases eq : w = t
    · subst eq
      simp [VersionClock.Clock.report] at here
    · simp only [VersionClock.Clock.report, Function.update_of_ne eq] at here
      exact .inl here

theorem actEffect_noOlder (wf : WellFormed cfg s) (g : Grace s) (right : RightSlot s a)
    (act : ActEffect cfg s a t e) {l : Nat} (le : l ≤ s.gWriterVersion) (none : NoOlder s l) :
    NoOlder (s.apply t e.1 e.2) l := by
  intro w v flight
  rcases actEffect_flight wf g right act flight with old | new
  · exact none w v old
  · exact Nat.lt_of_le_of_lt le new

theorem actEffect_oldLock (wf : WellFormed cfg s) (g : Grace s) (right : RightSlot s a)
    (act : ActEffect cfg s a t e) {l : Nat} (le : l ≤ s.gWriterVersion) {o : Nat} {c : CopyAddr}
    (old : OldLock (s.apply t e.1 e.2) l o c) : OldLock s l o c := by
  obtain ⟨held, v, flight, le'⟩ := old
  have before : (s.thread c.owner).flight = some v := by
    rcases actEffect_flight wf g right act flight with old | new
    · exact old
    · omega
  refine ⟨?_, v, before, le'⟩
  cases (actEffect_log (wf.threads t) right act).lockStep (wf.threads t) with
  | frame hdr => rwa [hdr] at held
  | lock idle free hdr live entry =>
    rw [hdr] at held
    by_cases here : o = ((s.thread t).entry (s.thread t).wsTailCounter
        (s.thread t).cur.numOfObjs).pObjActual
    · -- the thread that locks is in a section, where nothing is in flight
      rw [here, Function.update_self] at held
      obtain rfl := PObjCopy.copy.inj held
      rw [idle] at before
      cases before
    · rwa [Function.update_of_ne here] at held
  | unlock ctr i live hdr =>
    rw [hdr] at held
    by_cases here : o = ((s.thread t).entry ctr i).pObjActual
    · rw [here, Function.update_self] at held
      cases held
    · rwa [Function.update_of_ne here] at held

theorem OldLock.writerVersion (wf : WellFormed cfg s) (inv : LockInv s) {l o : Nat} {c : CopyAddr}
    (old : OldLock s l o c) :
    ∃ v, (s.thread c.owner).writerVersion = some v ∧ v ≤ l := by
  obtain ⟨held, v, flight, le⟩ := old
  refine ⟨v, ?_, le⟩
  obtain ⟨ctr, live, -⟩ := inv.logged o c held
  exact (wf.threads c.owner).writerVersion_of_live flight live

end Step

/-! ### The invariant -/

/-- What `RLU_DEREF` knows between its steps about the locks older than the section. -/
def DerefKnows (s : State ω) (l : Nat) : Pc → Prop
  | .deref (.owner (.actual o) c) => ∀ c', OldLock s l o c' → c' = c
  | .deref (.version (.actual o) c thId) => ∀ c', OldLock s l o c' → c' = c ∧ thId = c.owner
  | _ => True

theorem DerefKnows.mono {s s' : State ω} {l : Nat} {pc : Pc}
    (old : ∀ o c, OldLock s' l o c → OldLock s l o c) (h : DerefKnows s l pc) :
    DerefKnows s' l pc := by
  unfold DerefKnows at h ⊢
  split
  · exact fun c' held => h c' (old _ c' held)
  · exact fun c' held => h c' (old _ c' held)
  · trivial

structure Reading (s : State ω) : Prop where
  /-- the results of the last section are gone when the next one gets its version -/
  fresh : ∀ r, (s.thread r).pc.kind = .readerLock → (s.thread r).pc = .readerLock .register ∨
    (s.thread r).derefs = []
  /-- the flags are clear only when no older write set is in flight -/
  flags : ∀ r l, (s.thread r).sectionVersion = some l → (s.thread r).pc.kind ≠ .readerLock →
    ((s.thread r).isSteal = false ∨ (s.thread r).isCheckLocks = false) → NoOlder s l
  knows : ∀ r l, (s.thread r).sectionVersion = some l → DerefKnows s l (s.thread r).pc
  /-- an object used in place is not locked by an older write set -/
  results : ∀ r l, (s.thread r).sectionVersion = some l → ∀ d ∈ (s.thread r).derefs,
    ∀ o, d.result = .actual o → ∀ c, ¬ OldLock s l o c

/-- A section that leaves `rlu_reader_lock` has the version it will compare with. -/
theorem localVersion_of_version {k : Thread ω} {l : Nat} (version : k.sectionVersion = some l)
    (kind : k.pc.kind ≠ .readerLock) : k.localVersion = l := by
  rw [Thread.sectionVersion_of_kind kind] at version
  split_ifs at version
  exact Option.some.inj version

theorem derefReturn_inj {th : Thread ω} {p p' r r' : Ptr}
    (e : derefReturn th p r = derefReturn th p' r') : p = p' ∧ r = r' := by
  have heads := congrArg (fun e : Effect ω => e.1.derefs) e
  simp only [derefReturn, Thread.go, List.cons.injEq, Deref.mk.injEq, and_true] at heads
  exact ⟨heads.1, heads.2.1⟩

theorem callInSection_deref {cfg : Config} {s : State ω} {t : Nat} {th : Thread ω} {op : Op ω}
    {e : Effect ω} (called : callInSection cfg s t th op = some e) {q : DerefPc}
    (hpc : e.1.pc = .deref q) : ∃ p, q = .header p := by
  cases op with
  | readerLock | checkpoint | finish => cases called
  | readerUnlock | abort =>
    obtain rfl := Option.some.inj called
    unfold rluUnregisterThread at hpc
    split_ifs at hpc <;> cases hpc
  | deref p | tryLock p | lock p | tryWriterLock l =>
    simp only [callInSection, ← apply_ite some, Option.some.injEq] at called
    subst called
    split_ifs at hpc <;> cases hpc
    try exact ⟨p, rfl⟩
  | store c w x =>
    simp only [callInSection] at called
    split_ifs at called
    obtain rfl := Option.some.inj called
    cases hpc
  | free p =>
    obtain rfl := Option.some.inj called
    unfold rluFree at hpc
    split at hpc
    · cases hpc
    · dsimp only [Thread.go, Thread.fail] at hpc
      split_ifs at hpc
    · cases hpc

theorem actEffect_deref {cfg : Config} {s : State ω} {a : Act ω} {t : Nat} {e : Effect ω}
    (act : ActEffect cfg s a t e) {q : DerefPc} (hpc : e.1.pc = .deref q) :
    (∃ p, q = .header p) ∨ ∃ q', (s.thread t).pc = .deref q' ∧ e = derefStep s t (s.thread t) q' := by
  have flow := actEffect_flow act
  rw [hpc] at flow
  cases pc : (s.thread t).pc with
  | deref q' =>
    rcases act with ⟨op, -, called⟩ | ⟨-, stepped⟩
    · rw [pc] at called
      cases called
    · rw [pc] at stepped
      exact .inr ⟨q', rfl, (Option.some.inj stepped).symm⟩
  | inSection =>
    rcases act with ⟨op, -, called⟩ | ⟨-, stepped⟩
    · rw [pc] at called
      exact .inl (callInSection_deref called hpc)
    · rw [pc] at stepped
      cases stepped
  | syncCheckpoint k => rw [pc] at flow; cases k <;> simp [Pc.nexts, Caller.nexts, Pc.kind] at flow
  | readerLock q' => rw [pc] at flow; cases q' <;> simp [Pc.nexts, Pc.kind] at flow
  | tryLock q' => rw [pc] at flow; cases q' <;> simp [Pc.nexts, Pc.kind] at flow
  | abort q' => rw [pc] at flow; cases q' <;> simp [Pc.nexts, Pc.kind] at flow
  | release r q' => rw [pc] at flow; cases r <;> simp [Pc.nexts, Pc.kind] at flow
  | sync k q' =>
    rw [pc] at flow
    cases q' <;> cases k <;> simp [Pc.nexts, Caller.nexts, Pc.kind] at flow
  | _ => rw [pc] at flow; simp [Pc.nexts, Caller.nexts, Pc.kind] at flow

section Preserve
variable [Inhabited ω] {cfg : Config} {s : State ω}

theorem init_reading (h : Init s) : Reading s := by
  obtain ⟨obj, rfl⟩ := h
  have none (r : Nat) {l : Nat} : ¬ (Thread.init : Thread ω).sectionVersion = some l := by
    unfold Thread.sectionVersion
    nofun
  exact ⟨fun r kind => (by cases kind), fun r l e => absurd e (none r),
    fun r l e => absurd e (none r), fun r l e => absurd e (none r)⟩

section Effect
variable {a : Act ω} {t : Nat} {e : Effect ω}

/-- `RLU_DEREF` returns the actual object only when no older write set has it locked. -/
theorem deref_actual (wf : WellFormed cfg s) (inv : LockInv s) (reading : Reading s) {q : DerefPc}
    {p : Ptr} {o l : Nat} (version : (s.thread t).sectionVersion = some l)
    (hpc : (s.thread t).pc = .deref q)
    (returns : derefStep s t (s.thread t) q = derefReturn (s.thread t) p (.actual o)) (c : CopyAddr) :
    ¬ OldLock s l o c := by
  intro old
  have kind : (s.thread t).pc.kind ≠ .readerLock := by rw [hpc]; nofun
  have knows := reading.knows t l version
  rw [hpc] at knows
  have held := old.1
  -- the argument is the actual object, as the result is
  have arg {p' : Ptr} (e : derefReturn (s.thread t) p' p' = derefReturn (s.thread t) p (.actual o)) :
      p' = .actual o := by
    obtain ⟨rfl, e'⟩ := derefReturn_inj e
    exact e'
  cases q with
  | header p' =>
    simp only [derefStep] at returns
    split_ifs at returns with free
    · obtain rfl := arg returns
      rw [State.getCopy, held] at free
      cases free
    · cases congrArg (fun e => e.1.pc) returns
  | slow p' =>
    simp only [derefStep] at returns
    split at returns
    · rename_i free
      obtain rfl := arg returns
      rw [State.getCopy, held] at free
      cases free
    · rename_i free
      obtain rfl := arg returns
      rw [State.getCopy, held] at free
      cases free
    · cases congrArg (fun e => e.1.pc) returns
  | owner p' c' =>
    simp only [derefStep] at returns
    split_ifs at returns with mine steal
    · cases (derefReturn_inj returns).2
    · cases congrArg (fun e => e.1.pc) returns
    · exact (reading.flags t l version kind (.inl (by simpa using steal))).not_oldLock o c old
  | version p' c' thId =>
    obtain ⟨v, shown, le⟩ := old.writerVersion wf inv
    rw [← localVersion_of_version version kind] at le
    have late {p : Prop} (e : p' = .actual o)
        (hidden : (s.thread thId).writerVersion ≠ some v) : p := by
      subst e
      obtain ⟨rfl, rfl⟩ := knows c old
      exact absurd shown hidden
    simp only [derefStep] at returns
    split at returns
    · rename_i v' shown'
      split_ifs at returns with le'
      · cases (derefReturn_inj returns).2
      · exact late (arg returns) fun e => le' (by
          obtain rfl := Option.some.inj (shown'.symm.trans e)
          exact le)
    · rename_i hidden
      exact late (arg returns) fun e => by rw [hidden] at e; cases e

theorem deref_knows (wf : WellFormed cfg s) (inv : LockInv s) (reading : Reading s)
    {l : Nat} (version : (s.thread t).sectionVersion = some l) {q q' : DerefPc}
    (hpc : (s.thread t).pc = .deref q)
    (next : (derefStep s t (s.thread t) q).1.pc = .deref q') : DerefKnows s l (.deref q') := by
  have knows := reading.knows t l version
  rw [hpc] at knows
  cases q with
  | header p =>
    simp only [derefStep] at next
    split_ifs at next
    · cases next
    · cases next
      trivial
  | slow p =>
    simp only [derefStep] at next
    split at next
    · cases next
    · cases next
    · rename_i c held
      cases next
      cases p with
      | actual o =>
        intro c' old
        exact PObjCopy.copy.inj (old.1.symm.trans held)
      | null | copy => trivial
  | owner p c =>
    simp only [derefStep] at next
    split_ifs at next
    · cases next
    · cases next
      cases p with
      | actual o =>
        intro c' old
        obtain rfl := knows c' old
        exact ⟨rfl, (inv.copy_of_held wf old.1).1⟩
      | null | copy => trivial
    · cases next
  | version p c thId =>
    simp only [derefStep] at next
    split at next
    · split_ifs at next <;> cases next
    · cases next

omit [Inhabited ω] in
/-- Past its registration, a section in `rlu_reader_lock` has no result yet. -/
theorem Reading.derefs_empty (reading : Reading s) {q : ReaderLockPc}
    (pc : (s.thread t).pc = .readerLock q) (later : q ≠ .register) : (s.thread t).derefs = [] := by
  rcases reading.fresh t (by rw [pc]; rfl) with e | empty
  · exact absurd (Pc.readerLock.inj (pc.symm.trans e)) later
  · exact empty

/-- Where the results of a section that goes on come from. -/
theorem actEffect_derefs (wf : WellFormed cfg s) (reading : Reading s) (right : RightSlot s a)
    (act : ActEffect cfg s a t e) {l : Nat} (here : e.1.sectionVersion = some l) :
    e.1.derefs = [] ∨
    (s.thread t).sectionVersion = some l ∧ (s.thread t).pc.kind ≠ .readerLock ∧
      (e.1.derefs = (s.thread t).derefs ∨ ∃ p r, e = derefReturn (s.thread t) p r ∧
        ((s.thread t).pc = .inSection ∧ ((s.thread t).isCheckLocks = false ∨ p = .null) ∧ r = p ∨
          ∃ q, (s.thread t).pc = .deref q ∧
            derefStep s t (s.thread t) q = derefReturn (s.thread t) p r)) := by
  have h := wf.threads t
  have odd := (actEffect_ok h right act).odd_of_version here
  cases actEffect_section h act with
  | same run version steal check derefs notLocking notLocking' =>
    rw [Thread.sectionVersion_of_kind notLocking', run, version,
      ← Thread.sectionVersion_of_kind notLocking] at here
    exact .inr ⟨here, notLocking, .inl derefs⟩
  | outside even run => omega
  | register pc effect =>
    subst effect
    exact .inl rfl
  | loadVersion pc effect =>
    subst effect
    exact .inl (reading.derefs_empty pc nofun)
  | storeVersion v pc effect =>
    subst effect
    exact .inl (reading.derefs_empty pc nofun)
  | loadCommit pc effect =>
    subst effect
    exact .inl (reading.derefs_empty pc nofun)
  | deref p r effect source =>
    have notLocking : (s.thread t).pc.kind ≠ .readerLock := by
      rcases source with ⟨pc, -⟩ | ⟨q, pc, -⟩ <;> rw [pc] <;> nofun
    refine .inr ⟨?_, notLocking, .inr ⟨p, r, effect, source⟩⟩
    subst effect
    rw [Thread.sectionVersion_of_kind (by show PcKind.inSection ≠ _; nofun)] at here
    rw [Thread.sectionVersion_of_kind notLocking]
    exact here
  | leave odd' run => omega

theorem actEffect_fresh (wf : WellFormed cfg s) (reading : Reading s)
    (act : ActEffect cfg s a t e) (kind : e.1.pc.kind = .readerLock) :
    e.1.pc = .readerLock .register ∨ e.1.derefs = [] := by
  cases actEffect_section (wf.threads t) act with
  | same run version steal check derefs notLocking notLocking' => exact absurd kind notLocking'
  | outside even run version locking => exact .inl (locking kind)
  | register pc effect =>
    subst effect
    exact .inr rfl
  | loadVersion pc effect =>
    subst effect
    exact .inr (reading.derefs_empty pc nofun)
  | storeVersion v pc effect =>
    subst effect
    exact .inr (reading.derefs_empty pc nofun)
  | loadCommit pc effect =>
    subst effect
    cases kind
  | deref p r effect source =>
    subst effect
    cases kind
  | leave odd run version pc => exact absurd kind pc

/-- The flags of a section come out clear only when nothing older is in flight. -/
theorem loadCommit_noOlder (wf : WellFormed cfg s) (g : Grace s)
    (pc : (s.thread t).pc = .readerLock .loadCommit)
    (clear : (readerLockStep s (s.thread t) .loadCommit).1.isSteal = false ∨
      (readerLockStep s (s.thread t) .loadCommit).1.isCheckLocks = false) :
    NoOlder s (s.thread t).localVersion := by
  have inside := (wf.threads t).control
  rw [pc] at inside
  have before : (s.thread t).sectionVersion = some (s.thread t).localVersion := by
    unfold Thread.sectionVersion
    rw [pc]
    exact if_pos inside.1.1
  have done : s.gCommitVersion = (s.thread t).localVersion := by
    rcases clear with clear | clear
    · exact (bne_eq_false_iff_eq.mp clear).symm
    · have both : (s.thread t).localVersion = s.gCommitVersion ∧
          (s.thread t).wsTailCounter = (s.thread t).wsWbCounter := by
        simpa [readerLockStep, Thread.go] using clear
      exact both.1.symm
  intro w v flight
  have lt : w < s.gCurThreads := by
    by_contra ge
    rw [wf.fresh w (Nat.le_of_not_lt ge)] at flight
    cases flight
  exact (g.counts t _ before).lt_of_done done (Finset.mem_range.mpr lt) flight

theorem actEffect_flags (wf : WellFormed cfg s) (g : Grace s) (reading : Reading s)
    (right : RightSlot s a) (act : ActEffect cfg s a t e) {l : Nat}
    (here : e.1.sectionVersion = some l) (returned : e.1.pc.kind ≠ .readerLock)
    (clear : e.1.isSteal = false ∨ e.1.isCheckLocks = false) : NoOlder s l := by
  have odd := (actEffect_ok (wf.threads t) right act).odd_of_version here
  cases actEffect_section (wf.threads t) act with
  | same run version steal check derefs notLocking notLocking' =>
    rw [Thread.sectionVersion_of_kind notLocking', run, version,
      ← Thread.sectionVersion_of_kind notLocking] at here
    rw [steal] at clear
    exact reading.flags t l here notLocking (clear.imp_right check)
  | outside even run => omega
  | register pc effect =>
    subst effect
    exact absurd rfl returned
  | loadVersion pc effect =>
    subst effect
    exact absurd rfl returned
  | storeVersion v pc effect =>
    subst effect
    exact absurd rfl returned
  | loadCommit pc effect =>
    subst effect
    have current : (s.thread t).localVersion = l :=
      localVersion_of_version (k := (readerLockStep s (s.thread t) .loadCommit).1) here returned
    subst current
    exact loadCommit_noOlder wf g pc clear
  | deref p r effect source =>
    subst effect
    have notLocking : (s.thread t).pc.kind ≠ .readerLock := by
      rcases source with ⟨pc, -⟩ | ⟨q, pc, -⟩ <;> rw [pc] <;> nofun
    have before : (s.thread t).sectionVersion = some l := by
      rw [Thread.sectionVersion_of_kind returned] at here
      rw [Thread.sectionVersion_of_kind notLocking]
      exact here
    exact reading.flags t l before notLocking clear
  | leave odd' run => omega

/-- Between the steps of `RLU_DEREF` the version of the section stays. -/
theorem actEffect_deref_version (wf : WellFormed cfg s) (act : ActEffect cfg s a t e) {q : DerefPc}
    (pc : (s.thread t).pc = .deref q) {l : Nat} (here : e.1.sectionVersion = some l) :
    (s.thread t).sectionVersion = some l := by
  rcases (actEffect_section (wf.threads t) act).version (wf.threads t) with
    ⟨none, -⟩ | ⟨-, -, pc'⟩ | ⟨kept, -⟩
  · rw [none] at here
    cases here
  · rw [pc] at pc'
    cases pc'
  · exact kept.symm.trans here

theorem actEffect_knows (wf : WellFormed cfg s) (inv : LockInv s) (reading : Reading s)
    (act : ActEffect cfg s a t e) {l : Nat} (here : e.1.sectionVersion = some l) :
    DerefKnows s l e.1.pc := by
  cases hpc : e.1.pc with
  | deref q =>
    rcases actEffect_deref act hpc with ⟨p, rfl⟩ | ⟨q', from_, rfl⟩
    · trivial
    · exact deref_knows wf inv reading (actEffect_deref_version wf act from_ here) from_ hpc
  | _ => trivial

theorem actEffect_results (wf : WellFormed cfg s) (inv : LockInv s) (reading : Reading s)
    (right : RightSlot s a) (act : ActEffect cfg s a t e) {l : Nat}
    (here : e.1.sectionVersion = some l) :
    ∀ d ∈ e.1.derefs, ∀ o, d.result = .actual o → ∀ c, ¬ OldLock s l o c := by
  intro d mem o result c
  rcases actEffect_derefs wf reading right act here with empty | ⟨before, notLocking, same | new⟩
  · rw [empty] at mem
    cases mem
  · rw [same] at mem
    exact reading.results t l before d mem o result c
  · obtain ⟨p, r, rfl, source⟩ := new
    rcases List.mem_cons.mp mem with rfl | mem
    · obtain rfl : r = .actual o := result
      rcases source with ⟨pc, fast | rfl, e⟩ | ⟨q, pc, returns⟩
      · exact (reading.flags t l before notLocking (.inr fast)).not_oldLock o c
      · cases e
      · exact deref_actual wf inv reading before pc returns c
    · exact reading.results t l before d mem o result c

theorem step_reading {s' : State ω} (wf : WellFormed cfg s) (inv : LockInv s) (g : Grace s)
    (reading : Reading s) (right : RightSlot s a) (hs : step cfg s a = some s') : Reading s' := by
  rcases step_cases hs with ⟨rfl, rfl⟩ | ⟨t, e, -, act, rfl⟩
  · rw [wf.threadInit]
    exact ⟨reading.fresh, reading.flags, reading.knows, reading.results⟩
  · have old {r l : Nat} (version : ((s.apply t e.1 e.2).thread r).sectionVersion = some l)
        (o : Nat) (c : CopyAddr) : OldLock (s.apply t e.1 e.2) l o c → OldLock s l o c :=
      actEffect_oldLock wf g right act (actEffect_version_le wf g act version)
    have none {r l : Nat} (version : ((s.apply t e.1 e.2).thread r).sectionVersion = some l) :
        NoOlder s l → NoOlder (s.apply t e.1 e.2) l :=
      actEffect_noOlder wf g right act (actEffect_version_le wf g act version)
    refine ⟨fun r kind => ?_, fun r l version kind clear => none version ?_,
      fun r l version => .mono (old version) ?_,
      fun r l version d mem o result c held => absurd (old version o c held) ?_⟩
    all_goals
      rw [State.apply_thread] at *
      by_cases eq : r = t
    · subst eq
      rw [Function.update_self] at kind ⊢
      exact actEffect_fresh wf reading act kind
    · rw [Function.update_of_ne eq] at kind ⊢
      exact reading.fresh r kind
    · subst eq
      rw [Function.update_self] at version kind clear
      exact actEffect_flags wf g reading right act version kind clear
    · rw [Function.update_of_ne eq] at version kind clear
      exact reading.flags r l version kind clear
    · subst eq
      rw [Function.update_self] at version ⊢
      exact actEffect_knows wf inv reading act version
    · rw [Function.update_of_ne eq] at version ⊢
      exact reading.knows r l version
    · subst eq
      rw [Function.update_self] at version mem
      exact actEffect_results wf inv reading right act version d mem o result c
    · rw [Function.update_of_ne eq] at version mem
      exact reading.results r l version d mem o result c

end Effect

end Preserve

/-- What orderly runs keep, apart from what sections read. -/
structure Sound [Inhabited ω] (cfg : Config) (s : State ω) : Prop where
  wf : WellFormed cfg s
  locks : LockInv s
  grace : Grace s

theorem reachable_sound [Inhabited ω] {cfg : Config} {ok : State ω → Act ω → Prop}
    (orderly : ∀ s a, ok s a → Orderly s a) {s : State ω}
    (h : System.Reachable Init (step cfg) ok s) : Sound cfg s where
  wf := reachable_wellFormed (fun s a hok => (orderly s a hok).1) h
  locks := reachable_lockInv (fun s a hok => (orderly s a hok).1) h
  grace := reachable_grace orderly h

theorem reachable_reading [Inhabited ω] {cfg : Config} {ok : State ω → Act ω → Prop}
    (orderly : ∀ s a, ok s a → Orderly s a) {s : State ω}
    (h : System.Reachable Init (step cfg) ok s) : Reading s :=
  System.Reachable.invariant_of Reading (fun _ => reachable_sound orderly)
    (fun _ => init_reading)
    (fun s a _ sound _ reading hok hs =>
      step_reading sound.wf sound.locks sound.grace reading (orderly s a hok).1 hs) h

/-! ### Writing back in place -/

/-- Inside a section a thread has a version or has no result yet. -/
theorem Reading.version_of_odd {s : State ω} (reading : Reading s) {r : Nat}
    (odd : (s.thread r).runCounter % 2 = 1) :
    (∃ l, (s.thread r).sectionVersion = some l) ∨ (s.thread r).derefs = [] := by
  by_cases loading : (s.thread r).pc = .readerLock .loadVersion
  · rcases reading.fresh r (by rw [loading]; rfl) with e | empty
    · rw [loading] at e
      cases e
    · exact .inr empty
  · refine .inl ?_
    unfold Thread.sectionVersion
    split
    · rename_i e
      exact absurd e loading
    · exact ⟨_, rfl⟩
    · exact ⟨_, if_pos odd⟩

/-- A write set past its wait locks its objects for every section that runs beside it. -/
theorem Grace.oldLock_of_waited [Inhabited ω] {cfg : Config} {s : State ω} (sound : Sound cfg s)
    {w r ctr i l : Nat} {k : Caller} {x : Nat} (hpc : (s.thread w).pc = .sync k (.copy ctr i x))
    (ne : r ≠ w) (version : (s.thread r).sectionVersion = some l) :
    OldLock s l ((s.thread w).entry ctr i).pObjActual ⟨w, wsIndex ctr, i⟩ := by
  have control := (sound.wf.threads w).control
  rw [hpc] at control
  obtain ⟨writing, lt, num⟩ := control
  obtain ⟨v, flight⟩ := writing.2.2.2.2.2.2.1
  have live : (s.thread w).Live ctr i := by
    unfold Thread.Live
    rw [hpc]
    exact ⟨.inr ⟨rfl, Nat.le_refl _⟩, .inl ⟨lt, num⟩⟩
  exact ⟨sound.locks.installed w ctr i live, v + 1, flight,
    sound.grace.le_of_waited ne flight version (by rw [hpc]; exact id)⟩

/-- While a write-back copies onto an object, no other thread is in a section in which
`RLU_DEREF` returned the object itself. -/
theorem no_overwrite_under_reader [Inhabited ω] (cfg : Config) (s : State ω)
    (h : System.Reachable Init (step cfg) Orderly s) (w r : Nat) (k : Caller) (ctr i x : Nat)
    (writing : (s.thread w).pc = .sync k (.copy ctr i x)) (ne : r ≠ w)
    (inside : (s.thread r).runCounter % 2 = 1) :
    ∀ d ∈ (s.thread r).derefs, d.result ≠ .actual ((s.thread w).entry ctr i).pObjActual := by
  have sound := reachable_sound (fun _ _ ok => ok) h
  have reading := reachable_reading (fun _ _ ok => ok) h
  intro d mem result
  rcases reading.version_of_odd inside with ⟨l, version⟩ | empty
  · exact reading.results r l version d mem _ result _
      (Grace.oldLock_of_waited sound writing ne version)
  · rw [empty] at mem
    cases mem

def Pc.isCopyOf (ctr i : Nat) : Pc → Bool
  | .sync _ (.copy ctr' i' _) => ctr' == ctr && i' == i
  | _ => false

theorem Pc.eq_of_isCopyOf {pc : Pc} {ctr i : Nat} (h : pc.isCopyOf ctr i = true) :
    ∃ k x, pc = .sync k (.copy ctr i x) := by
  unfold Pc.isCopyOf at h
  split at h
  · rename_i k ctr' i' x
    obtain ⟨rfl, rfl⟩ : ctr' = ctr ∧ i' = i := by simpa using h
    exact ⟨k, x, rfl⟩
  · cases h

/-- Thread `t` locks object `o`, up to the end of its section. -/
def lockAndCommit (t o : Nat) : List (Act Nat) :=
  [.call t .readerLock] ++ List.replicate 5 (.lib t) ++ [.call t (.tryLock (.actual o))] ++
  List.replicate 9 (.lib t) ++ [.call t .readerUnlock]

/-- Thread 0 writes object 0 back while thread 1 is in a section in which it stole the copy. -/
def stolenRun : List (Act Nat) :=
  [.threadInit, .threadInit, .lib 0, .lib 1] ++ lockAndCommit 0 0 ++ List.replicate 5 (.lib 0) ++
  [.call 1 .readerLock] ++ List.replicate 5 (.lib 1) ++ [.call 1 (.deref (.actual 0))] ++
  List.replicate 4 (.lib 1) ++ List.replicate 13 (.lib 0)

theorem no_overwrite_under_reader_stolen : ∃ s : State Nat,
    System.Reachable Init (step oneWriteSet) Orderly s ∧
    (∃ d ∈ (s.thread 1).derefs, d.result = .copy ⟨0, 0, 0⟩) ∧
    ∀ d ∈ (s.thread 1).derefs, d.result ≠ .actual ((s.thread 0).entry 0 0).pObjActual := by
  have reached : ((System.run (System.guarded (step oneWriteSet) Orderly)
      (State.init fun _ _ => 0) stolenRun).any fun s =>
        (s.thread 0).pc.isCopyOf 0 0 && decide ((s.thread 1).runCounter % 2 = 1) &&
        (s.thread 1).derefs.any fun d => d.result = .copy ⟨0, 0, 0⟩) = true := by
    decide +kernel
  have start : Init (State.init fun _ _ => (0 : Nat)) := ⟨_, rfl⟩
  obtain ⟨s, h, facts⟩ := System.exists_reachable start reached
  simp only [Bool.and_eq_true, decide_eq_true_eq, List.any_eq_true] at facts
  obtain ⟨⟨copying, inside⟩, stolen⟩ := facts
  obtain ⟨k, x, writing⟩ := Pc.eq_of_isCopyOf copying
  exact ⟨s, h, stolen, no_overwrite_under_reader oneWriteSet s h 0 1 k 0 0 x writing (by decide) inside⟩

/-- Thread 0 stops between its load of the version and its increment; thread 1 draws the version
that thread 0 will announce, and thread 2 starts with it and uses object 0 in place. Thread 0
then takes thread 2 for a section that starts after its commit. -/
def overtakenRun : List (Act Nat) :=
  [.threadInit, .threadInit, .threadInit, .lib 0, .lib 1, .lib 2] ++ lockAndCommit 0 0 ++
  List.replicate 3 (.lib 0) ++ lockAndCommit 1 1 ++ List.replicate 5 (.lib 1) ++
  [.call 2 .readerLock] ++ List.replicate 5 (.lib 2) ++ [.call 2 (.deref (.actual 0))] ++
  List.replicate 4 (.lib 2) ++ List.replicate 19 (.lib 0)

/-- Without the condition on the run, a write-back can reach an object that is in use. -/
theorem overwrites_under_reader : ¬ ∀ (s : State Nat),
    System.Reachable Init (step oneWriteSet) (fun _ _ => True) s →
    ∀ (w r : Nat) (k : Caller) (ctr i x : Nat), (s.thread w).pc = .sync k (.copy ctr i x) →
    r ≠ w → (s.thread r).runCounter % 2 = 1 →
    ∀ d ∈ (s.thread r).derefs, d.result ≠ .actual ((s.thread w).entry ctr i).pObjActual := by
  intro claim
  have reached : ((System.run (System.guarded (step oneWriteSet) fun _ _ => True)
      (State.init fun _ _ => 0) overtakenRun).any fun s =>
        (s.thread 0).pc.isCopyOf 0 0 && decide ((s.thread 2).runCounter % 2 = 1) &&
        (s.thread 2).derefs.any fun d =>
          d.result = .actual ((s.thread 0).entry 0 0).pObjActual) = true := by
    decide +kernel
  have start : Init (State.init fun _ _ => (0 : Nat)) := ⟨_, rfl⟩
  obtain ⟨s, h, facts⟩ := System.exists_reachable start reached
  simp only [Bool.and_eq_true, decide_eq_true_eq, List.any_eq_true] at facts
  obtain ⟨⟨copying, inside⟩, d, mem, inPlace⟩ := facts
  obtain ⟨k, x, writing⟩ := Pc.eq_of_isCopyOf copying
  exact claim s h 0 2 k 0 0 x writing (by decide) inside d mem inPlace

end ReadLogUpdate
